import Xv6.FileRefs

/-!
References over runs: after every completed call each file and each inode has as many references as
there are descriptors, open files and current directories that point at it, no inode is in the table
twice, and the page of a pipe is freed once, when both of its ends are closed.
-/

namespace Xv6.Fs

open Xv6.ByteMem Xv6.Wp

variable {sb : Superblock} {pages : List ℕ} {δ : ℕ → ℤ} {π : ℕ → ℕ} {s t : Sys} {f p : ℕ}

/-! ### Functions of fs.c -/

/-- Files and processes are as they were. -/
def Same (s t : Sys) : Prop := t.procs = s.procs ∧ t.files = s.files

lemma Tidy.fs {α : Type} {m : F α} {σ : α → ℕ → ℕ} (h : Tidy pages δ π s)
    (hm : wp m (fun a d => Held (fun i => uses s i + σ a i) d) (fun _ => True) s.disk) :
    wp (fs m) (fun a t => Tidy pages δ (σ a) t ∧ Same s t) (fun _ => True) s := by
  rw [wp_fs]
  exact wp_post hm fun a d hd => ⟨⟨h.sound.disk d, hd⟩, rfl, rfl⟩

lemma Tidy.calm {α : Type} {m : F α} (h : Tidy pages δ π s) (hm : Keeps tab m) :
    wp (Fs.fs m) (fun _ t => Tidy pages δ π t ∧ Same s t) (fun _ => True) s :=
  h.fs (wp_post (h.held.calm hm) fun _ _ hd => hd.1)

lemma Tidy.ilock (h : Tidy pages δ π s) (i : ℕ) :
    wp (Fs.fs (Fs.ilock i)) (fun _ t => Tidy pages δ π t ∧ Same s t) (fun _ => True) s :=
  h.fs (wp_post (ilock_held h.held i) fun _ _ hd => hd.1)

lemma Tidy.iunlock (h : Tidy pages δ π s) (i : ℕ) :
    wp (Fs.fs (Fs.iunlock i)) (fun _ t => Tidy pages δ π t ∧ Same s t) (fun _ => True) s :=
  h.fs (wp_post (iunlock_held h.held i) fun _ _ hd => by
    rw [hd.1]
    exact h.held)

lemma Tidy.iunlockput {i : ℕ} (h : Tidy pages δ (take π i) s) :
    wp (Fs.fs (Fs.iunlockput i)) (fun _ t => Tidy pages δ π t ∧ Same s t) (fun _ => True) s := by
  have hh := h.held
  rw [← take_add] at hh
  refine h.fs (wp_post (iunlockput_held hh (take_self_pos _ i)) fun _ d hd => ?_)
  have := hd.1
  rwa [drop_take] at this

lemma takeO_add (u π : ℕ → ℕ) (r : Option ℕ) :
    takeO (fun j => u j + π j) r = fun j => u j + takeO π r j := by
  cases r with
  | none => rfl
  | some i => exact take_add u π i

lemma uses_cwd {cw : ℕ} (hp : p < NPROC) (hcw : (s.procs p).cwd = some cw) : 0 < uses s cw := by
  have hle := le_sum hp s.procs (cwdUse cw)
  have hone : cwdUse cw (s.procs p) = 1 := if_pos hcw
  unfold uses
  omega

section Calls

variable {cw : ℕ} (h : Tidy pages δ π s) (hcw : 0 < uses s cw)

include h hcw

lemma Tidy.namei (path : List Byte) :
    wp (Fs.fs (Fs.namei sb cw path)) (fun r t => Tidy pages δ (takeO π r) t ∧ Same s t)
      (fun _ => True) s := by
  refine h.fs (wp_post (stable_true.wp_namei path h.held trivial (by omega)) fun r d hd => ?_)
  have := hd.1
  rwa [takeO_add] at this

lemma Tidy.create (path : List Byte) (type : Ftype) (major minor : ℤ) :
    wp (Fs.fs (Fs.create sb cw path type major minor)) (fun r t =>
      Tidy pages δ (takeO π r) t ∧ Same s t) (fun _ => True) s := by
  refine h.fs (wp_post (stable_true.wp_create path type major minor h.held trivial (by omega))
    fun r d hd => ?_)
  have := hd.1.1
  rwa [takeO_add] at this

lemma Tidy.link (old new : List Byte) :
    wp (Fs.fs (Fs.link sb cw old new)) (fun _ t => Tidy pages δ π t ∧ Same s t) (fun _ => True) s :=
  h.fs (wp_post (stable_true.wp_link old new h.held trivial (by omega)) fun _ _ hd => hd.1)

lemma Tidy.unlink (path : List Byte) :
    wp (Fs.fs (Fs.unlink sb cw path)) (fun _ t => Tidy pages δ π t ∧ Same s t) (fun _ => True) s :=
  h.fs (wp_post (stable_true.wp_unlink path h.held trivial (by omega)) fun _ _ hd => hd.1)

end Calls

/-! ### System calls -/

/-- No reference is in hand. -/
structure Settled (pages : List ℕ) (s : Sys) : Prop where
  tidy : Tidy pages 0 0 s
  procs : Procs s

/-- Process `p` may make a call. -/
def Runs (p : ℕ) (s : Sys) : Prop := p < NPROC ∧ (s.procs p).state = .alive

lemma Settled.same (h : Procs s) (ht : Tidy pages 0 0 t) (hst : SameProcs s t) : Settled pages t :=
  ⟨ht, h.same hst⟩

lemma Settled.cwd (h : Settled pages s) (hp : Runs p s) :
    (s.procs p).cwd = some ((s.procs p).cwd.getD 0) ∧ 0 < uses s ((s.procs p).cwd.getD 0) := by
  obtain ⟨i, hi⟩ := h.procs.cwd p hp.2
  rw [hi]
  exact ⟨rfl, uses_cwd hp.1 hi⟩

lemma sys_dup_settled (h : Settled pages s) (hp : Runs p s) (fd : ℤ) :
    wp (sys_dup p fd) (fun _ t => Settled pages t) (fun _ => True) s := by
  unfold sys_dup argfd
  simp only [wp_bind, wp_get]
  split
  · exact h
  simp only [wp_pure]
  cases (s.procs p).ofile fd.toNat with
  | none => exact h
  | some f =>
    simp only [wp_bind]
    refine wp_post (fdalloc_tidy h.tidy hp.1 hp.2) fun r t hr => ?_
    cases r with
    | none =>
      subst hr
      exact h
    | some fd =>
      obtain ⟨-, -, -, hst, -, -, ht⟩ := hr
      simp only [wp_bind, wp_pure]
      refine wp_post (filedup_tidy ht) ?_
      rintro g u ⟨rfl, hpr, hu⟩
      rw [sub_add_cancel] at hu
      exact Settled.same h.procs hu (hst.trans (SameProcs.of_eq hpr))

lemma sys_close_settled (h : Settled pages s) (hp : Runs p s) (fd : ℤ) :
    wp (sys_close p fd) (fun _ t => Settled pages t) (fun _ => True) s := by
  unfold sys_close argfd
  simp only [wp_bind, wp_get]
  split
  · exact h
  rename_i hfd
  simp only [wp_pure]
  cases hf : (s.procs p).ofile fd.toNat with
  | none => exact h
  | some f =>
    have hlt : fd.toNat < NOFILE := by omega
    simp only [wp_bind]
    refine wp_post (setOfile_tidy h.tidy hp.1 hp.2 hlt hf) ?_
    rintro _ t ⟨hst, -, ht⟩
    refine wp_post (fileclose_spec ht) ?_
    rintro _ u ⟨hpr, hu⟩
    have hδ : (0 : ℕ → ℤ) + hand (some f) - hand none - hand (some f) = 0 := by
      simp [hand]
    rw [hδ] at hu
    exact Settled.same h.procs hu (hst.trans (SameProcs.of_eq hpr))

lemma giveUp {i : ℕ} (h : Procs s) (ht : Tidy pages 0 (take 0 i) t) (hst : SameProcs s t) :
    wp (do
      fs (iunlockput i)
      pure (-1)) (fun (_ : ℤ) u => Settled pages u) (fun _ => True) t := by
  rw [wp_bind]
  refine wp_post ht.iunlockput ?_
  rintro _ u ⟨hu, hsame⟩
  exact Settled.same h hu (hst.trans (SameProcs.of_eq hsame.1))

lemma opened_ref (x : File) (ip : ℕ) (d : Dinode) (omode : BitVec 32) :
    (opened x ip d omode).ref = x.ref := by
  unfold opened
  dsimp only
  split
  · rfl
  · rfl

lemma opened_type (x : File) (ip : ℕ) (d : Dinode) (omode : BitVec 32) :
    (opened x ip d omode).type = .inode ∨ (opened x ip d omode).type = .device := by
  unfold opened
  dsimp only
  split
  · exact Or.inr rfl
  · exact Or.inl rfl

lemma openInode_settled {ip : ℕ} (h : Procs s) (ht : Tidy pages 0 (take 0 ip) s) (hp : Runs p s)
    (omode : BitVec 32) :
    wp (openInode p ip omode) (fun _ t => Settled pages t) (fun _ => True) s := by
  unfold openInode
  simp only [wp_bind, wp_get]
  generalize (s.disk.inodes ip).copy = d
  split
  · exact giveUp h ht (SameProcs.of_eq rfl)
  rw [wp_bind]
  refine wp_post (filealloc_tidy ht) fun r s1 hr => ?_
  cases r with
  | none =>
    subst hr
    exact giveUp h ht (SameProcs.of_eq rfl)
  | some f =>
    obtain ⟨ho, -, hone, hnone, h1⟩ := hr
    have hp1 : (s1.procs p).state = .alive := by
      rw [ho.procs]
      exact hp.2
    simp only [wp_bind]
    refine wp_post (fdalloc_tidy h1 hp.1 hp1) fun r s2 hr => ?_
    cases r with
    | none =>
      subst hr
      simp only [wp_bind]
      refine wp_post (fileclose_spec h1) ?_
      rintro _ u ⟨hpr, hu⟩
      rw [add_sub_cancel_right] at hu
      have := giveUp h hu (SameProcs.of_eq (hpr.trans ho.procs))
      rwa [wp_bind] at this
    | some fd =>
      obtain ⟨-, hfiles, -, hst, -, -, h2⟩ := hr
      rw [add_sub_cancel_right] at h2
      have hst := (SameProcs.of_eq ho.procs).trans hst
      have h3 := h2.openFile (by rw [hfiles]; exact hone) (by rw [hfiles]; exact hnone)
        ((opened_ref (s2.files f) ip d omode).trans (by rw [hfiles]; exact hone))
        (opened_type (s2.files f) ip d omode) rfl
      simp only [Fs.setFile, wp_bind, wp_modify]
      have htrunc : ∀ u, Tidy pages 0 0 u → SameProcs s u → wp (openTrunc ip d.type omode)
          (fun _ t => Tidy pages 0 0 t ∧ SameProcs s t) (fun _ => True) u := by
        intro u hu hsu
        unfold openTrunc
        split
        · refine wp_post (hu.calm (tab_itrunc ip)) ?_
          rintro _ v ⟨hv, hsame⟩
          exact ⟨hv, hsu.trans (SameProcs.of_eq hsame.1)⟩
        · exact ⟨hu, hsu⟩
      refine wp_post (htrunc _ h3 hst) ?_
      rintro _ u ⟨hu, hstu⟩
      refine wp_post (hu.iunlock ip) ?_
      rintro _ v ⟨hv, hsame⟩
      exact Settled.same h hv (hstu.trans (SameProcs.of_eq hsame.1))

lemma Runs.same (hp : Runs p s) (h : Same s t) : Runs p t :=
  ⟨hp.1, by rw [h.1]; exact hp.2⟩

lemma Procs.of_same (h : Procs s) (hst : Same s t) : Procs t := h.same (SameProcs.of_eq hst.1)

lemma sys_open_settled (h : Settled pages s) (hp : Runs p s) (path : Option Path)
    (omode : BitVec 32) :
    wp (sys_open sb p path omode) (fun _ t => Settled pages t) (fun _ => True) s := by
  obtain ⟨-, hcw⟩ := h.cwd hp
  unfold sys_open
  cases path with
  | none => exact h
  | some path =>
    simp only [wp_bind, cwd, wp_get, wp_pure]
    split
    · rw [wp_bind]
      refine wp_post (h.tidy.create hcw path.bytes .file 0 0) ?_
      rintro r t ⟨ht, hst⟩
      cases r with
      | none => exact ⟨ht, h.procs.of_same hst⟩
      | some ip => exact openInode_settled (h.procs.of_same hst) ht (hp.same hst) omode
    · rw [wp_bind]
      refine wp_post (h.tidy.namei hcw path.bytes) ?_
      rintro r t ⟨ht, hst⟩
      cases r with
      | none => exact ⟨ht, h.procs.of_same hst⟩
      | some ip =>
        simp only [wp_bind, wp_get]
        refine wp_post (ht.ilock ip) ?_
        rintro _ u ⟨hu, hsu⟩
        have hprocs := (h.procs.of_same hst).of_same hsu
        split
        · exact giveUp hprocs hu (SameProcs.of_eq rfl)
        · exact openInode_settled hprocs hu ((hp.same hst).same hsu) omode

lemma sysCreate_settled (h : Settled pages s) (hp : Runs p s) (path : Option Path) (type : Ftype)
    (major minor : ℤ) :
    wp (sysCreate sb p path type major minor) (fun _ t => Settled pages t) (fun _ => True) s := by
  obtain ⟨-, hcw⟩ := h.cwd hp
  unfold sysCreate
  cases path with
  | none => exact h
  | some path =>
    simp only [wp_bind, cwd, wp_get, wp_pure]
    refine wp_post (h.tidy.create hcw path.bytes type major minor) ?_
    rintro r t ⟨ht, hst⟩
    cases r with
    | none => exact ⟨ht, h.procs.of_same hst⟩
    | some ip =>
      simp only [wp_bind, wp_pure]
      refine wp_post ht.iunlockput ?_
      rintro _ u ⟨hu, hsu⟩
      exact ⟨hu, (h.procs.of_same hst).of_same hsu⟩

lemma sys_link_settled (h : Settled pages s) (hp : Runs p s) (old new : Option Path) :
    wp (sys_link sb p old new) (fun _ t => Settled pages t) (fun _ => True) s := by
  obtain ⟨-, hcw⟩ := h.cwd hp
  unfold sys_link
  cases old with
  | none => exact h
  | some old =>
    cases new with
    | none => exact h
    | some new =>
      simp only [wp_bind, cwd, wp_get, wp_pure]
      refine wp_post (h.tidy.link hcw old.bytes new.bytes) ?_
      rintro _ t ⟨ht, hst⟩
      exact ⟨ht, h.procs.of_same hst⟩

lemma sys_unlink_settled (h : Settled pages s) (hp : Runs p s) (path : Option Path) :
    wp (sys_unlink sb p path) (fun _ t => Settled pages t) (fun _ => True) s := by
  obtain ⟨-, hcw⟩ := h.cwd hp
  unfold sys_unlink
  cases path with
  | none => exact h
  | some path =>
    simp only [wp_bind, cwd, wp_get, wp_pure]
    refine wp_post (h.tidy.unlink hcw path.bytes) ?_
    rintro _ t ⟨ht, hst⟩
    exact ⟨ht, h.procs.of_same hst⟩

lemma Tidy.setProc {x : Proc} (h : Tidy pages δ π s) (hp : p < NPROC)
    (hx : x.ofile = (s.procs p).ofile) {σ : ℕ → ℕ} {d : Disk} (hd : Held σ d)
    (hσ : ∀ j, σ j + cwdUse j (s.procs p) = uses s j + cwdUse j x) :
    Tidy pages δ 0 { s with disk := d, procs := Function.update s.procs p x } := by
  have hslots : ∀ g, procSlots g x = procSlots g (s.procs p) := fun g => by
    unfold procSlots
    rw [hx]
  refine ⟨(h.sound.disk d).setProc hp fun g => by rw [hslots], ?_⟩
  have hu : (fun j => uses { s with disk := d, procs := Function.update s.procs p x } j +
      (0 : ℕ → ℕ) j) = σ := by
    funext j
    have hset := uses_setProc (s := s) hp x j
    have heq : uses { s with disk := d, procs := Function.update s.procs p x } j =
      uses { s with procs := Function.update s.procs p x } j := rfl
    have := hσ j
    rw [heq, Pi.zero_apply]
    omega
  rw [hu]
  exact hd

lemma sys_chdir_settled (h : Settled pages s) (hp : Runs p s) (path : Option Path) :
    wp (sys_chdir sb p path) (fun _ t => Settled pages t) (fun _ => True) s := by
  obtain ⟨hcwd, hcw⟩ := h.cwd hp
  unfold sys_chdir
  cases path with
  | none => exact h
  | some path =>
    simp only [wp_bind, cwd, wp_get, wp_pure]
    generalize (s.procs p).cwd.getD 0 = cw at hcwd hcw ⊢
    refine wp_post (h.tidy.namei hcw path.bytes) ?_
    rintro r t ⟨ht, hst⟩
    cases r with
    | none => exact ⟨ht, h.procs.of_same hst⟩
    | some ip =>
      simp only [wp_bind, wp_get]
      refine wp_post (ht.ilock ip) ?_
      rintro _ u ⟨hu, hsu⟩
      have hprocs := (h.procs.of_same hst).of_same hsu
      have hpu := (hp.same hst).same hsu
      split
      · exact giveUp hprocs hu (SameProcs.of_eq rfl)
      rw [wp_bind]
      refine wp_post (hu.iunlock ip) ?_
      rintro _ v ⟨hv, hsv⟩
      have hprocs := hprocs.of_same hsv
      have hpv := hpu.same hsv
      have hcv : (v.procs p).cwd = some cw := by rw [hsv.1, hsu.1, hst.1, hcwd]
      rw [wp_bind, wp_fs]
      refine wp_post (iput_held hv.held (i := cw) ?_) ?_
      · have := uses_cwd hpv.1 hcv
        omega
      rintro _ d ⟨hd, -⟩
      simp only [wp_bind, Fs.setProc, wp_modify, wp_pure]
      refine ⟨?_, ⟨fun q hq => ?_, fun q hq => ?_⟩⟩
      · refine hv.setProc hpv.1 ?_ hd fun j => ?_
        · rfl
        have hpos := uses_cwd hpv.1 hcv
        simp only [cwdUse, hcv, Option.some.injEq, takeO]
        by_cases hj : j = cw
        · subst hj
          rw [drop_self, if_pos rfl]
          by_cases hji : j = ip
          · subst hji
            rw [take_self, if_pos rfl, Pi.zero_apply]
            omega
          · rw [take_ne _ hji, if_neg (Ne.symm hji), Pi.zero_apply]
            omega
        · rw [drop_ne _ hj, if_neg (Ne.symm hj)]
          by_cases hji : j = ip
          · subst hji
            rw [take_self, if_pos rfl, Pi.zero_apply]
          · rw [take_ne _ hji, if_neg (Ne.symm hji), Pi.zero_apply]
            omega
      · dsimp only at hq ⊢
        by_cases hqp : q = p
        · exact ⟨ip, by rw [hqp, Function.update_self]⟩
        · rw [Function.update_of_ne hqp] at hq ⊢
          exact hprocs.cwd q hq
      · dsimp only at hq ⊢
        by_cases hqp : q = p
        · rw [hqp, Function.update_self] at hq
          exact absurd hpv.2 hq
        · rw [Function.update_of_ne hqp] at hq ⊢
          exact hprocs.dead q hq

lemma sys_pipe_settled (h : Settled pages s) (hp : Runs p s) (ok : Bool) :
    wp (sys_pipe p ok) (fun _ t => Settled pages t) (fun _ => True) s := by
  -- both ends are closed again
  have hclose : ∀ u rf wf, Tidy pages (hand (some rf) + hand (some wf)) 0 u → SameProcs s u →
      wp (do
        fileclose rf
        fileclose wf
        pure (-1)) (fun (_ : ℤ) t => Settled pages t) (fun _ => True) u := by
    intro u rf wf hu hsu
    rw [wp_bind]
    refine wp_post (fileclose_spec hu) ?_
    rintro _ v ⟨hpv, hv⟩
    rw [wp_bind]
    refine wp_post (fileclose_spec hv) ?_
    rintro _ w ⟨hpw, hw⟩
    have hδ : hand (some rf) + hand (some wf) - hand (some rf) - hand (some wf) = 0 := by abel
    rw [hδ] at hw
    exact Settled.same h.procs hw (hsu.trans (SameProcs.of_eq (hpw.trans hpv)))
  unfold sys_pipe
  rw [wp_bind]
  refine wp_post (pipealloc_tidy h.tidy) ?_
  rintro r s1 ⟨hpr, hr⟩
  have hs1 : SameProcs s s1 := SameProcs.of_eq hpr
  cases r with
  | none => exact Settled.same h.procs hr hs1
  | some r =>
    obtain ⟨rf, wf⟩ := r
    dsimp only at hr
    rw [zero_add] at hr
    have ha1 : (s1.procs p).state = .alive := by rw [hpr]; exact hp.2
    simp only [wp_bind]
    refine wp_post (fdalloc_tidy hr hp.1 ha1) fun r s2 hr2 => ?_
    cases r with
    | none =>
      subst hr2
      exact hclose s2 rf wf hr hs1
    | some fd0 =>
      obtain ⟨hlt0, -, -, hs2, -, hof0, h2⟩ := hr2
      have hof0 : (s2.procs p).ofile fd0 = some rf := by rw [hof0, Function.update_self]
      have ha2 : (s2.procs p).state = .alive := by rw [(hs2 p).1]; exact ha1
      simp only [wp_bind]
      refine wp_post (fdalloc_tidy h2 hp.1 ha2) fun r s3 hr3 => ?_
      cases r with
      | none =>
        subst hr3
        dsimp only
        rw [wp_bind]
        refine wp_post (setOfile_tidy h2 hp.1 ha2 hlt0 hof0) ?_
        rintro _ u ⟨hsu, -, hset⟩
        have hδ : hand (some rf) + hand (some wf) - hand (some rf) + hand (some rf) - hand none =
            hand (some rf) + hand (some wf) := by
          simp only [hand]
          abel
        rw [hδ] at hset
        exact hclose u rf wf hset ((hs1.trans hs2).trans hsu)
      | some fd1 =>
        obtain ⟨hlt1, -, -, hs3, hz1, hof1, h3⟩ := hr3
        have h01 : fd1 ≠ fd0 := by
          rintro rfl
          rw [hof0] at hz1
          cases hz1
        have ha3 : (s3.procs p).state = .alive := by rw [(hs3 p).1]; exact ha2
        have hst := (hs1.trans hs2).trans hs3
        have hzero : hand (some rf) + hand (some wf) - hand (some rf) - hand (some wf) = 0 := by abel
        rw [hzero] at h3
        cases ok with
        | true => exact Settled.same h.procs h3 hst
        | false =>
          simp only [Bool.false_eq_true, if_false]
          rw [wp_bind]
          refine wp_post (setOfile_tidy h3 hp.1 ha3 hlt0 (o := some rf) ?_) ?_
          · rw [hof1, Function.update_of_ne h01.symm, hof0]
          rintro _ s4 ⟨hs4, hof4, h4⟩
          have ha4 : (s4.procs p).state = .alive := by rw [(hs4 p).1]; exact ha3
          rw [wp_bind]
          refine wp_post (setOfile_tidy h4 hp.1 ha4 hlt1 (o := some wf) ?_) ?_
          · rw [hof4, Function.update_of_ne h01, hof1, Function.update_self]
          rintro _ s5 ⟨hs5, -, h5⟩
          have hδ : (0 : ℕ → ℤ) + hand (some rf) - hand none + hand (some wf) - hand none =
              hand (some rf) + hand (some wf) := by
            simp only [hand]
            abel
          rw [hδ] at h5
          exact hclose s5 rf wf h5 ((hst.trans hs4).trans hs5)

lemma Sound.ref_pos {fd : ℕ} (h : Sound pages 0 s) (hp : p < NPROC) (hfd : fd < NOFILE)
    (hf : (s.procs p).ofile fd = some f) : 0 < (s.files f).ref := by
  have h1 := le_sum hp s.procs (procSlots f)
  have h2 := le_sum hfd (s.procs p).ofile fun o => if o = some f then 1 else 0
  rw [hf, if_pos rfl] at h2
  have h3 : 1 ≤ procSlots f (s.procs p) := h2
  have h4 : procSlots f (s.procs p) ≤ slots s f := h1
  have hfr := h.fref f
  rw [Pi.zero_apply] at hfr
  omega

lemma advance_tidy (h : Tidy pages δ π s) (hpos : 0 < (s.files f).ref) (r : ℤ) :
    wp (advance f r) (fun _ t => Tidy pages δ π t ∧ t.procs = s.procs ∧
      0 < (t.files f).ref) (fun _ => True) s := by
  unfold advance
  split
  · simp only [Fs.setFile, wp_modify]
    have hset := h.setFile (h.sound.lt f hpos)
      (x := { s.files f with off := ((s.files f).off + r.toNat) % 2 ^ 32 })
      (fun _ _ => rfl) (fun _ => rfl) fun hc => absurd hc (Nat.pos_iff_ne_zero.mp hpos)
    dsimp only at hset
    rw [sub_self, Pi.single_zero, add_zero] at hset
    refine ⟨hset, trivial, ?_⟩
    simp only [Function.update_self]
    exact hpos
  · exact ⟨h, rfl, hpos⟩

lemma sys_read_settled (h : Settled pages s) (hp : Runs p s) (fd : ℤ) (ok : ℕ → ℕ → Bool) (n : ℤ) :
    wp (sys_read sb p fd ok n) (fun _ t => Settled pages t) (fun _ => True) s := by
  unfold sys_read argfd
  simp only [wp_bind, wp_get]
  split
  · exact h
  rename_i hfd
  simp only [wp_pure]
  cases hf : (s.procs p).ofile fd.toNat with
  | none => exact h
  | some f =>
    have hpos := h.tidy.sound.ref_pos hp.1 (by omega) hf
    simp only [wp_bind, wp_get]
    split
    · exact h
    split
    · simp only [wp_bind]
      refine wp_post (h.tidy.ilock _) ?_
      rintro _ t ⟨ht, hst⟩
      refine wp_post (ht.calm (tab_readi _ _ _ _)) ?_
      rintro ⟨r, bs⟩ u ⟨hu, hsu⟩
      dsimp only
      refine wp_post (advance_tidy (f := f) hu ?_ r) ?_
      · rw [hsu.2, hst.2]
        exact hpos
      rintro _ v ⟨hv, hpv, -⟩
      refine wp_post (hv.iunlock _) ?_
      rintro _ w ⟨hw, hsw⟩
      refine Settled.same h.procs hw (SameProcs.of_eq ?_)
      rw [hsw.1, hpv, hsu.1, hst.1]
    · exact h

lemma filewriteLoop_tidy (src : ℕ → Option Byte) (n fuel i : ℕ) (h : Tidy pages δ π s)
    (hpos : 0 < (s.files f).ref) :
    wp (filewriteLoop sb f src n fuel i) (fun _ t => Tidy pages δ π t ∧ t.procs = s.procs)
      (fun _ => True) s := by
  induction fuel generalizing s i with
  | zero => trivial
  | succ fuel ih =>
    unfold filewriteLoop
    split
    · simp only [wp_bind, wp_get]
      refine wp_post (h.ilock _) ?_
      rintro _ t ⟨ht, hst⟩
      refine wp_post (ht.calm (tab_writei _ _ _ _)) ?_
      rintro r u ⟨hu, hsu⟩
      refine wp_post (advance_tidy (f := f) hu ?_ r) ?_
      · rw [hsu.2, hst.2]
        exact hpos
      rintro _ v ⟨hv, hpv, hposv⟩
      refine wp_post (hv.iunlock _) ?_
      rintro _ w ⟨hw, hsw⟩
      have hprocs : w.procs = s.procs := by rw [hsw.1, hpv, hsu.1, hst.1]
      split
      · exact ⟨hw, hprocs⟩
      · refine wp_post (ih _ hw (by rw [hsw.2]; exact hposv)) ?_
        rintro _ _ ⟨h1, h2⟩
        exact ⟨h1, h2.trans hprocs⟩
    · exact ⟨h, rfl⟩

lemma sys_write_settled (h : Settled pages s) (hp : Runs p s) (fd : ℤ) (src : ℕ → Option Byte)
    (n : ℤ) : wp (sys_write sb p fd src n) (fun _ t => Settled pages t) (fun _ => True) s := by
  unfold sys_write argfd
  simp only [wp_bind, wp_get]
  split
  · exact h
  rename_i hfd
  simp only [wp_pure]
  cases hf : (s.procs p).ofile fd.toNat with
  | none => exact h
  | some f =>
    have hpos := h.tidy.sound.ref_pos hp.1 (by omega) hf
    simp only [wp_bind, wp_get]
    split
    · exact h
    split
    · simp only [wp_bind, wp_pure]
      refine wp_post (filewriteLoop_tidy src _ _ 0 h.tidy hpos) ?_
      rintro _ t ⟨ht, hpr⟩
      exact Settled.same h.procs ht (SameProcs.of_eq hpr)
    · exact h

/-! ### Processes -/

lemma forkFiles_tidy {q : ℕ} {fds : List ℕ} (h : Tidy pages δ π s) (hq : q < NPROC)
    (hnone : ∀ fd ∈ fds, fd < NOFILE ∧ (s.procs q).ofile fd = none) (hnd : fds.Nodup) :
    wp (forkFiles p q fds) (fun _ t => Tidy pages δ π t ∧
      (∀ r, r ≠ q → t.procs r = s.procs r) ∧ (t.procs q).cwd = (s.procs q).cwd)
      (fun _ => True) s := by
  induction fds generalizing s with
  | nil => exact ⟨h, fun _ _ => rfl, rfl⟩
  | cons fd fds ih =>
    obtain ⟨hfd, hnd⟩ := List.nodup_cons.mp hnd
    obtain ⟨hlt, hz⟩ := hnone fd (List.mem_cons_self ..)
    have hrest : ∀ fd' ∈ fds, fd' < NOFILE ∧ (s.procs q).ofile fd' = none :=
      fun fd' hm => hnone fd' (List.mem_cons_of_mem fd hm)
    unfold forkFiles
    simp only [wp_bind, wp_get]
    cases (s.procs p).ofile fd with
    | none => exact ih h hrest hnd
    | some f =>
      simp only [wp_bind]
      refine wp_post (filedup_tidy h) ?_
      rintro g t ⟨rfl, hpr, ht⟩
      simp only [Fs.setOfile, Fs.setProc, wp_modify]
      have hset := ht.setOfile hq hlt (some g)
      have hδ : δ + hand (some g) + hand none - hand (some g) = δ := by
        simp [hand]
      rw [hpr, hz, hδ] at hset
      rw [hpr]
      refine wp_post (ih hset (fun fd' hm => ⟨(hrest fd' hm).1, ?_⟩) hnd) ?_
      · have hne : fd' ≠ fd := fun hc => hfd (hc ▸ hm)
        simp only [Function.update_self, Function.update_of_ne hne]
        exact (hrest fd' hm).2
      · rintro _ u ⟨hu, hother, hcwd⟩
        refine ⟨hu, fun r hr => ?_, ?_⟩
        · rw [hother r hr]
          exact Function.update_of_ne hr _ _
        · rw [hcwd]
          simp only [Function.update_self]

lemma fork_settled (h : Settled pages s) (hp : Runs p s) (ok : Bool) :
    wp (fork p ok) (fun _ t => Settled pages t) (fun _ => True) s := by
  obtain ⟨hcwd, hcw⟩ := h.cwd hp
  generalize (s.procs p).cwd.getD 0 = cw at hcwd hcw
  unfold fork
  simp only [wp_bind, wp_get]
  cases hfind : (List.range NPROC).find? fun q => decide ((s.procs q).state = .unused) with
  | none => exact h
  | some q =>
    have hq := List.mem_range.mp (List.mem_of_find?_eq_some hfind)
    have hun := List.find?_some hfind
    rw [decide_eq_true_eq] at hun
    have hdead := h.procs.dead q (by rw [hun]; decide)
    have hpq : p ≠ q := by
      rintro rfl
      rw [hp.2] at hun
      cases hun
    dsimp only
    split
    · exact h
    simp only [wp_bind, wp_get]
    refine wp_post (forkFiles_tidy h.tidy hq (fun fd hm => ?_) List.nodup_range) ?_
    · exact ⟨List.mem_range.mp hm, hdead.1 fd (List.mem_range.mp hm)⟩
    rintro _ t ⟨ht, hother, htq⟩
    have hcwt : (t.procs p).cwd = some cw := by rw [hother p hpq, hcwd]
    have hut := uses_cwd hp.1 hcwt
    rw [hcwt, Option.getD_some, wp_fs]
    refine wp_post (idup_held ht.held (i := cw) (by omega)) ?_
    rintro cw d ⟨rfl, hd, -, -⟩
    simp only [Fs.setProc, wp_modify, wp_pure]
    refine ⟨?_, ⟨fun r hr => ?_, fun r hr => ?_⟩⟩
    · refine ht.setProc hq ?_ hd fun j => ?_
      · rfl
      · simp only [cwdUse, htq, hdead.2, Option.some.injEq, reduceCtorEq, if_false]
        by_cases hj : j = cw
        · subst hj
          rw [take_self, if_pos rfl, Pi.zero_apply]
          omega
        · rw [take_ne _ hj, if_neg (Ne.symm hj), Pi.zero_apply]
          omega
    · dsimp only at hr ⊢
      by_cases hrq : r = q
      · exact ⟨cw, by rw [hrq, Function.update_self]⟩
      · rw [Function.update_of_ne hrq, hother r hrq] at hr ⊢
        exact h.procs.cwd r hr
    · dsimp only at hr ⊢
      by_cases hrq : r = q
      · rw [hrq, Function.update_self] at hr
        exact absurd rfl hr
      · rw [Function.update_of_ne hrq, hother r hrq] at hr ⊢
        exact h.procs.dead r hr

lemma exitFiles_tidy {fds : List ℕ} (h : Tidy pages δ π s) (hp : Runs p s)
    (hlt : ∀ fd ∈ fds, fd < NOFILE) :
    wp (exitFiles p fds) (fun _ t => Tidy pages δ π t ∧ SameProcs s t ∧
      ∀ fd, (s.procs p).ofile fd = none ∨ fd ∈ fds → (t.procs p).ofile fd = none)
      (fun _ => True) s := by
  induction fds generalizing s with
  | nil =>
    refine ⟨h, SameProcs.of_eq rfl, fun fd hfd => ?_⟩
    rcases hfd with hfd | hfd
    · exact hfd
    · cases hfd
  | cons fd fds ih =>
    have hrest : ∀ fd' ∈ fds, fd' < NOFILE := fun fd' hm => hlt fd' (List.mem_cons_of_mem fd hm)
    unfold exitFiles
    simp only [wp_bind, wp_get]
    cases hf : (s.procs p).ofile fd with
    | none =>
      refine wp_post (ih h hp hrest) ?_
      rintro _ t ⟨ht, hst, hnone⟩
      refine ⟨ht, hst, fun fd' hfd' => hnone fd' ?_⟩
      rcases hfd' with hfd' | hfd'
      · exact Or.inl hfd'
      · rcases List.mem_cons.mp hfd' with rfl | hfd'
        · exact Or.inl hf
        · exact Or.inr hfd'
    | some f =>
      simp only [wp_bind]
      refine wp_post (fileclose_spec h) ?_
      rintro _ t ⟨hpr, ht⟩
      have hpt : Runs p t := ⟨hp.1, by rw [hpr]; exact hp.2⟩
      refine wp_post (setOfile_tidy ht hp.1 hpt.2 (hlt fd (List.mem_cons_self ..))
        (o := some f) (by rw [hpr, hf])) ?_
      rintro _ u ⟨hsu, hof, hu⟩
      have hδ : δ - hand (some f) + hand (some f) - hand none = δ := by
        simp [hand]
      rw [hδ] at hu
      refine wp_post (ih hu ⟨hp.1, by rw [(hsu p).1]; exact hpt.2⟩ hrest) ?_
      rintro _ v ⟨hv, hsv, hnone⟩
      refine ⟨hv, ((SameProcs.of_eq hpr).trans hsu).trans hsv, fun fd' hfd' => hnone fd' ?_⟩
      by_cases hne : fd' = fd
      · exact Or.inl (by rw [hof, hne, Function.update_self])
      · rcases hfd' with hfd' | hfd'
        · exact Or.inl (by rw [hof, Function.update_of_ne hne, hpr, hfd'])
        · exact Or.inr ((List.mem_cons.mp hfd').resolve_left hne)

lemma exit_settled (h : Settled pages s) (hp : Runs p s) :
    wp (exit p) (fun _ t => Settled pages t) (fun _ => True) s := by
  obtain ⟨hcwd, hcw⟩ := h.cwd hp
  generalize (s.procs p).cwd.getD 0 = cw at hcwd hcw
  unfold exit
  split
  · trivial
  simp only [wp_bind, cwd, wp_get, wp_pure]
  refine wp_post (exitFiles_tidy h.tidy hp fun fd hm => List.mem_range.mp hm) ?_
  rintro _ t ⟨ht, hst, hnone⟩
  have hcwt : (t.procs p).cwd = some cw := by rw [(hst p).2.1, hcwd]
  have hut := uses_cwd hp.1 hcwt
  rw [hcwt, Option.getD_some, wp_fs]
  refine wp_post (iput_held ht.held (i := cw) (by omega)) ?_
  rintro _ d ⟨hd, -⟩
  simp only [Fs.setProc, wp_modify]
  have hprocs := h.procs.same hst
  refine ⟨?_, ⟨fun r hr => ?_, fun r hr => ?_⟩⟩
  · refine ht.setProc hp.1 ?_ hd fun j => ?_
    · rfl
    · simp only [cwdUse, hcwt, Option.some.injEq, reduceCtorEq, if_false]
      by_cases hj : j = cw
      · subst hj
        rw [drop_self, if_pos rfl, Pi.zero_apply]
        omega
      · rw [drop_ne _ hj, if_neg (Ne.symm hj), Pi.zero_apply]
        omega
  · dsimp only at hr ⊢
    by_cases hrp : r = p
    · rw [hrp, Function.update_self] at hr
      cases hr
    · rw [Function.update_of_ne hrp] at hr ⊢
      exact hprocs.cwd r hr
  · dsimp only at hr ⊢
    by_cases hrp : r = p
    · rw [hrp, Function.update_self]
      exact ⟨fun fd hfd => hnone fd (Or.inr (List.mem_range.mpr hfd)), rfl⟩
    · rw [Function.update_of_ne hrp] at hr ⊢
      exact hprocs.dead r hr

lemma reap_settled {q : ℕ} (h : Settled pages s) (hq : q < NPROC) :
    wp (reap q) (fun _ t => Settled pages t) (fun _ => True) s := by
  unfold reap
  simp only [wp_bind, wp_get]
  split
  · rename_i hz
    have hdead := h.procs.dead q (by rw [hz]; decide)
    simp only [wp_bind, Fs.setProc, wp_modify, wp_pure]
    refine ⟨?_, ⟨fun r hr => ?_, fun r hr => ?_⟩⟩
    · refine h.tidy.setProc hq ?_ h.tidy.held fun j => ?_
      · rfl
      · rw [Pi.zero_apply, Nat.add_zero]
        exact congrArg (uses s j + ·) (rfl : cwdUse j (s.procs q) =
          cwdUse j { s.procs q with state := .unused })
    · dsimp only at hr ⊢
      by_cases hrq : r = q
      · rw [hrq, Function.update_self] at hr
        cases hr
      · rw [Function.update_of_ne hrq] at hr ⊢
        exact h.procs.cwd r hr
    · dsimp only at hr ⊢
      by_cases hrq : r = q
      · rw [hrq, Function.update_self]
        exact hdead
      · rw [Function.update_of_ne hrq] at hr ⊢
        exact h.procs.dead r hr
  · exact h

/-! ### Pages of the rest of the kernel -/

lemma Settled.setPages (h : Settled pages s) {freelist taken : List ℕ} {temp : ℕ → ℤ}
    (hpage : ∀ pa, freelist.count pa + (if pa ∈ taken then 1 else 0) =
      s.freelist.count pa + if pa ∈ s.taken then 1 else 0)
    (htemp : ∀ pa, temp pa - taken.count pa = s.temp pa - s.taken.count pa) :
    Settled pages { s with freelist := freelist, taken := taken, temp := temp } := by
  refine ⟨⟨⟨h.tidy.sound.fref, h.tidy.sound.lt, h.tidy.sound.idle, h.tidy.sound.opn, fun pa => ?_,
    fun pa => ?_⟩, h.tidy.held⟩, h.procs.cwd, h.procs.dead⟩
  · have h1 := h.tidy.sound.page pa
    have h2 := hpage pa
    change freelist.count pa + (if pa ∈ taken then 1 else 0) + (if live s pa then 1 else 0) = _
    omega
  · have h1 := h.tidy.sound.temp pa
    have h2 := htemp pa
    change temp pa = taken.count pa + if live s pa then 1 else 0
    omega

lemma Sound.page_le (h : Sound pages δ s) (pa : ℕ) :
    s.freelist.count pa + (if pa ∈ s.taken then 1 else 0) + (if live s pa then 1 else 0) ≤ 1 := by
  rw [h.page pa]
  split_ifs
  · exact Nat.le_refl _
  · exact Nat.zero_le _

lemma take_settled (h : Settled pages s) :
    wp (step sb .take) (fun _ t => Settled pages t) (fun _ => True) s := by
  unfold step kalloc
  simp only [wp_bind, wp_get]
  cases hfree : s.freelist with
  | nil => exact h
  | cons pa rest =>
    have hle := h.tidy.sound.page_le pa
    rw [hfree, List.count_cons_self] at hle
    have hnt : pa ∉ s.taken := by
      intro hc
      rw [if_pos hc] at hle
      omega
    simp only [wp_bind, wp_set, check_and_increment, wp_get]
    split
    · trivial
    simp only [wp_set, wp_pure, wp_modify]
    refine h.setPages (fun qa => ?_) fun qa => ?_
    · rw [hfree, List.count_cons]
      by_cases hq : qa = pa
      · subst hq
        rw [if_pos (List.mem_cons_self ..), if_neg hnt]
        simp
      · have hmem : qa ∈ pa :: s.taken ↔ qa ∈ s.taken := by
          rw [List.mem_cons]
          exact or_iff_right hq
        simp only [hmem, beq_iff_eq, Ne.symm hq, if_false, Nat.add_zero]
    · rw [List.count_cons]
      by_cases hq : qa = pa
      · subst hq
        rw [Function.update_self]
        simp only [beq_self_eq_true, if_true]
        omega
      · rw [Function.update_of_ne hq]
        simp only [beq_iff_eq, Ne.symm hq, if_false, Nat.add_zero]

lemma share_settled (h : Settled pages s) (pa : ℕ) :
    wp (step sb (.share pa)) (fun _ t => Settled pages t) (fun _ => True) s := by
  unfold step
  simp only [wp_bind, wp_get]
  split
  · rename_i hin
    simp only [wp_bind, wp_set, check_and_increment, wp_get]
    split
    · trivial
    simp only [wp_set]
    refine h.setPages (fun qa => ?_) fun qa => ?_
    · have hmem : qa ∈ pa :: s.taken ↔ qa ∈ s.taken := by
        rw [List.mem_cons]
        exact or_iff_right_of_imp fun hc => hc ▸ hin
      simp only [hmem]
    · rw [List.count_cons]
      by_cases hq : qa = pa
      · subst hq
        rw [Function.update_self]
        simp only [beq_self_eq_true, if_true]
        omega
      · rw [Function.update_of_ne hq]
        simp only [beq_iff_eq, Ne.symm hq, if_false, Nat.add_zero]
  · exact h

lemma give_settled (h : Settled pages s) (pa : ℕ) :
    wp (step sb (.give pa)) (fun _ t => Settled pages t) (fun _ => True) s := by
  unfold step
  simp only [wp_bind, wp_get]
  split
  · rename_i hin
    have hle := h.tidy.sound.page_le pa
    have htemp := h.tidy.sound.temp pa
    have hpos : 0 < s.taken.count pa := List.count_pos_iff.mpr hin
    rw [if_pos hin] at hle
    have hnl : ¬live s pa := by
      intro hc
      rw [if_pos hc] at hle
      omega
    rw [if_neg hnl] at htemp hle
    have htemp' : ∀ qa, Function.update s.temp pa (s.temp pa - 1) qa -
        ((s.taken.erase pa).count qa : ℤ) = s.temp qa - s.taken.count qa := by
      intro qa
      by_cases hq : qa = pa
      · subst hq
        rw [Function.update_self, List.count_erase_self]
        omega
      · rw [Function.update_of_ne hq, List.count_erase_of_ne hq]
    simp only [wp_bind, wp_set, kfree, wp_get]
    split
    · rw [wp_bind, wp_set]
      split
      · rename_i hmore
        refine h.setPages (fun qa => ?_) htemp'
        -- another reference is left
        have hmem : qa ∈ s.taken.erase pa ↔ qa ∈ s.taken := by
          by_cases hq : qa = pa
          · subst hq
            rw [← List.count_pos_iff, List.count_erase_self]
            simp only [hin, iff_true]
            omega
          · exact List.mem_erase_of_ne hq
        simp only [hmem]
      · rename_i hlast
        simp only [wp_modify]
        refine h.setPages (fun qa => ?_) htemp'
        rw [List.count_cons]
        by_cases hq : qa = pa
        · subst hq
          have hnm : qa ∉ s.taken.erase qa := by
            rw [← List.count_pos_iff, List.count_erase_self]
            omega
          rw [if_neg hnm, if_pos hin]
          simp
        · have hmem : qa ∈ s.taken.erase pa ↔ qa ∈ s.taken := List.mem_erase_of_ne hq
          simp only [hmem, beq_iff_eq, Ne.symm hq, if_false, Nat.add_zero]
    · trivial
  · exact h

/-! ### Runs -/

lemma syscall_settled (h : Settled pages s) (hp : Runs p s) (c : Call) :
    wp (syscall sb p c) (fun _ t => Settled pages t) (fun _ => True) s := by
  cases c with
  | «open» path omode => exact sys_open_settled h hp path omode
  | mkdir path => exact sysCreate_settled h hp path _ _ _
  | mknod path major minor => exact sysCreate_settled h hp path _ _ _
  | link old new => exact sys_link_settled h hp old new
  | unlink path => exact sys_unlink_settled h hp path
  | chdir path => exact sys_chdir_settled h hp path
  | dup fd => exact sys_dup_settled h hp fd
  | close fd => exact sys_close_settled h hp fd
  | pipe ok => exact sys_pipe_settled h hp ok
  | read fd ok n => exact sys_read_settled h hp fd ok n
  | write fd src n => exact sys_write_settled h hp fd src n
  | fork ok => exact fork_settled h hp ok
  | exit => exact exit_settled h hp

lemma step_settled (h : Settled pages s) (a : Act) :
    wp (step sb a) (fun _ t => Settled pages t) (fun _ => True) s := by
  cases a with
  | call p c =>
    unfold step
    simp only [wp_bind, wp_get]
    split
    · rename_i hp
      simp only [wp_bind, wp_pure]
      exact syscall_settled h hp c
    · exact h
  | reap q =>
    simp only [step]
    split
    · rename_i hq
      simp only [wp_bind, wp_pure]
      exact reap_settled h hq
    · exact h
  | take => exact take_settled h
  | share pa => exact share_settled h pa
  | give pa => exact give_settled h pa

lemma run_settled (h : Settled pages s) (acts : List Act) :
    wp (run sb acts) (fun _ t => Settled pages t) (fun _ => True) s := by
  induction acts generalizing s with
  | nil => exact h
  | cons a acts ih =>
    unfold run
    rw [wp_bind]
    exact wp_post (step_settled h a) fun _ t ht => ih ht

lemma sum_update_const {α : Type} {n k : ℕ} (hk : k < n) {x y : α} (w : α → ℕ) (hx : w x = 0) :
    ∑ j ∈ Finset.range n, w (Function.update (fun _ => x) k y j) = w y := by
  have hset := sum_update hk (fun _ => x) y w
  simp only [hx, Finset.sum_const_zero] at hset
  omega

lemma boot_settled (bits : ℕ → Bool) (dinodes : ℕ → Dinode) (blocks : ℕ → Mem)
    (hp : pages.Nodup) : Settled pages (boot bits dinodes blocks pages) := by
  have hslots : ∀ f, slots (boot bits dinodes blocks pages) f = 0 := by
    intro f
    have hz : ∀ st cw, procSlots f ⟨st, fun _ => none, cw⟩ = 0 := fun st cw => by
      simp only [procSlots, reduceCtorEq, if_false, Finset.sum_const_zero]
    refine (sum_update_const (by decide) (procSlots f) (hz _ _)).trans (hz _ _)
  have hends : ∀ pa w, ends (boot bits dinodes blocks pages) pa w = 0 := fun pa w =>
    Finset.sum_eq_zero fun f _ => endUse_of_type (fun hc => by cases hc) pa w
  have hlive : ∀ pa, ¬live (boot bits dinodes blocks pages) pa := fun pa hc => by
    unfold live at hc
    rw [hends, hends] at hc
    exact absurd hc (Nat.lt_irrefl 0)
  have huses : ∀ i, uses (boot bits dinodes blocks pages) i = if i = 0 then 1 else 0 := by
    intro i
    have hfiles : ∑ f ∈ Finset.range NFILE,
        fileUse i ((boot bits dinodes blocks pages).files f) = 0 :=
      Finset.sum_eq_zero fun f _ =>
        fileUse_of_type (fun hc => by rcases hc with hc | hc <;> cases hc) i
    have hcwd : ∑ p ∈ Finset.range NPROC, cwdUse i ((boot bits dinodes blocks pages).procs p) =
        cwdUse i ⟨.alive, fun _ => none, some 0⟩ :=
      sum_update_const (by decide) (cwdUse i) rfl
    unfold uses
    rw [hfiles, hcwd, Nat.zero_add]
    simp only [cwdUse, Option.some.injEq, eq_comm]
  have hinode : ∀ i, (i = 0 → (boot bits dinodes blocks pages).disk.inodes i =
      ⟨ROOTDEV, ROOTINO, 1, false, Dinode.zero⟩) ∧
      (i ≠ 0 → ((boot bits dinodes blocks pages).disk.inodes i).ref = 0) := by
    intro i
    refine ⟨fun hi => ?_, fun hi => ?_⟩
    · rw [hi]
      simp only [boot, Function.update_self]
    · simp only [boot, Function.update_of_ne hi]
  refine ⟨⟨⟨fun f => ?_, fun f hf => ?_, fun f _ => rfl, fun pa w hpa => ?_, fun pa => ?_,
    fun pa => ?_⟩, fun i => ?_, fun i hi => ?_, fun i hi => ?_, fun i j hi hj _ => ?_⟩,
    fun p hpa => ?_, fun p hpa => ?_⟩
  · rw [hslots]
    rfl
  · exact absurd hf (Nat.lt_irrefl 0)
  · exact absurd hpa (hlive pa)
  · rw [if_neg (hlive pa)]
    change pages.count pa + (if pa ∈ [] then 1 else 0) + 0 = _
    simp only [List.not_mem_nil, if_false, Nat.add_zero]
    split_ifs with hin
    · exact List.count_eq_one_of_mem hp hin
    · exact List.count_eq_zero_of_not_mem hin
  · rw [if_neg (hlive pa)]
    rfl
  · simp only [huses, Pi.zero_apply, Nat.add_zero]
    split_ifs with hi
    · rw [(hinode i).1 hi]
    · exact (hinode i).2 hi
  · simp only [huses, Pi.zero_apply, Nat.add_zero] at hi
    split_ifs at hi with h0
    · rw [h0]
      decide
    · exact absurd hi (Nat.lt_irrefl 0)
  · simp only [huses, Pi.zero_apply, Nat.add_zero] at hi
    split_ifs at hi with h0
    · rw [(hinode i).1 h0]
    · exact absurd hi (Nat.lt_irrefl 0)
  · simp only [huses, Pi.zero_apply, Nat.add_zero] at hi hj
    split_ifs at hi hj with h0 h1
    · rw [h0, h1]
    · exact absurd hj (Nat.lt_irrefl 0)
    · exact absurd hi (Nat.lt_irrefl 0)
    · exact absurd hi (Nat.lt_irrefl 0)
  · by_cases hp0 : p = 0
    · exact ⟨0, by rw [hp0]; rfl⟩
    · simp only [boot, Function.update_of_ne hp0, reduceCtorEq] at hpa
  · by_cases hp0 : p = 0
    · rw [hp0] at hpa
      exact absurd rfl hpa
    · simp only [boot, Function.update_of_ne hp0, implies_true, and_self]

/-- Every count is the number of pointers, and a page is free, taken or the page of a pipe with an
open end: one of the three, and that once. -/
structure Exact (pages : List ℕ) (s : Sys) : Prop where
  files : ∀ f, (s.files f).ref = slots s f
  inodes : ∀ i, (s.disk.inodes i).ref = uses s i
  uniq : ∀ i j, 0 < (s.disk.inodes i).ref → 0 < (s.disk.inodes j).ref →
    (s.disk.inodes i).dev = (s.disk.inodes j).dev →
    (s.disk.inodes i).inum = (s.disk.inodes j).inum → i = j
  pages : ∀ pa, s.freelist.count pa + (if pa ∈ s.taken then 1 else 0) +
    (if live s pa then 1 else 0) = if pa ∈ pages then 1 else 0

/-- **References are exact**: after every completed run of calls, whatever is on the disk. -/
theorem references_exact {bits : ℕ → Bool} {dinodes : ℕ → Dinode} {blocks : ℕ → Mem}
    {acts : List Act} (hp : pages.Nodup)
    (h : run sb acts (boot bits dinodes blocks pages) = .ok ((), s)) : Exact pages s := by
  have hrun : wp (run sb acts) (fun _ t => Settled pages t) (fun _ => True)
      (boot bits dinodes blocks pages) := run_settled (boot_settled bits dinodes blocks hp) acts
  have hs := (wp_of_run h).mp hrun
  have hheld := hs.tidy.held
  simp only [Pi.zero_apply, Nat.add_zero] at hheld
  refine ⟨fun f => ?_, hheld.ref, fun i j hi hj _ he => ?_, hs.tidy.sound.page⟩
  · have := hs.tidy.sound.fref f
    rw [Pi.zero_apply] at this
    omega
  · rw [hheld.ref] at hi hj
    exact hheld.uniq i j hi hj he

/-- The run returns, and `q` holds where it ends. -/
def endsIn (q : Sys → Bool) : Except Panic (Unit × Sys) → Bool
  | .ok (_, s) => q s
  | .error _ => false

lemma exists_of_endsIn {q : Sys → Bool} {r : Except Panic (Unit × Sys)} (h : endsIn q r = true) :
    ∃ s, r = .ok ((), s) ∧ q s = true := by
  rcases r with e | ⟨⟨⟩, s⟩
  · cases h
  · exact ⟨s, rfl, h⟩

/-- A machine with two free pages and a disk that nothing is read of. -/
def bareBoot : Sys := boot (fun _ => false) (fun _ => Dinode.zero) (fun _ _ => 0) [7, 8]

def bareBlock : Superblock := ⟨0, 0, 0, 0, 0, 0, by decide⟩

/-- A pipe; a child; the parent closes both ends and the child the writing end. -/
def pipeToChild : List Act :=
  [.call 0 (.pipe true), .call 0 (.fork true), .call 0 (.close 0), .call 0 (.close 1),
    .call 1 (.close 1)]

/-- With the reading end open in the child alone, the page is still that of the pipe. -/
theorem pipe_alive_in_child : ∃ s, run bareBlock pipeToChild bareBoot = .ok ((), s) ∧
    Exact [7, 8] s ∧ live s 7 := by
  have hrun : endsIn (fun s => decide (live s 7)) (run bareBlock pipeToChild bareBoot) = true := by
    decide +kernel
  obtain ⟨s, hs, hl⟩ := exists_of_endsIn hrun
  exact ⟨s, hs, references_exact (by decide) hs, of_decide_eq_true hl⟩

end Xv6.Fs
