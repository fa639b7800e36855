import Xv6.BcacheInv

/-!
The buffer cache, the log and the disk as one block array: whatever processes read, change, log
and release, and however often the log commits, a block is read as it was last logged.

While a process commits no operation is under way, so that what it has copied to the log and
installed stays as it is; `Phase` says what that is at each statement of `commit`.
-/

namespace Xv6.Bio

open Log (Block Layout MAXOPBLOCKS LOGSIZE writeHeader Home)
open Dlist (Links Cycle)

variable {N P : ℕ} {D : LogDev} {s t : St N P} {p q : Fin P} {i : Fin N} {dev b : ℕ} {c : Pc}

/-! ### Where the commit is -/

/-- The buffers the process has or is about to have. -/
def grip (s : St N P) (p : Fin P) : List (Fin N) :=
  match s.call p with
  | some (.lock i _ _) | some (.fill i _ _) => i :: s.held p
  | _ => s.held p

/-- The first `n` blocks of the header are in the log. -/
def Copied (D : LogDev) (s : St N P) (n : ℕ) : Prop :=
  ∀ k < n, s.disk (D.start + k + 1) = s.mem (s.lh.getD k 0)

/-- The blocks of the buffers the statement works on. -/
def blocksAt (D : LogDev) (s : St N P) : Pc → List ℕ
  | .writeLog _ | .writeHead _ | .install _ | .finish => []
  | .readSrc t | .brelseLog t | .readDst t => [D.start + t + 1]
  | .copyLog t | .bwriteLog t | .brelseSrc t | .copyDst t | .bwriteDst t | .unpin t |
      .brelseLbuf t => [s.lh.getD t 0, D.start + t + 1]
  | .fillHead _ | .bwriteHead _ | .brelseHead _ => [D.start]
  | .brelseDst t => [s.lh.getD t 0]

/-- How far the commit is. -/
def progressAt (D : LogDev) (s : St N P) : Pc → Prop
  | .writeLog t => t ≤ s.lh.length ∧ Copied D s t ∧ s.installed = 0 ∧ s.unpinned = 0
  | .readSrc t | .copyLog t | .bwriteLog t =>
    t < s.lh.length ∧ Copied D s t ∧ s.installed = 0 ∧ s.unpinned = 0
  | .brelseSrc t | .brelseLog t =>
    t < s.lh.length ∧ Copied D s (t + 1) ∧ s.installed = 0 ∧ s.unpinned = 0
  | .writeHead erase | .fillHead erase | .bwriteHead erase | .brelseHead erase =>
    (if erase then s.lh = [] else Copied D s s.lh.length) ∧ s.installed = 0 ∧ s.unpinned = 0
  | .install t => t ≤ s.lh.length ∧ Copied D s s.lh.length ∧ s.installed = t ∧ s.unpinned = t
  | .readDst t | .copyDst t | .bwriteDst t =>
    t < s.lh.length ∧ Copied D s s.lh.length ∧ s.installed = t ∧ s.unpinned = t
  | .unpin t =>
    t < s.lh.length ∧ Copied D s s.lh.length ∧ s.installed = t + 1 ∧ s.unpinned = t
  | .brelseLbuf t | .brelseDst t =>
    t < s.lh.length ∧ Copied D s s.lh.length ∧ s.installed = t + 1 ∧ s.unpinned = t + 1
  | .finish => s.lh = [] ∧ s.installed = 0 ∧ s.unpinned = 0

/-- What has been changed and is not written yet. -/
def changedAt (D : LogDev) (s : St N P) (p : Fin P) : Pc → Prop
  | .bwriteLog t => s.call p = none ∧ ∃ src log, s.held p = [src, log] ∧ s.dirty = {log} ∧
      s.data log = s.mem (s.lh.getD t 0)
  | .bwriteHead _ => s.call p = none ∧ ∃ head, s.held p = [head] ∧ s.dirty = {head} ∧
      s.data head = writeHeader (s.disk D.start) s.lh
  | .bwriteDst t => s.call p = none ∧ ∃ dst lbuf, s.held p = [dst, lbuf] ∧ s.dirty = {dst} ∧
      s.data dst = s.mem (s.lh.getD t 0)
  | _ => s.dirty = ∅

structure Phase (D : LogDev) (s : St N P) (p : Fin P) (c : Pc) : Prop where
  blocks : (grip s p).map s.blockno = blocksAt D s c
  progress : progressAt D s c
  changed : changedAt D s p c

/-! ### Steps that leave the commit alone -/

/-- Nothing the commit of `p` depends on has changed. -/
structure Steady (s t : St N P) (p : Fin P) : Prop where
  lh : t.lh = s.lh
  disk : t.disk = s.disk
  mem : t.mem = s.mem
  dirty : t.dirty = s.dirty
  installed : t.installed = s.installed
  unpinned : t.unpinned = s.unpinned
  grip : grip t p = grip s p
  blockno : ∀ i ∈ Bio.grip s p, t.blockno i = s.blockno i
  call : s.call p = none → t.call p = none ∧ t.held p = s.held p ∧
    ∀ i ∈ s.held p, t.data i = s.data i

lemma blocksAt_congr (h : t.lh = s.lh) (c : Pc) : blocksAt D t c = blocksAt D s c := by
  cases c <;> simp [blocksAt, h]

lemma progressAt_congr (h1 : t.lh = s.lh) (h2 : t.disk = s.disk) (h3 : t.mem = s.mem)
    (h4 : t.installed = s.installed) (h5 : t.unpinned = s.unpinned) (c : Pc) :
    progressAt D t c ↔ progressAt D s c := by
  cases c <;> simp [progressAt, Copied, h1, h2, h3, h4, h5]

lemma Phase.steady (h : Phase D s p c) (hs : Steady s t p) : Phase D t p c := by
  refine ⟨?_, (progressAt_congr hs.lh hs.disk hs.mem hs.installed hs.unpinned c).mpr h.progress, ?_⟩
  · rw [blocksAt_congr hs.lh, ← h.blocks, hs.grip]
    exact List.map_congr_left hs.blockno
  · have hc := h.changed
    cases c with
    | bwriteLog n =>
      obtain ⟨hcall, src, log, hh, hd, hdata⟩ := hc
      obtain ⟨h1, h2, h3⟩ := hs.call hcall
      refine ⟨h1, src, log, h2.trans hh, hs.dirty.trans hd, ?_⟩
      rw [h3 log (by simp [hh]), hs.mem, hs.lh]
      exact hdata
    | bwriteHead e =>
      obtain ⟨hcall, head, hh, hd, hdata⟩ := hc
      obtain ⟨h1, h2, h3⟩ := hs.call hcall
      refine ⟨h1, head, h2.trans hh, hs.dirty.trans hd, ?_⟩
      rw [h3 head (by simp [hh]), hs.disk, hs.lh]
      exact hdata
    | bwriteDst n =>
      obtain ⟨hcall, dst, lbuf, hh, hd, hdata⟩ := hc
      obtain ⟨h1, h2, h3⟩ := hs.call hcall
      refine ⟨h1, dst, lbuf, h2.trans hh, hs.dirty.trans hd, ?_⟩
      rw [h3 dst (by simp [hh]), hs.mem, hs.lh]
      exact hdata
    | _ => exact hs.dirty.trans hc

lemma grip_eq_held (h : s.call p = none) : grip s p = s.held p := by
  unfold grip
  rw [h]

lemma refs_pos_of_grip (h : i ∈ grip s p) : 0 < refs s p i := by
  unfold grip at h
  split at h
  · rcases List.mem_cons.mp h with rfl | h
    · exact refs_pos_of_call (by simp_all [callRef])
    · exact refs_pos_of_held h
  · rcases List.mem_cons.mp h with rfl | h
    · exact refs_pos_of_call (by simp_all [callRef])
    · exact refs_pos_of_held h
  · exact refs_pos_of_held h

lemma grip_congr (h1 : t.call p = s.call p) (h2 : t.held p = s.held p) :
    grip t p = grip s p := by
  unfold grip
  rw [h1, h2]

lemma steady_bget (h : Inv D s) (hq : q ≠ p) : Steady s (bget s q dev b) p := by
  rcases h.bget_cases q dev b with ⟨i, -, -, he⟩ | ⟨i, -, hz, he⟩ | he
  · rw [he]
    have hc : Function.update s.call q (some (.lock i dev b)) p = s.call p :=
      Function.update_of_ne hq.symm _ _
    exact ⟨rfl, rfl, rfl, rfl, rfl, rfl, grip_congr hc rfl, fun _ _ => rfl,
      fun hn => ⟨hc.trans hn, rfl, fun _ _ => rfl⟩⟩
  · rw [he]
    have hc : Function.update s.call q (some (.lock i dev b)) p = s.call p :=
      Function.update_of_ne hq.symm _ _
    refine ⟨rfl, rfl, rfl, rfl, rfl, rfl, grip_congr hc rfl, fun j hj => ?_,
      fun hn => ⟨hc.trans hn, rfl, fun _ _ => rfl⟩⟩
    refine Function.update_of_ne ?_ _ _
    rintro rfl
    have := refs_pos_of_grip hj
    have := h.refs_eq_zero hz p
    omega
  · rw [he]
    exact ⟨rfl, rfl, rfl, rfl, rfl, rfl, rfl, fun _ _ => rfl, fun hn => ⟨hn, rfl, fun _ _ => rfl⟩⟩

lemma steady_acquiresleep (hcall : s.call q = some (.lock i dev b)) :
    Steady s (acquiresleep s q i dev b) p := by
  unfold acquiresleep
  split_ifs
  · refine ⟨rfl, rfl, rfl, rfl, rfl, rfl, ?_, fun _ _ => rfl, fun hn => ?_⟩
    · by_cases hq : p = q
      · subst hq
        simp [grip, hcall]
      · exact grip_congr (Function.update_of_ne hq _ _) rfl
    · have hq : p ≠ q := by
        rintro rfl
        rw [hcall] at hn
        cases hn
      exact ⟨(Function.update_of_ne hq _ _).trans hn, rfl, fun _ _ => rfl⟩
  · exact ⟨rfl, rfl, rfl, rfl, rfl, rfl, rfl, fun _ _ => rfl, fun hn => ⟨hn, rfl, fun _ _ => rfl⟩⟩

lemma steady_fill (h : Inv D s) (hcall : s.call q = some (.fill i dev b)) :
    Steady s (fill s q i) p := by
  refine ⟨rfl, rfl, rfl, rfl, rfl, rfl, ?_, fun _ _ => rfl, fun hn => ?_⟩
  · by_cases hq : p = q
    · subst hq
      simp [grip, hcall, fill]
    · exact grip_congr (Function.update_of_ne hq _ _) (Function.update_of_ne hq _ _)
  · have hq : p ≠ q := by
      rintro rfl
      rw [hcall] at hn
      cases hn
    refine ⟨(Function.update_of_ne hq _ _).trans hn, Function.update_of_ne hq _ _, fun j hj => ?_⟩
    have hji : j ≠ i := by
      rintro rfl
      have h1 := (h.locked j p).mpr (Or.inl hj)
      rw [(h.locked j q).mpr (Or.inr ⟨dev, b, hcall⟩)] at h1
      exact hq (Option.some.inj h1).symm
    simp only [fill]
    split_ifs
    · rfl
    · exact Function.update_of_ne hji _ _

lemma steady_drop (hcall : s.call q = some (.drop i)) : Steady s (drop s q i) p := by
  refine ⟨rfl, rfl, rfl, rfl, rfl, rfl, ?_, fun _ _ => rfl, fun hn => ?_⟩
  · by_cases hq : p = q
    · subst hq
      simp [grip, hcall, drop]
    · exact grip_congr (Function.update_of_ne hq _ _) rfl
  · have hq : p ≠ q := by
      rintro rfl
      rw [hcall] at hn
      cases hn
    exact ⟨(Function.update_of_ne hq _ _).trans hn, rfl, fun _ _ => rfl⟩

lemma steady_brelse (hq : q ≠ p) : Steady s (brelse s q i) p := by
  unfold brelse
  split_ifs
  · have hc : Function.update s.call q (some (.drop i)) p = s.call p :=
      Function.update_of_ne hq.symm _ _
    have hh : Function.update s.held q ((s.held q).erase i) p = s.held p :=
      Function.update_of_ne hq.symm _ _
    exact ⟨rfl, rfl, rfl, rfl, rfl, rfl, grip_congr hc hh, fun _ _ => rfl,
      fun hn => ⟨hc.trans hn, hh, fun _ _ => rfl⟩⟩
  · exact ⟨rfl, rfl, rfl, rfl, rfl, rfl, rfl, fun _ _ => rfl, fun hn => ⟨hn, rfl, fun _ _ => rfl⟩⟩

/-! ### The statements of commit -/

/-- The commit goes on in `t`, unless the kernel has panicked. -/
structure Next (D : LogDev) (s t : St N P) (p : Fin P) : Prop where
  inv : Inv D t
  phase : t.panicked = true ∨ ∃ c, t.job = Function.update s.job p (.commit c) ∧
    t.outstanding = s.outstanding ∧ t.committing = s.committing ∧ Phase D t p c

/-- A statement that reads a block. -/
lemma next_bget (h : Inv D s) (hcall : s.call p = none) (hd : s.dirty = ∅)
    (hb : blocksAt D s c = b :: (s.held p).map s.blockno) (hp : progressAt D s c)
    (hc : ∀ t : St N P, t.dirty = ∅ → changedAt D t p c) :
    Next D s (bget (goto s p c) p D.dev b) p := by
  have hg : Inv D (goto s p c) := h.goto c
  have hfree : ((goto s p c).job p).free = true → Home D.toLayout b := fun hf => by
    simp [goto, Job.free] at hf
  refine ⟨hg.bget hcall hfree, ?_⟩
  rcases hg.bget_cases p D.dev b with ⟨i, -, hbi, he⟩ | ⟨i, -, hz, he⟩ | he
  · rw [he]
    refine Or.inr ⟨c, rfl, rfl, rfl, ?_, hp, hc _ hd⟩
    refine Eq.trans ?_ ((blocksAt_congr (s := s) rfl c).trans hb).symm
    simp only [grip, Function.update_self, List.map_cons]
    exact congrArg₂ List.cons hbi rfl
  · rw [he]
    refine Or.inr ⟨c, rfl, rfl, rfl, ?_, hp, hc _ hd⟩
    refine Eq.trans ?_ ((blocksAt_congr (s := s) rfl c).trans hb).symm
    simp only [grip, Function.update_self, List.map_cons, List.cons.injEq, true_and]
    refine List.map_congr_left fun j hj => Function.update_of_ne ?_ _ _
    rintro rfl
    have h1 : 0 < refs (goto s p c) p j := refs_pos_of_held hj
    have h2 := hg.refs_eq_zero hz p
    omega
  · rw [he]
    exact Or.inl rfl

lemma next_brelse (h : Inv D s) (hcall : s.call p = none) (hd : s.dirty = ∅) (hi : i ∈ s.held p)
    (hb : blocksAt D s c = ((s.held p).erase i).map s.blockno) (hp : progressAt D s c)
    (hc : ∀ t : St N P, t.dirty = ∅ → changedAt D t p c) :
    Next D s (brelse (goto s p c) p i) p := by
  have hg : Inv D (goto s p c) := h.goto c
  refine ⟨hg.brelse hcall hi (by simp [goto, hd]), Or.inr ⟨c, ?_⟩⟩
  unfold brelse
  rw [if_pos (hg.lock_of_held hi)]
  refine ⟨rfl, rfl, rfl, ?_, hp, hc _ hd⟩
  refine Eq.trans ?_ ((blocksAt_congr (s := s) rfl c).trans hb).symm
  simp [grip, goto]

lemma next_modify (h : Inv D s) (hcall : s.call p = none) (hi : i ∈ s.held p)
    (hb : blocksAt D s c = (s.held p).map s.blockno) (hp : progressAt D s c) {d : Block}
    (hc : changedAt D (modify s i d) p c) :
    Next D s (modify (goto s p c) i d) p := by
  have hg : Inv D (goto s p c) := h.goto c
  refine ⟨hg.modify (p := p) hi (by simp [goto]) d, Or.inr ⟨c, rfl, rfl, rfl, ?_, hp, ?_⟩⟩
  · rw [grip_eq_held (by exact hcall)]
    exact hb.symm
  · cases c <;> exact hc

lemma bwrite_eq (h : Inv D s) (hi : i ∈ s.held p) : bwrite (goto s p c) p i =
    { goto s p c with
      disk := Function.update s.disk (s.blockno i) (s.data i)
      dirty := s.dirty.erase i } := by
  have hg : Inv D (goto s p c) := h.goto c
  unfold bwrite
  rw [if_pos (hg.lock_of_held hi)]
  rfl

lemma Inv.log_not_home (h : Inv D s) {k : ℕ} (hk : k < s.lh.length) :
    ¬Home D.toLayout (D.start + k + 1) := by
  intro hh
  have := h.fits
  exact hh.ne_log (show k + 1 < D.size by omega) rfl

lemma Inv.getD_home (h : Inv D s) {k : ℕ} (hk : k < s.lh.length) :
    Home D.toLayout (s.lh.getD k 0) := by
  rw [List.getD_eq_getElem _ _ hk]
  exact h.lhHome _ (List.getElem_mem hk)

lemma Inv.data_mem (h : Inv D s) (hi : i ∈ s.held p) (hd : s.dirty = ∅)
    (hh : Home D.toLayout (s.blockno i)) : s.data i = s.mem (s.blockno i) := by
  have hdata := h.data i (h.used p i (refs_pos_of_held hi)) (h.valid p i hi) (by simp [hd])
  rwa [content, if_pos hh] at hdata

lemma Inv.data_disk (h : Inv D s) (hi : i ∈ s.held p) (hd : s.dirty = ∅)
    (hh : ¬Home D.toLayout (s.blockno i)) : s.data i = s.disk (s.blockno i) := by
  have hdata := h.data i (h.used p i (refs_pos_of_held hi)) (h.valid p i hi) (by simp [hd])
  rwa [content, if_neg hh] at hdata

lemma Phase.two (h : Phase D s p c) (hcall : s.call p = none) {x y : ℕ}
    (hb : blocksAt D s c = [x, y]) :
    ∃ i j, s.held p = [i, j] ∧ s.blockno i = x ∧ s.blockno j = y := by
  have hm := h.blocks
  rw [grip_eq_held hcall, hb] at hm
  obtain ⟨i, l, hl, hx, hm⟩ := List.map_eq_cons_iff.mp hm
  obtain ⟨j, l', rfl, hy, hm⟩ := List.map_eq_cons_iff.mp hm
  rw [List.map_eq_nil_iff.mp hm] at hl
  exact ⟨i, j, hl, hx, hy⟩

lemma Phase.one (h : Phase D s p c) (hcall : s.call p = none) {x : ℕ}
    (hb : blocksAt D s c = [x]) : ∃ i, s.held p = [i] ∧ s.blockno i = x := by
  have hm := h.blocks
  rw [grip_eq_held hcall, hb] at hm
  obtain ⟨i, l, hl, hx, hm⟩ := List.map_eq_cons_iff.mp hm
  rw [List.map_eq_nil_iff.mp hm] at hl
  exact ⟨i, hl, hx⟩

lemma Phase.none (h : Phase D s p c) (hcall : s.call p = none) (hb : blocksAt D s c = []) :
    s.held p = [] := by
  have hm := h.blocks
  rw [grip_eq_held hcall, hb] at hm
  exact List.map_eq_nil_iff.mp hm

lemma next_copyLog {n : ℕ} (h : Inv D s) (hcall : s.call p = none)
    (hph : Phase D s p (.copyLog n)) : Next D s (commit D s p (.copyLog n)) p := by
  obtain ⟨src, log, hh, hsrc, hlog⟩ := hph.two hcall rfl
  obtain ⟨hn, hcop, hinst⟩ := hph.progress
  simp only [commit, hh]
  refine next_modify (c := .bwriteLog n) (i := log) h hcall (by simp [hh])
    (by simp [blocksAt, hh, hsrc, hlog]) ⟨hn, hcop, hinst⟩
    ⟨hcall, src, log, hh, by simp [modify, show s.dirty = ∅ from hph.changed], ?_⟩
  simp only [modify, Function.update_self]
  rw [← hsrc]
  exact h.data_mem (p := p) (by simp [hh]) hph.changed (hsrc ▸ h.getD_home hn)

lemma next_bwriteLog {n : ℕ} (h : Inv D s) (hcall : s.call p = none)
    (hph : Phase D s p (.bwriteLog n)) : Next D s (commit D s p (.bwriteLog n)) p := by
  obtain ⟨-, src, log, hh, hd, hdata⟩ := hph.changed
  obtain ⟨hn, hcop, hinst⟩ := hph.progress
  have hb := hph.blocks
  rw [grip_eq_held hcall, hh] at hb
  simp only [List.map_cons, List.map_nil, blocksAt, List.cons.injEq, and_true] at hb
  have hlog : log ∈ s.held p := by simp [hh]
  have hnot : ¬Home D.toLayout (s.blockno log) := hb.2 ▸ h.log_not_home hn
  simp only [commit, hh]
  refine ⟨(h.goto _).bwrite hlog fun hhome => absurd hhome hnot, Or.inr ⟨.brelseSrc n, ?_⟩⟩
  rw [bwrite_eq h hlog]
  refine ⟨rfl, rfl, rfl, ?_, ⟨hn, ?_, hinst⟩, by simp [changedAt, hd]⟩
  · rw [grip_eq_held (by exact hcall)]
    simp [goto, hh, blocksAt, hb]
  · intro k hk
    simp only [hb.2]
    rcases Nat.lt_succ_iff_lt_or_eq.mp hk with hlt | rfl
    · rw [Function.update_of_ne (by omega)]
      exact hcop k hlt
    · rw [Function.update_self]
      exact hdata

lemma next_bwriteHead {e : Bool} (h : Inv D s) (hcall : s.call p = none)
    (hph : Phase D s p (.bwriteHead e)) : Next D s (commit D s p (.bwriteHead e)) p := by
  obtain ⟨-, head, hh, hd, -⟩ := hph.changed
  obtain ⟨hafter, hinst⟩ := hph.progress
  have hb := hph.blocks
  rw [grip_eq_held hcall, hh] at hb
  simp only [List.map_cons, List.map_nil, blocksAt, List.cons.injEq, and_true] at hb
  have hhead : head ∈ s.held p := by simp [hh]
  simp only [commit, hh]
  refine ⟨(h.goto _).bwrite hhead fun hhome => absurd hb hhome.2.1, Or.inr ⟨.brelseHead e, ?_⟩⟩
  rw [bwrite_eq h hhead]
  refine ⟨rfl, rfl, rfl, ?_, ⟨?_, hinst⟩, by simp [changedAt, hd]⟩
  · rw [grip_eq_held (by exact hcall)]
    simp [goto, hh, blocksAt, hb]
  · cases e with
    | true => exact hafter
    | false =>
      have hcop : Copied D s s.lh.length := hafter
      rw [if_neg (by simp)]
      intro k hk
      simp only [hb]
      rw [Function.update_of_ne (by omega)]
      exact hcop k hk

lemma next_copyDst {n : ℕ} (h : Inv D s) (hcall : s.call p = none)
    (hph : Phase D s p (.copyDst n)) : Next D s (commit D s p (.copyDst n)) p := by
  obtain ⟨dst, lbuf, hh, hdst, hlbuf⟩ := hph.two hcall rfl
  obtain ⟨hn, hcop, hinst⟩ := hph.progress
  simp only [commit, hh]
  refine next_modify (c := .bwriteDst n) (i := dst) h hcall (by simp [hh])
    (by simp [blocksAt, hh, hdst, hlbuf]) ⟨hn, hcop, hinst⟩
    ⟨hcall, dst, lbuf, hh, by simp [modify, show s.dirty = ∅ from hph.changed], ?_⟩
  simp only [modify, Function.update_self]
  rw [h.data_disk (p := p) (by simp [hh]) hph.changed (hlbuf ▸ h.log_not_home hn), hlbuf]
  exact hcop n hn

lemma next_bwriteDst {n : ℕ} (h : Inv D s) (hcall : s.call p = none)
    (hph : Phase D s p (.bwriteDst n)) : Next D s (commit D s p (.bwriteDst n)) p := by
  obtain ⟨-, dst, lbuf, hh, hd, hdata⟩ := hph.changed
  obtain ⟨hn, hcop, hinst⟩ := hph.progress
  have hb := hph.blocks
  rw [grip_eq_held hcall, hh] at hb
  simp only [List.map_cons, List.map_nil, blocksAt, List.cons.injEq, and_true] at hb
  have hdst : dst ∈ s.held p := by simp [hh]
  have hhome := h.getD_home hn
  have hw := (h.goto (p := p) (.unpin n)).bwrite hdst fun _ => hb.1 ▸ hdata
  simp only [commit, hh]
  rw [bwrite_eq h hdst] at hw ⊢
  refine ⟨hw.setInstalled hinst.1 hn ?_, Or.inr ⟨.unpin n, rfl, rfl, rfl, ?_, ⟨hn, ?_, rfl,
    hinst.2⟩, by simp [changedAt, hd]⟩⟩
  · simp only [hb.1]
    exact (Function.update_self _ _ _).trans hdata
  · rw [grip_eq_held (by exact hcall)]
    simp [goto, hh, blocksAt, hb]
  · intro k hk
    simp only [hb.1]
    have hk' : k < s.lh.length := hk
    have hne : D.start + k + 1 ≠ s.lh.getD n 0 := fun he => h.log_not_home hk' (he ▸ hhome)
    rw [Function.update_of_ne hne]
    exact hcop k hk'

lemma next_unpin {n : ℕ} (h : Inv D s) (hcall : s.call p = none)
    (hph : Phase D s p (.unpin n)) : Next D s (commit D s p (.unpin n)) p := by
  obtain ⟨dst, lbuf, hh, hdst, hlbuf⟩ := hph.two hcall rfl
  obtain ⟨hn, hcop, hinst⟩ := hph.progress
  simp only [commit, hh]
  refine ⟨(h.goto (.brelseLbuf n)).bunpin (p := p) (by simp [goto, hh]) hinst.2 hinst.1 hn hdst,
    Or.inr ⟨.brelseLbuf n, rfl, rfl, rfl, ?_, ⟨hn, hcop, hinst.1, rfl⟩, hph.changed⟩⟩
  rw [grip_eq_held (by exact hcall)]
  simp [bunpin, goto, hh, blocksAt, hdst, hlbuf]

/-- Every statement of `commit` but the last leads to another one. -/
lemma next_commit (h : Inv D s) (hcall : s.call p = none) (hph : Phase D s p c)
    (hc : c ≠ .finish) : Next D s (commit D s p c) p := by
  cases c with
  | writeLog n =>
    have hh := hph.none hcall rfl
    obtain ⟨hn, hcop, hinst⟩ := hph.progress
    simp only [commit]
    split_ifs with hlt
    · exact next_bget h hcall hph.changed (by simp [blocksAt, hh]) ⟨hlt, hcop, hinst⟩
        fun _ hd => hd
    · obtain rfl : n = s.lh.length := by omega
      refine ⟨h.goto _, Or.inr ⟨.writeHead false, rfl, rfl, rfl, ?_, ⟨hcop, hinst⟩, hph.changed⟩⟩
      rw [grip_eq_held (by exact hcall)]
      simp [goto, hh, blocksAt]
  | readSrc n =>
    obtain ⟨log, hh, hlog⟩ := hph.one hcall rfl
    exact next_bget h hcall hph.changed (by simp [blocksAt, hh, hlog]) hph.progress fun _ hd => hd
  | copyLog n => exact next_copyLog h hcall hph
  | bwriteLog n => exact next_bwriteLog h hcall hph
  | brelseSrc n =>
    obtain ⟨src, log, hh, hsrc, hlog⟩ := hph.two hcall rfl
    simp only [commit, hh]
    exact next_brelse h hcall hph.changed (by simp [hh]) (by simp [blocksAt, hh, hlog])
      hph.progress fun _ hd => hd
  | brelseLog n =>
    obtain ⟨log, hh, hlog⟩ := hph.one hcall rfl
    simp only [commit, hh]
    exact next_brelse h hcall hph.changed (by simp [hh]) (by simp [blocksAt, hh])
      hph.progress fun _ hd => hd
  | writeHead e =>
    have hh := hph.none hcall rfl
    exact next_bget h hcall hph.changed (by simp [blocksAt, hh]) hph.progress fun _ hd => hd
  | fillHead e =>
    obtain ⟨head, hh, hb⟩ := hph.one hcall rfl
    simp only [commit, hh]
    refine next_modify (c := .bwriteHead e) (i := head) h hcall (by simp [hh])
      (by simp [blocksAt, hh, hb]) hph.progress
      ⟨hcall, head, hh, by simp [modify, show s.dirty = ∅ from hph.changed], ?_⟩
    simp only [modify, Function.update_self]
    rw [h.data_disk (p := p) (by simp [hh]) hph.changed fun hhome => hhome.2.1 hb, hb]
  | bwriteHead e => exact next_bwriteHead h hcall hph
  | brelseHead e =>
    obtain ⟨head, hh, hb⟩ := hph.one hcall rfl
    obtain ⟨hafter, hinst⟩ := hph.progress
    simp only [commit, hh]
    cases e with
    | true =>
      exact next_brelse h hcall hph.changed (by simp [hh]) (by simp [blocksAt, hh])
        ⟨hafter, hinst⟩ fun _ hd => hd
    | false =>
      exact next_brelse h hcall hph.changed (by simp [hh]) (by simp [blocksAt, hh])
        ⟨Nat.zero_le _, hafter, hinst⟩ fun _ hd => hd
  | install n =>
    have hh := hph.none hcall rfl
    obtain ⟨hn, hcop, hinst⟩ := hph.progress
    simp only [commit]
    split_ifs with hlt
    · exact next_bget h hcall hph.changed (by simp [blocksAt, hh]) ⟨hlt, hcop, hinst⟩
        fun _ hd => hd
    · obtain rfl : n = s.lh.length := by omega
      refine ⟨(h.goto _).clear hinst.1 hinst.2, Or.inr ⟨.writeHead true, rfl, rfl, rfl, ?_,
        ⟨rfl, rfl, rfl⟩, hph.changed⟩⟩
      rw [grip_eq_held (by exact hcall)]
      simp [goto, hh, blocksAt]
  | readDst n =>
    obtain ⟨lbuf, hh, hlbuf⟩ := hph.one hcall rfl
    exact next_bget h hcall hph.changed (by simp [blocksAt, hh, hlbuf]) hph.progress fun _ hd => hd
  | copyDst n => exact next_copyDst h hcall hph
  | bwriteDst n => exact next_bwriteDst h hcall hph
  | unpin n => exact next_unpin h hcall hph
  | brelseLbuf n =>
    obtain ⟨dst, lbuf, hh, hdst, hlbuf⟩ := hph.two hcall rfl
    have hne : dst ≠ lbuf := by
      have := h.nodup p
      rw [hh] at this
      simpa using this
    simp only [commit, hh]
    exact next_brelse h hcall hph.changed (by simp [hh])
      (by simp [blocksAt, hh, hdst, hne]) hph.progress fun _ hd => hd
  | brelseDst n =>
    obtain ⟨dst, hh, hdst⟩ := hph.one hcall rfl
    simp only [commit, hh]
    exact next_brelse h hcall hph.changed (by simp [hh]) (by simp [blocksAt, hh])
      hph.progress fun _ hd => hd
  | finish => exact absurd rfl hc

/-! ### Operations and commits exclude each other -/

/-- `outstanding` counts the operations; at most one process commits, and then there are none. -/
structure Gate (s : St N P) : Prop where
  count : s.outstanding = (Finset.univ.filter fun p => s.job p = .op).card
  committing : s.committing = true ↔ ∃ p c, s.job p = .commit c
  only : ∀ p q c d, s.job p = .commit c → s.job q = .commit d → p = q
  idle : s.committing = true → s.outstanding = 0

lemma Gate.not_committing (h : Gate s) (hp : s.job p = .op) : s.committing = false := by
  by_contra hc
  have hz := h.idle (by simpa using hc)
  rw [h.count, Finset.card_eq_zero] at hz
  have hm : p ∈ Finset.univ.filter fun p => s.job p = .op := by simp [hp]
  rw [hz] at hm
  simp at hm

lemma Gate.no_commit (h : Gate s) (hc : s.committing = false) : s.job p ≠ .commit c := by
  intro hj
  have := h.committing.mpr ⟨p, c, hj⟩
  rw [hc] at this
  cases this

lemma Gate.congr (h : Gate s) (h1 : t.job = s.job) (h2 : t.outstanding = s.outstanding)
    (h3 : t.committing = s.committing) : Gate t := by
  refine ⟨?_, ?_, ?_, ?_⟩
  · rw [h1, h2]
    exact h.count
  · rw [h1, h3]
    exact h.committing
  · rw [h1]
    exact h.only
  · rw [h2, h3]
    exact h.idle

lemma card_op_update (s : St N P) (p : Fin P) (x : Job) :
    (Finset.univ.filter fun q => Function.update s.job p x q = .op).card +
      (if s.job p = .op then 1 else 0) =
    (Finset.univ.filter fun q => s.job q = .op).card + (if x = .op then 1 else 0) := by
  have hsplit : ∀ f : Fin P → Job, (Finset.univ.filter fun q => f q = .op).card =
      (∑ q ∈ Finset.univ.erase p, if f q = .op then 1 else 0) + if f p = .op then 1 else 0 := by
    intro f
    rw [Finset.card_filter, ← Finset.add_sum_erase _ _ (Finset.mem_univ p), Nat.add_comm]
  have hrest : (∑ q ∈ Finset.univ.erase p, if Function.update s.job p x q = .op then 1 else 0) =
      ∑ q ∈ Finset.univ.erase p, if s.job q = .op then 1 else 0 :=
    Finset.sum_congr rfl fun q hq => by rw [Function.update_of_ne (Finset.ne_of_mem_erase hq)]
  rw [hsplit, hsplit s.job, hrest, Function.update_self]
  omega

lemma Gate.goes_on (h : Gate s) (hp : s.job p = .commit c) {d : Pc}
    (h1 : t.job = Function.update s.job p (.commit d)) (h2 : t.outstanding = s.outstanding)
    (h3 : t.committing = s.committing) : Gate t := by
  have hcard := card_op_update s p (.commit d)
  simp only [hp, reduceCtorEq, if_false, Nat.add_zero] at hcard
  have hiff : ∀ q, (∃ e, t.job q = .commit e) ↔ ∃ e, s.job q = .commit e := by
    intro q
    by_cases hq : q = p
    · subst hq
      simp [h1, hp]
    · rw [h1, Function.update_of_ne hq]
  refine ⟨?_, ?_, fun q r e f hq hr => ?_, ?_⟩
  · rw [h1, h2, hcard]
    exact h.count
  · rw [h3, h.committing]
    exact exists_congr fun q => (hiff q).symm
  · obtain ⟨e', hq⟩ := (hiff q).mp ⟨e, hq⟩
    obtain ⟨f', hr⟩ := (hiff r).mp ⟨f, hr⟩
    exact h.only q r e' f' hq hr
  · rw [h2, h3]
    exact h.idle

/-! ### Every step -/

structure Good (D : LogDev) (s : St N P) : Prop where
  inv : Inv D s
  gate : s.panicked = false → Gate s
  phase : s.panicked = false → ∀ p c, s.job p = .commit c → Phase D s p c
  rest : s.panicked = false → s.committing = false → s.installed = 0 ∧ s.unpinned = 0

lemma Good.call (h : Good D s) (hs : s.panicked = false) (hi : Inv D t) (h1 : t.job = s.job)
    (h2 : t.outstanding = s.outstanding) (h3 : t.committing = s.committing)
    (hst : ∀ p c, s.job p = .commit c → Steady s t p)
    (hrest : t.installed = s.installed ∧ t.unpinned = s.unpinned) : Good D t := by
  refine ⟨hi, fun _ => (h.gate hs).congr h1 h2 h3, fun _ p c hp => ?_, fun _ hc => ?_⟩
  · rw [h1] at hp
    exact (h.phase hs p c hp).steady (hst p c hp)
  · rw [hrest.1, hrest.2]
    exact h.rest hs (h3 ▸ hc)

lemma bget_frame (s : St N P) (p : Fin P) (dev b : ℕ) :
    (bget s p dev b).job = s.job ∧ (bget s p dev b).outstanding = s.outstanding ∧
      (bget s p dev b).committing = s.committing ∧ (bget s p dev b).installed = s.installed ∧
      (bget s p dev b).unpinned = s.unpinned := by
  unfold bget
  split
  · exact ⟨rfl, rfl, rfl, rfl, rfl⟩
  · split
    · exact ⟨rfl, rfl, rfl, rfl, rfl⟩
    · exact ⟨rfl, rfl, rfl, rfl, rfl⟩

lemma ne_of_free (hq : (s.job q).free = true) (hp : s.job p = .commit c) : q ≠ p := by
  rintro rfl
  rw [hp] at hq
  cases hq

lemma Good.bread (h : Good D s) (hs : s.panicked = false) (hcall : s.call q = none)
    (hf : (s.job q).free = true) (hb : Home D.toLayout b) : Good D (bget s q D.dev b) := by
  obtain ⟨h1, h2, h3, h4, h5⟩ := bget_frame s q D.dev b
  exact h.call hs (h.inv.bget hcall fun _ => hb) h1 h2 h3
    (fun p c hp => steady_bget h.inv (ne_of_free hf hp)) ⟨h4, h5⟩

lemma Good.brelse (h : Good D s) (hs : s.panicked = false) (hcall : s.call q = none)
    (hf : (s.job q).free = true) (hi : i ∈ s.held q) (hd : i ∉ s.dirty) :
    Good D (brelse s q i) := by
  have hinv := h.inv.brelse hcall hi hd
  have hst : ∀ p c, s.job p = .commit c → Steady s (Bio.brelse s q i) p :=
    fun p c hp => steady_brelse (ne_of_free hf hp)
  unfold Bio.brelse at hinv hst ⊢
  rw [if_pos (h.inv.lock_of_held hi)] at hinv hst ⊢
  exact h.call hs hinv rfl rfl rfl hst ⟨rfl, rfl⟩

lemma Good.modify (h : Good D s) (hs : s.panicked = false) (hq : s.job q = .op)
    (hi : i ∈ s.held q) (d : Block) : Good D (modify s i d) := by
  have hg := h.gate hs
  have hnc := hg.not_committing hq
  refine ⟨h.inv.modify hi (by simp [hq]) d, fun _ => hg.congr rfl rfl rfl, fun _ p c hp => ?_,
    fun _ _ => h.rest hs hnc⟩
  exact absurd hp (hg.no_commit hnc)

lemma Good.log_write (h : Good D s) (hs : s.panicked = false) (hq : s.job q = .op)
    (hi : i ∈ s.held q) : Good D (log_write D s i) := by
  have hg := h.gate hs
  have hnc := hg.not_committing hq
  obtain ⟨h1, h2⟩ := h.rest hs hnc
  have hinv := h.inv.log_write hi hq h1 h2
  have hframe : (Bio.log_write D s i).job = s.job ∧
      (Bio.log_write D s i).outstanding = s.outstanding ∧
      (Bio.log_write D s i).committing = s.committing ∧
      (Bio.log_write D s i).installed = s.installed ∧
      (Bio.log_write D s i).unpinned = s.unpinned := by
    unfold Bio.log_write
    dsimp only
    split_ifs <;> exact ⟨rfl, rfl, rfl, rfl, rfl⟩
  obtain ⟨f1, f2, f3, f4, f5⟩ := hframe
  refine ⟨hinv, fun _ => hg.congr f1 f2 f3, fun _ p c hp => ?_, fun _ _ => ?_⟩
  · rw [f1] at hp
    exact absurd hp (hg.no_commit hnc)
  · rw [f4, f5]
    exact ⟨h1, h2⟩

lemma Inv.setGate (h : Inv D s) (n : ℕ) (c : Bool) :
    Inv D { s with outstanding := n, committing := c } :=
  ⟨h.cycle, h.devs, h.unique, h.count, h.used, h.locked, h.nodup, h.once, h.asked, h.home, h.valid,
    h.dirty, h.data, h.disk, h.pinned, h.lhNodup, h.lhHome, h.fits, h.order⟩

lemma Good.begin_op (h : Good D s) (hs : s.panicked = false) (hq : s.job q = .idle) :
    Good D (begin_op s q) := by
  unfold Bio.begin_op
  split_ifs with hc hl
  · exact h
  · exact h
  have hg := h.gate hs
  have hnc : s.committing = false := by simpa using hc
  have hcard := card_op_update s q .op
  simp only [hq, reduceCtorEq, if_false, if_true, Nat.add_zero] at hcard
  have hno : ∀ p c, Function.update s.job q .op p ≠ .commit c := by
    intro p c
    by_cases hp : p = q
    · subst hp
      simp
    · rw [Function.update_of_ne hp]
      exact hg.no_commit hnc
  have hinv : Inv D { s with job := Function.update s.job q .op } :=
    h.inv.setJob .op (fun _ => Or.inl (by rw [hq]; rfl)) (fun hx => by cases hx)
  refine ⟨hinv.setGate _ s.committing, fun _ => ⟨?_, ?_, ?_, ?_⟩,
    fun _ p c hp => absurd hp (hno p c), fun _ _ => h.rest hs hnc⟩
  · rw [hcard, ← hg.count]
  · simp only [hnc, Bool.false_eq_true, false_iff]
    rintro ⟨p, c, hp⟩
    exact hno p c hp
  · exact fun p r c d hp _ => absurd hp (hno p c)
  · intro hx
    rw [hnc] at hx
    cases hx

lemma Good.dirty_eq_empty (h : Good D s) (hg : Gate s) (hq : s.job q = .op)
    (hlast : s.outstanding - 1 = 0) (hh : s.held q = []) : s.dirty = ∅ := by
  have hnc := hg.not_committing hq
  refine Finset.eq_empty_of_forall_notMem fun i hi => ?_
  obtain ⟨p, hp, hjob⟩ := h.inv.dirty i hi
  have hne : p ≠ q := by
    rintro rfl
    rw [hh] at hp
    simp at hp
  cases hj : s.job p with
  | idle => exact hjob hj
  | commit c => exact hg.no_commit hnc hj
  | op =>
    have hsub : ({p, q} : Finset (Fin P)) ⊆ Finset.univ.filter fun r => s.job r = .op := by
      intro r hr
      simp only [Finset.mem_insert, Finset.mem_singleton] at hr
      rcases hr with rfl | rfl
      · simp [hj]
      · simp [hq]
    have hcard := Finset.card_le_card hsub
    rw [Finset.card_pair hne, ← hg.count] at hcard
    omega

lemma Good.end_op (h : Good D s) (hs : s.panicked = false) (hq : s.job q = .op)
    (hcall : s.call q = none) (hh : s.held q = []) : Good D (end_op s q) := by
  have hg := h.gate hs
  have hnc := hg.not_committing hq
  have hrefs : ∀ i, refs s q i = 0 := fun i => by simp [refs, hcall, hh, callRef]
  obtain ⟨hi1, hi2⟩ := h.rest hs hnc
  unfold Bio.end_op
  simp only [hnc, Bool.false_eq_true, if_false]
  have hcard : ∀ x : Job, x ≠ .op → s.outstanding - 1 =
      (Finset.univ.filter fun r => Function.update s.job q x r = .op).card := by
    intro x hx
    have hc := card_op_update s q x
    rw [if_pos hq, if_neg hx, ← hg.count] at hc
    omega
  by_cases hz : s.outstanding - 1 = 0
  · simp only [hz, if_true]
    set c : Pc := if 0 < s.lh.length then .writeLog 0 else .finish with hc
    have hinv : Inv D (goto s q c) := h.inv.goto c
    refine ⟨hinv.setGate 0 true, fun _ => ⟨?_, ?_, fun p r d e hp hr => ?_, fun _ => rfl⟩,
      fun _ p d hp => ?_, fun _ hx => by cases hx⟩
    · change 0 = _
      rw [← hz]
      exact hcard _ (by simp)
    · simp only [goto, true_iff]
      exact ⟨q, c, Function.update_self _ _ _⟩
    · have hpq : ∀ p d, Function.update s.job q (.commit c) p = .commit d → p = q := by
        intro p d hp
        by_contra hne
        rw [Function.update_of_ne hne] at hp
        exact hg.no_commit hnc hp
      rw [hpq p d hp, hpq r e hr]
    · have hpq : p = q := by
        by_contra hne
        simp only [goto, Function.update_of_ne hne] at hp
        exact hg.no_commit hnc hp
      subst hpq
      simp only [goto, Function.update_self, Job.commit.injEq] at hp
      subst hp
      have hdirty := h.dirty_eq_empty hg hq hz hh
      have hgrip : grip s p = [] := by rw [grip_eq_held hcall, hh]
      rw [hc]
      split_ifs with hl
      · refine ⟨?_, ⟨Nat.zero_le _, fun k hk => by omega, hi1, hi2⟩, hdirty⟩
        change (grip s p).map s.blockno = []
        rw [hgrip, List.map_nil]
      · refine ⟨?_, ⟨?_, hi1, hi2⟩, hdirty⟩
        · change (grip s p).map s.blockno = []
          rw [hgrip, List.map_nil]
        · have hlen : s.lh.length = 0 := by omega
          exact List.length_eq_zero_iff.mp hlen
  · simp only [hz, if_false]
    have hinv : Inv D { s with job := Function.update s.job q .idle } :=
      h.inv.setJob .idle (fun _ => Or.inr hrefs) (fun _ => hh)
    have hno : ∀ p c, Function.update s.job q .idle p ≠ .commit c := by
      intro p c
      by_cases hp : p = q
      · subst hp
        simp
      · rw [Function.update_of_ne hp]
        exact hg.no_commit hnc
    refine ⟨hinv.setGate (s.outstanding - 1) false, fun _ => ⟨hcard _ (by simp), ?_, ?_, ?_⟩,
      fun _ p c hp => absurd hp (hno p c), fun _ _ => ⟨hi1, hi2⟩⟩
    · simp only [Bool.false_eq_true, false_iff]
      rintro ⟨p, c, hp⟩
      exact hno p c hp
    · exact fun p r c d hp _ => absurd hp (hno p c)
    · intro hx
      cases hx

lemma Good.finish (h : Good D s) (hs : s.panicked = false) (hq : s.job q = .commit .finish)
    (hcall : s.call q = none) : Good D (commit D s q .finish) := by
  have hg := h.gate hs
  have hph := h.phase hs q _ hq
  have hh := hph.none hcall rfl
  obtain ⟨-, hi1, hi2⟩ := hph.progress
  have hrefs : ∀ i, refs s q i = 0 := fun i => by simp [refs, hcall, hh, callRef]
  have hinv : Inv D { s with job := Function.update s.job q .idle } :=
    h.inv.setJob .idle (fun _ => Or.inr hrefs) (fun _ => hh)
  have hcom : s.committing = true := hg.committing.mpr ⟨q, _, hq⟩
  have hno : ∀ p c, Function.update s.job q .idle p ≠ .commit c := by
    intro p c hp
    by_cases hpq : p = q
    · subst hpq
      simp at hp
    · rw [Function.update_of_ne hpq] at hp
      exact hpq (hg.only p q _ _ hp hq)
  have hcard := card_op_update s q .idle
  simp only [hq, reduceCtorEq, if_false, Nat.add_zero] at hcard
  refine ⟨hinv.setGate s.outstanding false, fun _ => ⟨?_, ?_, ?_, ?_⟩,
    fun _ p c hp => absurd hp (hno p c), fun _ _ => ⟨hi1, hi2⟩⟩
  · exact hg.count.trans hcard.symm
  · simp only [commit, Bool.false_eq_true, false_iff]
    rintro ⟨p, c, hp⟩
    exact hno p c hp
  · exact fun p r c d hp _ => absurd hp (hno p c)
  · intro hx
    cases hx

lemma Good.commit (h : Good D s) (hs : s.panicked = false) (hq : s.job q = .commit c)
    (hcall : s.call q = none) : Good D (commit D s q c) := by
  by_cases hc : c = .finish
  · subst hc
    exact h.finish hs hq hcall
  have hg := h.gate hs
  obtain ⟨hinv, hnext⟩ := next_commit h.inv hcall (h.phase hs q c hq) hc
  rcases hnext with hpan | ⟨d, h1, h2, h3, hph⟩
  · refine ⟨hinv, fun hf => ?_, fun hf => ?_, fun hf => ?_⟩ <;>
    · rw [hpan] at hf
      cases hf
  · refine ⟨hinv, fun _ => hg.goes_on hq h1 h2 h3, fun _ p e hp => ?_, fun _ hx => ?_⟩
    · have hpq : p = q := by
        by_contra hne
        rw [h1, Function.update_of_ne hne] at hp
        exact hne (hg.only p q _ _ hp hq)
      subst hpq
      rw [h1, Function.update_self, Job.commit.injEq] at hp
      exact hp ▸ hph
    · rw [h3, hg.committing.mpr ⟨q, c, hq⟩] at hx
      cases hx

lemma Good.go (h : Good D s) (hs : s.panicked = false) : Good D (go D s q) := by
  unfold Bio.go
  cases hcall : s.call q with
  | none =>
    cases hjob : s.job q with
    | idle => exact h
    | op => exact h
    | commit c => exact h.commit hs hjob hcall
  | some x =>
    cases x with
    | lock i dev b =>
      have hinv := h.inv.acquiresleep hcall
      have hst : ∀ p c, s.job p = .commit c → Steady s (acquiresleep s q i dev b) p :=
        fun p c _ => steady_acquiresleep hcall
      simp only
      unfold Bio.acquiresleep at hinv hst ⊢
      split_ifs at hinv hst ⊢
      · exact h.call hs hinv rfl rfl rfl hst ⟨rfl, rfl⟩
      · exact h
    | fill i dev b =>
      exact h.call hs (h.inv.fill hcall) rfl rfl rfl (fun p c _ => steady_fill h.inv hcall)
        ⟨rfl, rfl⟩
    | drop i =>
      exact h.call hs (h.inv.drop hcall) rfl rfl rfl (fun p c _ => steady_drop hcall) ⟨rfl, rfl⟩

/-- Operations use blocks of the log's device outside the log. -/
def ToHome (D : LogDev) : Act N P → Prop
  | .bread _ dev b => dev = D.dev ∧ Home D.toLayout b
  | _ => True

lemma Good.step (h : Good D s) {a : Act N P} (ha : ToHome D a) : Good D (step D s a) := by
  unfold Bio.step
  cases hs : s.panicked with
  | true => exact h
  | false =>
    rw [if_neg (by simp)]
    cases a with
    | begin_op p =>
      simp only
      split_ifs with hc
      · exact h.begin_op hs hc.2
      · exact h
    | bread p dev b =>
      obtain ⟨rfl, hb⟩ := ha
      simp only
      split_ifs with hc
      · exact h.bread hs hc.1 hc.2 hb
      · exact h
    | modify p i d =>
      simp only
      split_ifs with hc
      · exact h.modify hs hc.2.1 hc.2.2 d
      · exact h
    | log_write p i =>
      simp only
      split_ifs with hc
      · exact h.log_write hs hc.2.1 hc.2.2
      · exact h
    | brelse p i =>
      simp only
      split_ifs with hc
      · exact h.brelse hs hc.1 hc.2.1 hc.2.2.1 hc.2.2.2
      · exact h
    | end_op p =>
      simp only
      split_ifs with hc
      · exact h.end_op hs hc.2.1 hc.1 hc.2.2
      · exact h
    | go p => exact h.go hs

/-! ### Runs -/

lemma binit_cycle (N : ℕ) :
    ∃ l : List (Fin N), l.Perm (List.finRange N) ∧ Cycle (binit N) none (l.map some) := by
  have hfold : ∀ xs : List (Fin N), xs.Nodup →
      Cycle (xs.foldl (fun k i => Dlist.insertAfter k none (some i)) ⟨fun _ => none, fun _ => none⟩)
        none (xs.reverse.map some) := by
    intro xs hxs
    induction xs using List.reverseRecOn with
    | nil => exact Dlist.cycle_nil rfl rfl
    | append_singleton xs x ih =>
      obtain ⟨hx, -, hd⟩ := List.nodup_append.mp hxs
      rw [List.foldl_append, List.reverse_append]
      refine (ih hx).insertAfter (by simp) ?_
      simp only [List.mem_map, List.mem_reverse, Option.some.injEq, exists_eq_right]
      exact fun hm => hd x hm x (by simp) rfl
  exact ⟨(List.finRange N).reverse, List.reverse_perm _, hfold _ (List.nodup_finRange N)⟩

lemma good_init (hD : D.dev ≠ 0) (disk : ℕ → Block) : Good D (init N P disk) := by
  have hdev : ∀ i : Fin N, (init N P disk).dev i ≠ D.dev := fun _ he => hD he.symm
  have hrefs : ∀ p i, refs (init N P disk) p i = 0 := fun _ _ => rfl
  refine ⟨⟨binit_cycle N, fun _ => Or.inl rfl, fun i j hi => absurd hi (hdev i), fun i => ?_,
    fun p i hp => ?_, fun i p => ?_, fun p => List.nodup_nil, fun p i d b hc => ?_,
    fun p i d b hc => ?_, fun p i _ hp => ?_, fun p i hi => ?_, fun i hi => ?_,
    fun i hi => absurd hi (hdev i), fun b _ _ => rfl, fun b hb => ?_, List.nodup_nil, fun b hb => ?_,
    Nat.zero_le _, le_rfl⟩, fun _ => ⟨?_, ?_, ?_, ?_⟩, fun _ p c hp => ?_, fun _ _ => ⟨rfl, rfl⟩⟩
  · rw [if_neg fun hp => hdev i hp.1]
    simp only [hrefs, Finset.sum_const_zero]
    rfl
  · rw [hrefs] at hp
    omega
  · simp [init, Has]
  · simp [init] at hc
  · simp [init] at hc
  · rw [hrefs] at hp
    omega
  · simp [init] at hi
  · simp [init] at hi
  · simp [init] at hb
  · simp [init] at hb
  · simp [init]
  · simp [init]
  · intro p q c d hp
    simp [init] at hp
  · exact fun _ => rfl
  · simp [init] at hp

/-- **Every run** keeps the invariant. -/
lemma good_run (h : Good D s) {acts : List (Act N P)} (ha : ∀ a ∈ acts, ToHome D a) :
    Good D (run D s acts) := by
  induction acts generalizing s with
  | nil => exact h
  | cons a acts ih =>
    simp only [List.mem_cons, forall_eq_or_imp] at ha
    exact ih (h.step ha.1) ha.2

/-! ### A buffer in use is not recycled -/

lemma Inv.bget_keeps (h : Inv D s) (hr : 0 < s.refcnt i) (p : Fin P) (dev b : ℕ) :
    (Bio.bget s p dev b).dev i = s.dev i ∧ (Bio.bget s p dev b).blockno i = s.blockno i := by
  rcases h.bget_cases p dev b with ⟨j, -, -, he⟩ | ⟨j, -, hz, he⟩ | he
  · rw [he]
    exact ⟨rfl, rfl⟩
  · rw [he]
    have hij : i ≠ j := by
      rintro rfl
      omega
    exact ⟨Function.update_of_ne hij _ _, Function.update_of_ne hij _ _⟩
  · rw [he]
    exact ⟨rfl, rfl⟩

lemma Inv.commit_keeps (h : Inv D s) (hr : 0 < s.refcnt i) (p : Fin P) (c : Pc) :
    (Bio.commit D s p c).dev i = s.dev i ∧ (Bio.commit D s p c).blockno i = s.blockno i := by
  have hb : ∀ d dev b, (Bio.bget (Bio.goto s p d) p dev b).dev i = s.dev i ∧
      (Bio.bget (Bio.goto s p d) p dev b).blockno i = s.blockno i :=
    fun d dev b => (h.goto d).bget_keeps hr p dev b
  have hw : ∀ d j, (Bio.bwrite (Bio.goto s p d) p j).dev i = s.dev i ∧
      (Bio.bwrite (Bio.goto s p d) p j).blockno i = s.blockno i := by
    intro d j
    unfold Bio.bwrite
    split_ifs <;> exact ⟨rfl, rfl⟩
  have hd : ∀ d j, (Bio.brelse (Bio.goto s p d) p j).dev i = s.dev i ∧
      (Bio.brelse (Bio.goto s p d) p j).blockno i = s.blockno i := by
    intro d j
    unfold Bio.brelse
    split_ifs <;> exact ⟨rfl, rfl⟩
  cases c <;> dsimp only [Bio.commit] <;> (try split) <;>
    first | exact ⟨rfl, rfl⟩ | exact hb _ _ _ | exact hw _ _ | exact hd _ _

lemma Inv.step_keeps (h : Inv D s) (hr : 0 < s.refcnt i) (a : Act N P) :
    (Bio.step D s a).dev i = s.dev i ∧ (Bio.step D s a).blockno i = s.blockno i := by
  unfold Bio.step
  split_ifs
  · exact ⟨rfl, rfl⟩
  cases a with
  | begin_op p =>
    simp only [Bio.begin_op]
    split_ifs <;> exact ⟨rfl, rfl⟩
  | bread p dev b =>
    simp only
    split_ifs
    · exact h.bget_keeps hr p dev b
    · exact ⟨rfl, rfl⟩
  | modify p j d =>
    simp only [Bio.modify]
    split_ifs <;> exact ⟨rfl, rfl⟩
  | log_write p j =>
    simp only [Bio.log_write]
    split_ifs <;> exact ⟨rfl, rfl⟩
  | brelse p j =>
    simp only [Bio.brelse]
    split_ifs <;> exact ⟨rfl, rfl⟩
  | end_op p =>
    simp only [Bio.end_op]
    split_ifs <;> exact ⟨rfl, rfl⟩
  | go p =>
    simp only [Bio.go]
    split
    · simp only [Bio.acquiresleep]
      split_ifs <;> exact ⟨rfl, rfl⟩
    · exact ⟨rfl, rfl⟩
    · exact ⟨rfl, rfl⟩
    · split
      · exact h.commit_keeps hr p _
      · exact ⟨rfl, rfl⟩

lemma Good.bread_returns (h : Good D s) (hs : s.panicked = false)
    (hcall : s.call p = some (.fill i dev b)) (hb : Home D.toLayout b) :
    (Bio.step D s (.go p)).held p = i :: s.held p ∧ (Bio.step D s (.go p)).dev i = dev ∧
      (Bio.step D s (.go p)).blockno i = b ∧
      (Bio.step D s (.go p)).data i = (Bio.step D s (.go p)).mem b := by
  obtain ⟨hdev, hblk⟩ := h.inv.asked p i dev b (Or.inr hcall)
  have hdi := h.inv.used p i (refs_pos_of_call (by simp [hcall, callRef]))
  have hstep : Bio.step D s (.go p) = fill s p i := by
    simp [Bio.step, hs, Bio.go, hcall]
  have hinv := h.inv.fill hcall
  have hclean : i ∉ s.dirty := fun hm => by
    obtain ⟨q, hq, -⟩ := h.inv.dirty i hm
    have h1 := h.inv.lock_of_held hq
    rw [(h.inv.locked i p).mpr (Or.inr ⟨dev, b, hcall⟩)] at h1
    cases h1
    exact h.inv.once p i dev b hcall hq
  have hdata := hinv.data i hdi (Function.update_self _ _ _) hclean
  have hheld : (fill s p i).held p = i :: s.held p := Function.update_self _ _ _
  rw [hstep]
  refine ⟨hheld, hdi.trans hdev.symm, hblk, ?_⟩
  rw [hdata, content, if_pos (show Home D.toLayout ((fill s p i).blockno i) from hblk ▸ hb)]
  exact congrArg s.mem hblk

/-- **One block array.** When operations use blocks of the log's device outside the log, then
whatever they do and however often the log commits: a `bread` returns the block as it was last
logged or, if it never was, as it was on disk; no two buffers have the same block; the buffers are
on one cycle through the head; and a block that the log has not installed is in a buffer that the
next step does not recycle. -/
theorem block_array (D : LogDev) (hD : D.dev ≠ 0) (disk : ℕ → Block) (acts : List (Act N P))
    (ha : ∀ a ∈ acts, ToHome D a) :
    let s := run D (init N P disk) acts
    (∀ p i dev b, s.panicked = false → s.call p = some (.fill i dev b) → Home D.toLayout b →
      (step D s (.go p)).held p = i :: s.held p ∧ (step D s (.go p)).dev i = dev ∧
        (step D s (.go p)).blockno i = b ∧
        (step D s (.go p)).data i = (step D s (.go p)).mem b) ∧
    (∀ i j, s.dev i ≠ 0 → s.dev i = s.dev j → s.blockno i = s.blockno j → i = j) ∧
    (∃ l : List (Fin N), l.Perm (List.finRange N) ∧ Cycle s.links none (l.map some)) ∧
    (∀ b ∈ s.lh.drop s.installed, ∃ i, s.dev i = D.dev ∧ s.blockno i = b ∧
      ∀ a, (step D s a).dev i = D.dev ∧ (step D s a).blockno i = b) := by
  intro s
  have h : Good D s := good_run (good_init hD disk) ha
  refine ⟨fun p i dev b hs hcall hb => h.bread_returns hs hcall hb, fun i j hi hij hb => ?_,
    h.inv.cycle, fun b hb => ?_⟩
  · have hdi := (h.inv.devs i).resolve_left hi
    exact h.inv.unique i j hdi (hij ▸ hdi) hb
  · have hb' := List.drop_subset_drop_left _ h.inv.order hb
    obtain ⟨i, hdi, hbi, -⟩ := h.inv.pinned b hb'
    have hpin : Pinned D s i := ⟨hdi, hbi ▸ hb'⟩
    have hcount := h.inv.count i
    rw [if_pos hpin] at hcount
    refine ⟨i, hdi, hbi, fun a => ?_⟩
    obtain ⟨h1, h2⟩ := h.inv.step_keeps (show 0 < s.refcnt i by omega) a
    exact ⟨h1.trans hdi, h2.trans hbi⟩

/-- The log `mkfs` lays out, on device 1. -/
def rootDev : LogDev := ⟨Log.mkfsLayout, 1⟩

/-- Process 0 changes block 100 and logs it. -/
def logBlock : List (Act NBUF 2) :=
  [.begin_op 0, .bread 0 1 100, .go 0, .go 0, .modify 0 0 fun _ => 7, .log_write 0 0,
    .brelse 0 0, .go 0]

/-- Process 1 reads the block before it is installed. -/
def readBack : List (Act NBUF 2) := logBlock ++ [.bread 1 1 100, .go 1]

theorem block_array_read_back :
    rootDev.dev ≠ 0 ∧ (∀ a ∈ readBack, ToHome rootDev a) ∧
    (run rootDev (init NBUF 2 fun _ _ => 0) readBack).disk 100 0 = 0 ∧
    (step rootDev (run rootDev (init NBUF 2 fun _ _ => 0) readBack) (.go 1)).data 0 0 = 7 := by
  have hhome : ∀ a ∈ readBack, ToHome rootDev a := by
    simp only [readBack, logBlock, List.cons_append, List.nil_append, List.forall_mem_cons, ToHome,
      true_and]
    exact ⟨⟨rfl, by decide⟩, ⟨rfl, by decide⟩, by simp⟩
  have h := block_array rootDev (by decide) (fun _ _ => 0) readBack hhome
  refine ⟨by decide, hhome, by decide +kernel, ?_⟩
  rw [(h.1 1 0 1 100 (by decide +kernel) (by decide +kernel) (by decide)).2.2.2]
  decide +kernel

/-- Other uses are not served like this: after a commit the header block of the log, which nobody
has logged, reads as the commit wrote it, and under another device number a block reads as it was
before it was logged. -/
theorem log_blocks_and_other_devices :
    let s := run rootDev (init NBUF 2 fun _ _ => 0)
      (logBlock ++ .end_op 0 :: List.replicate 50 (.go 0) ++ [.begin_op 1, .bread 1 1 2, .go 1])
    let t := run rootDev (init NBUF 2 fun _ _ => 0)
      (logBlock ++ [.begin_op 1, .bread 1 2 100, .go 1])
    (s.call 1 = some (.fill 2 1 2) ∧
      (step rootDev s (.go 1)).data 2 1 ≠ (step rootDev s (.go 1)).mem 2 1) ∧
    (t.call 1 = some (.fill 1 2 100) ∧
      (step rootDev t (.go 1)).data 1 0 ≠ (step rootDev t (.go 1)).mem 100 0) := by
  decide +kernel

end Xv6.Bio
