import Xv6.BlockArray

/-!
The log over the buffer cache does what the log over whole blocks does: a transfer that `commit`
makes through a buffer is one step of the log, and whatever else happens to the buffers is none.
-/

namespace Xv6.Bio

open Log (Block Layout Home writeHeader)

variable {N P : ℕ} {D : LogDev} {s s' : St N P} {t t' : Log.St} {p q : Fin P} {i : Fin N}
  {dev b : ℕ} {c d : Pc} {a : Act N P}

/-- What the log does next, where `commit` is at a statement. -/
def Pc.log : Pc → Log.Pc
  | .writeLog n | .readSrc n | .copyLog n | .bwriteLog n => .writeLog n
  | .brelseSrc n | .brelseLog n => .writeLog (n + 1)
  | .writeHead erase | .fillHead erase | .bwriteHead erase => if erase then .clear else .writeHead
  | .brelseHead erase => if erase then .finish else .install 0
  | .install n | .readDst n | .copyDst n | .bwriteDst n => .install n
  | .unpin n | .brelseLbuf n | .brelseDst n => .install (n + 1)
  | .finish => .finish

/-- The header in memory is empty and the one on the disk is still to be. -/
def Pc.erasing : Pc → Bool
  | .writeHead erase | .fillHead erase | .bwriteHead erase => erase
  | _ => false

/-- The log `t` is where the log over the buffers is, with the same disk, and `bread` gives its
operations what they find in the buffers. -/
structure Refines (D : LogDev) (s : St N P) (t : Log.St) : Prop where
  disk : t.disk = s.disk
  cache : ∀ b, Home D.toLayout b → t.cache b = s.mem b
  outstanding : t.outstanding = s.outstanding
  committing : t.committing = s.committing
  active : ∀ p : Fin P, p.val ∈ t.active ↔ s.job p = .op
  commit : ∀ p c, s.job p = .commit c → t.pc = c.log ∧ (c.erasing = false → t.lh = s.lh)
  rest : s.committing = false → t.pc = .run ∧ t.lh = s.lh

/-! ### Steps that the log does not see -/

/-- Only buffers and calls have changed. -/
structure Still (s s' : St N P) : Prop where
  disk : s'.disk = s.disk
  mem : s'.mem = s.mem
  lh : s'.lh = s.lh
  outstanding : s'.outstanding = s.outstanding
  committing : s'.committing = s.committing
  job : s'.job = s.job

lemma still_bget : Still s (bget s p dev b) := by
  unfold bget
  split
  · exact ⟨rfl, rfl, rfl, rfl, rfl, rfl⟩
  · split
    · exact ⟨rfl, rfl, rfl, rfl, rfl, rfl⟩
    · exact ⟨rfl, rfl, rfl, rfl, rfl, rfl⟩

lemma still_acquiresleep : Still s (acquiresleep s p i dev b) := by
  unfold acquiresleep
  split_ifs
  · exact ⟨rfl, rfl, rfl, rfl, rfl, rfl⟩
  · exact ⟨rfl, rfl, rfl, rfl, rfl, rfl⟩

lemma still_brelse : Still s (brelse s p i) := by
  unfold brelse
  split_ifs
  · exact ⟨rfl, rfl, rfl, rfl, rfl, rfl⟩
  · exact ⟨rfl, rfl, rfl, rfl, rfl, rfl⟩

lemma still_fill : Still s (fill s p i) := ⟨rfl, rfl, rfl, rfl, rfl, rfl⟩

lemma still_drop : Still s (drop s p i) := ⟨rfl, rfl, rfl, rfl, rfl, rfl⟩

lemma still_modify {x : Block} : Still s (modify s i x) := ⟨rfl, rfl, rfl, rfl, rfl, rfl⟩

lemma Refines.still (h : Refines D s t) (hs : Still s s') : Refines D s' t := by
  refine ⟨h.disk.trans hs.disk.symm, fun b hb => ?_, h.outstanding.trans hs.outstanding.symm,
    h.committing.trans hs.committing.symm, fun p => ?_, fun p c hp => ?_, fun hc => ?_⟩
  · rw [hs.mem]
    exact h.cache b hb
  · rw [hs.job]
    exact h.active p
  · rw [hs.job] at hp
    rw [hs.lh]
    exact h.commit p c hp
  · rw [hs.committing] at hc
    rw [hs.lh]
    exact h.rest hc

/-! ### Statements of commit -/

/-- The process that commits has gone on to `d`, and the log to `t'`. -/
lemma Refines.goes (h : Refines D s t) (hg : Gate s) (hq : s.job q = .commit c)
    (hjob : s'.job = Function.update s.job q (.commit d)) (ho : s'.outstanding = s.outstanding)
    (hc : s'.committing = s.committing) (hto : t'.outstanding = t.outstanding)
    (htc : t'.committing = t.committing) (hta : t'.active = t.active) (hdisk : t'.disk = s'.disk)
    (hcache : ∀ b, Home D.toLayout b → t'.cache b = s'.mem b) (hpc : t'.pc = d.log)
    (hlh : d.erasing = false → t'.lh = s'.lh) : Refines D s' t' := by
  have hself : s'.job q = .commit d := by rw [hjob, Function.update_self]
  have hother : ∀ r, r ≠ q → s'.job r = s.job r := fun r hr => by
    rw [hjob, Function.update_of_ne hr]
  refine ⟨hdisk, hcache, by rw [hto, h.outstanding, ho], by rw [htc, h.committing, hc],
    fun r => ?_, fun r e hr => ?_, fun hf => ?_⟩
  · rw [hta, h.active]
    by_cases hrq : r = q
    · subst hrq
      rw [hself, hq]
      simp
    · rw [hother r hrq]
  · by_cases hrq : r = q
    · subst hrq
      rw [hself, Job.commit.injEq] at hr
      exact hr ▸ ⟨hpc, hlh⟩
    · rw [hother r hrq] at hr
      exact absurd (hg.only r q e c hr hq) hrq
  · rw [hc, hg.committing.mpr ⟨q, c, hq⟩] at hf
    cases hf

lemma Refines.goto (h : Refines D s t) (hg : Gate s) (hq : s.job q = .commit c)
    (hlog : d.log = c.log) (herase : d.erasing = c.erasing) : Refines D (goto s q d) t := by
  obtain ⟨hpc, hlh⟩ := h.commit q c hq
  exact h.goes hg hq rfl rfl rfl rfl rfl rfl h.disk h.cache (hpc.trans hlog.symm)
    fun he => hlh (herase ▸ he)

/-- Without a crash, the log goes on to where `s'` is. -/
def Follows (D : LogDev) (t : Log.St) (s' : St N P) : Prop :=
  ∃ acts, Log.Act.crash ∉ acts ∧ Refines D s' (Log.run D.toLayout t acts)

lemma Refines.follows (h : Refines D s' t) : Follows D t s' := ⟨[], List.not_mem_nil, h⟩

lemma Refines.between (h : Refines D s t) (hg : Gate s) (hq : s.job q = .commit c)
    (hs : Still (Bio.goto s q d) s') (hlog : d.log = c.log) (herase : d.erasing = c.erasing) :
    Follows D t s' := ((h.goto hg hq hlog herase).still hs).follows

/-- The log has already gone from `t` to where `s'` is followed from. -/
lemma Follows.after {acts : List Log.Act} (hacts : Log.Act.crash ∉ acts)
    (h : Follows D (Log.run D.toLayout t acts) s') : Follows D t s' := by
  obtain ⟨more, hmore, hR⟩ := h
  refine ⟨acts ++ more, by simp [hacts, hmore], ?_⟩
  unfold Log.run at hR ⊢
  rw [List.foldl_append]
  exact hR

lemma follows_step {a : Log.Act} (ha : a ≠ .crash)
    (h : Refines D s' (Log.step D.toLayout t a)) : Follows D t s' :=
  ⟨[a], by simpa using ha.symm, h⟩

lemma follows_go (h : Refines D s' (Log.go D.toLayout t)) : Follows D t s' :=
  follows_step (a := .go) (by simp) h

lemma follows_bwriteLog {n : ℕ} (h : Good D s) (hs : s.panicked = false) (hR : Refines D s t)
    (hq : s.job q = .commit (.bwriteLog n)) (hcall : s.call q = none) :
    Follows D t (Bio.commit D s q (.bwriteLog n)) := by
  have hg := h.gate hs
  have hph := h.phase hs q _ hq
  obtain ⟨hpc, hlh⟩ := hR.commit q _ hq
  have hlh : t.lh = s.lh := hlh rfl
  obtain ⟨-, src, log, hh, hd, hdata⟩ := hph.changed
  obtain ⟨hn, -, -⟩ := hph.progress
  have hb := hph.blocks
  rw [grip_eq_held hcall, hh] at hb
  simp only [List.map_cons, List.map_nil, blocksAt, List.cons.injEq, and_true] at hb
  simp only [Bio.commit, hh]
  rw [bwrite_eq h.inv (by simp [hh])]
  refine follows_go ?_
  have hpc : t.pc = .writeLog n := hpc
  simp only [Log.go, hpc, hlh]
  rw [if_pos hn]
  refine hR.goes hg hq rfl rfl rfl rfl rfl rfl ?_ hR.cache rfl fun _ => rfl
  simp only [hR.disk, hb.2, hdata]
  rw [hR.cache _ (h.inv.getD_home hn)]

lemma follows_bwriteDst {n : ℕ} (h : Good D s) (hs : s.panicked = false) (hR : Refines D s t)
    (hq : s.job q = .commit (.bwriteDst n)) (hcall : s.call q = none) :
    Follows D t (Bio.commit D s q (.bwriteDst n)) := by
  have hg := h.gate hs
  have hph := h.phase hs q _ hq
  obtain ⟨hpc, hlh⟩ := hR.commit q _ hq
  have hlh : t.lh = s.lh := hlh rfl
  obtain ⟨-, dst, lbuf, hh, hd, hdata⟩ := hph.changed
  obtain ⟨hn, hcop, -⟩ := hph.progress
  have hb := hph.blocks
  rw [grip_eq_held hcall, hh] at hb
  simp only [List.map_cons, List.map_nil, blocksAt, List.cons.injEq, and_true] at hb
  have hcopy : t.disk (D.start + n + 1) = s.mem (s.lh.getD n 0) := by
    rw [hR.disk]
    exact hcop n hn
  simp only [Bio.commit, hh]
  rw [bwrite_eq h.inv (by simp [hh])]
  refine follows_go ?_
  have hpc : t.pc = .install n := hpc
  simp only [Log.go, hpc, hlh]
  rw [if_pos hn]
  refine hR.goes hg hq rfl rfl rfl rfl rfl rfl ?_ (fun b hb => ?_) rfl fun _ => hlh
  · simp only [Log.installBlock, hlh, hcopy, hR.disk, hb.1, hdata]
  · simp only [Log.installBlock, hlh, hcopy]
    by_cases hbn : b = s.lh.getD n 0
    · subst hbn
      exact Function.update_self ..
    · rw [Function.update_of_ne hbn]
      exact hR.cache b hb

lemma follows_bwriteHead {e : Bool} (h : Good D s) (hs : s.panicked = false) (hR : Refines D s t)
    (hq : s.job q = .commit (.bwriteHead e)) (hcall : s.call q = none) :
    Follows D t (Bio.commit D s q (.bwriteHead e)) := by
  have hg := h.gate hs
  have hph := h.phase hs q _ hq
  obtain ⟨hpc, hlh⟩ := hR.commit q _ hq
  obtain ⟨-, head, hh, hd, hdata⟩ := hph.changed
  have hb := hph.blocks
  rw [grip_eq_held hcall, hh] at hb
  simp only [List.map_cons, List.map_nil, blocksAt, List.cons.injEq, and_true] at hb
  simp only [Bio.commit, hh]
  rw [bwrite_eq h.inv (by simp [hh])]
  refine follows_go ?_
  cases e with
  | false =>
    have hlh : t.lh = s.lh := hlh rfl
    have hpc : t.pc = .writeHead := hpc
    simp only [Log.go, hpc]
    refine hR.goes hg hq rfl rfl rfl rfl rfl rfl ?_ hR.cache rfl fun _ => hlh
    simp only [Log.putHeader, hlh, hR.disk, hb, hdata]
  | true =>
    obtain ⟨hnil, -⟩ := hph.progress
    have hnil : s.lh = [] := hnil
    have hpc : t.pc = .clear := hpc
    simp only [Log.go, hpc]
    refine hR.goes hg hq rfl rfl rfl rfl rfl rfl ?_ hR.cache rfl fun _ => hnil.symm
    simp only [Log.putHeader, hR.disk, hb, hdata, hnil]

lemma follows_finish (h : Good D s) (hs : s.panicked = false) (hR : Refines D s t)
    (hq : s.job q = .commit .finish) : Follows D t (Bio.commit D s q .finish) := by
  have hg := h.gate hs
  obtain ⟨hpc, hlh⟩ := hR.commit q _ hq
  have hpc : t.pc = .finish := hpc
  have hno : ∀ r c, Function.update s.job q .idle r ≠ .commit c := by
    intro r c hr
    by_cases hrq : r = q
    · subst hrq
      simp at hr
    · rw [Function.update_of_ne hrq] at hr
      exact hrq (hg.only r q _ _ hr hq)
  refine follows_go ?_
  simp only [Log.go, hpc, Bio.commit]
  refine ⟨hR.disk, hR.cache, hR.outstanding, rfl, fun r => ?_, fun r c hr => absurd hr (hno r c),
    fun _ => ⟨rfl, hlh rfl⟩⟩
  change r.val ∈ t.active ↔ Function.update s.job q .idle r = .op
  rw [hR.active]
  by_cases hrq : r = q
  · subst hrq
    simp [hq]
  · rw [Function.update_of_ne hrq]

/-- **Every statement of commit** is a step of the log or none. -/
lemma follows_commit (h : Good D s) (hs : s.panicked = false) (hR : Refines D s t)
    (hq : s.job q = .commit c) (hcall : s.call q = none) : Follows D t (Bio.commit D s q c) := by
  have hg := h.gate hs
  have hph := h.phase hs q c hq
  obtain ⟨hpc, hlh⟩ := hR.commit q c hq
  cases c with
  | writeLog n =>
    simp only [Bio.commit]
    split_ifs with hlt
    · exact hR.between hg hq still_bget rfl rfl
    · have hlh : t.lh = s.lh := hlh rfl
      have hpc : t.pc = .writeLog n := hpc
      refine follows_go ?_
      simp only [Log.go, hpc, hlh]
      rw [if_neg hlt]
      exact hR.goes hg hq rfl rfl rfl rfl rfl rfl hR.disk hR.cache rfl fun _ => rfl
  | readSrc n => exact hR.between hg hq still_bget rfl rfl
  | copyLog n =>
    obtain ⟨src, log, hh, -, -⟩ := hph.two hcall rfl
    simp only [Bio.commit, hh]
    exact hR.between hg hq still_modify rfl rfl
  | bwriteLog n => exact follows_bwriteLog h hs hR hq hcall
  | brelseSrc n =>
    obtain ⟨src, log, hh, -, -⟩ := hph.two hcall rfl
    simp only [Bio.commit, hh]
    exact hR.between hg hq still_brelse rfl rfl
  | brelseLog n =>
    obtain ⟨log, hh, -⟩ := hph.one hcall rfl
    simp only [Bio.commit, hh]
    exact hR.between hg hq still_brelse rfl rfl
  | writeHead e => exact hR.between hg hq still_bget rfl rfl
  | fillHead e =>
    obtain ⟨head, hh, -⟩ := hph.one hcall rfl
    simp only [Bio.commit, hh]
    exact hR.between hg hq still_modify rfl rfl
  | bwriteHead e => exact follows_bwriteHead h hs hR hq hcall
  | brelseHead e =>
    obtain ⟨head, hh, -⟩ := hph.one hcall rfl
    simp only [Bio.commit, hh]
    refine hR.between hg hq still_brelse ?_ ?_
    · cases e <;> rfl
    · cases e <;> rfl
  | install n =>
    simp only [Bio.commit]
    split_ifs with hlt
    · exact hR.between hg hq still_bget rfl rfl
    · have hlh : t.lh = s.lh := hlh rfl
      have hpc : t.pc = .install n := hpc
      refine follows_go ?_
      simp only [Log.go, hpc, hlh]
      rw [if_neg hlt]
      exact hR.goes hg hq rfl rfl rfl rfl rfl rfl hR.disk hR.cache rfl fun he => by cases he
  | readDst n => exact hR.between hg hq still_bget rfl rfl
  | copyDst n =>
    obtain ⟨dst, lbuf, hh, -, -⟩ := hph.two hcall rfl
    simp only [Bio.commit, hh]
    exact hR.between hg hq still_modify rfl rfl
  | bwriteDst n => exact follows_bwriteDst h hs hR hq hcall
  | unpin n =>
    obtain ⟨dst, lbuf, hh, -, -⟩ := hph.two hcall rfl
    simp only [Bio.commit, hh]
    exact hR.between (d := .brelseLbuf n) hg hq ⟨rfl, rfl, rfl, rfl, rfl, rfl⟩ rfl rfl
  | brelseLbuf n =>
    obtain ⟨dst, lbuf, hh, -, -⟩ := hph.two hcall rfl
    simp only [Bio.commit, hh]
    exact hR.between hg hq still_brelse rfl rfl
  | brelseDst n =>
    obtain ⟨dst, hh, -⟩ := hph.one hcall rfl
    simp only [Bio.commit, hh]
    exact hR.between hg hq still_brelse rfl rfl
  | finish => exact follows_finish h hs hR hq

/-! ### Operations -/

lemma Gate.no_commit_update (hg : Gate s) (hnc : s.committing = false) {x : Job}
    (hx : ∀ c, x ≠ .commit c) (r : Fin P) (c : Pc) :
    Function.update s.job q x r ≠ .commit c := by
  by_cases hrq : r = q
  · subst hrq
    rw [Function.update_self]
    exact hx c
  · rw [Function.update_of_ne hrq]
    exact hg.no_commit hnc

lemma follows_begin_op (h : Good D s) (hs : s.panicked = false) (hR : Refines D s t)
    (hq : s.job q = .idle) : Follows D t (begin_op s q) := by
  have hg := h.gate hs
  unfold begin_op
  split_ifs with hc hl
  · exact hR.follows
  · exact hR.follows
  have hnc : s.committing = false := by simpa using hc
  obtain ⟨hpc, hlh⟩ := hR.rest hnc
  have hidle : q.val ∉ t.active := by
    rw [hR.active, hq]
    simp
  refine follows_step (a := .begin_op q) (by simp) ?_
  simp only [Log.step, hpc, Log.Pc.up, true_and]
  rw [if_pos hidle]
  unfold Log.begin_op
  rw [hR.committing, if_neg hc, hlh, hR.outstanding, if_neg hl]
  refine ⟨hR.disk, hR.cache, rfl, rfl, fun r => ?_, fun r c hr => ?_, fun _ => ⟨hpc, rfl⟩⟩
  · change r.val ∈ insert q.val t.active ↔ Function.update s.job q .op r = .op
    rw [Finset.mem_insert, hR.active]
    by_cases hrq : r = q
    · subst hrq
      simp
    · rw [Function.update_of_ne hrq, or_iff_right (fun hv => hrq (Fin.ext hv))]
  · exact absurd hr (hg.no_commit_update hnc (by simp) r c)

lemma follows_log_write (h : Good D s) (hs : s.panicked = false) (hR : Refines D s t)
    (hq : s.job q = .op) :
    (log_write D s i).panicked = true ∨ Follows D t (log_write D s i) := by
  have hg := h.gate hs
  have hnc := hg.not_committing hq
  obtain ⟨hpc, hlh⟩ := hR.rest hnc
  have hcache : ∀ b', Home D.toLayout b' → Function.update t.cache (s.blockno i) (s.data i) b' =
      Function.update s.mem (s.blockno i) (s.data i) b' := by
    intro b' hb'
    by_cases hbi : b' = s.blockno i
    · subst hbi
      rw [Function.update_self, Function.update_self]
    · rw [Function.update_of_ne hbi, Function.update_of_ne hbi]
      exact hR.cache b' hb'
  unfold log_write
  split_ifs with hbig hout
  · exact .inl rfl
  · exact .inl rfl
  right
  refine follows_step (a := .log_write q (s.blockno i) (s.data i)) (by simp) ?_
  simp only [Log.step, hpc, Log.Pc.up, true_and]
  rw [if_pos ((hR.active q).mpr hq)]
  unfold Log.log_write
  dsimp only
  rw [hlh, hR.outstanding, if_neg hbig, if_neg hout]
  by_cases hmem : s.blockno i ∈ s.lh
  · simp only [if_pos hmem]
    exact ⟨hR.disk, hcache, rfl, hR.committing, hR.active,
      fun r c hr => absurd hr (hg.no_commit hnc), fun _ => ⟨hpc, rfl⟩⟩
  · simp only [if_neg hmem]
    exact ⟨hR.disk, hcache, rfl, hR.committing, hR.active,
      fun r c hr => absurd hr (hg.no_commit hnc), fun _ => ⟨hpc, rfl⟩⟩

lemma follows_end_op (h : Good D s) (hs : s.panicked = false) (hR : Refines D s t)
    (hq : s.job q = .op) : Follows D t (end_op s q) := by
  have hg := h.gate hs
  have hnc := hg.not_committing hq
  obtain ⟨hpc, hlh⟩ := hR.rest hnc
  have hactive : ∀ (x : Job), x ≠ .op → ∀ r : Fin P, r.val ∈ t.active.erase q.val ↔
      Function.update s.job q x r = .op := by
    intro x hx r
    rw [Finset.mem_erase, hR.active]
    by_cases hrq : r = q
    · subst hrq
      simp [hx]
    · rw [Function.update_of_ne hrq, and_iff_right (fun hv => hrq (Fin.ext hv))]
  refine follows_step (a := .end_op q) (by simp) ?_
  simp only [Log.step, hpc, Log.Pc.up, true_and]
  rw [if_pos ((hR.active q).mpr hq)]
  unfold Log.end_op end_op
  simp only [hR.committing, hnc, hR.outstanding, Bool.false_eq_true, if_false]
  by_cases hz : s.outstanding - 1 = 0
  · rw [if_pos hz, if_pos hz]
    have honly : ∀ r c, Function.update s.job q
        (.commit (if 0 < s.lh.length then .writeLog 0 else .finish)) r = .commit c →
        c = if 0 < s.lh.length then .writeLog 0 else .finish := by
      intro r c hr
      by_cases hrq : r = q
      · subst hrq
        rw [Function.update_self, Job.commit.injEq] at hr
        exact hr.symm
      · rw [Function.update_of_ne hrq] at hr
        exact absurd hr (hg.no_commit hnc)
    refine ⟨hR.disk, hR.cache, rfl, rfl, hactive _ (by simp), fun r c hr => ?_, fun hf => ?_⟩
    · rw [honly r c hr]
      refine ⟨?_, fun _ => hlh⟩
      simp only [hlh]
      split_ifs <;> rfl
    · cases hf
  · rw [if_neg hz, if_neg hz]
    exact ⟨hR.disk, hR.cache, rfl, rfl, hactive _ (by simp),
      fun r c hr => absurd hr (hg.no_commit_update hnc (by simp) r c), fun _ => ⟨hpc, hlh⟩⟩

/-! ### Runs -/

lemma follows_go_call (h : Good D s) (hs : s.panicked = false) (hR : Refines D s t) :
    Follows D t (go D s q) := by
  unfold go
  cases hcall : s.call q with
  | none =>
    cases hjob : s.job q with
    | idle => exact hR.follows
    | op => exact hR.follows
    | commit c => exact follows_commit h hs hR hjob hcall
  | some x =>
    cases x with
    | lock i dev b => exact (hR.still still_acquiresleep).follows
    | fill i dev b => exact (hR.still still_fill).follows
    | drop i => exact (hR.still still_drop).follows

/-- One step of the buffers is one step of the log or none, but for a panic. -/
lemma follows_of_step (h : Good D s) (hs : s.panicked = false) (hR : Refines D s t) :
    (step D s a).panicked = true ∨ Follows D t (step D s a) := by
  unfold step
  rw [hs, if_neg (by simp)]
  cases a with
  | begin_op p =>
    simp only
    split_ifs with hc
    · exact .inr (follows_begin_op h hs hR hc.2)
    · exact .inr hR.follows
  | bread p dev b =>
    simp only
    split_ifs
    · exact .inr (hR.still still_bget).follows
    · exact .inr hR.follows
  | modify p i d =>
    simp only
    split_ifs
    · exact .inr (hR.still still_modify).follows
    · exact .inr hR.follows
  | log_write p i =>
    simp only
    split_ifs with hc
    · exact follows_log_write h hs hR hc.2.1
    · exact .inr hR.follows
  | brelse p i =>
    simp only
    split_ifs
    · exact .inr (hR.still still_brelse).follows
    · exact .inr hR.follows
  | end_op p =>
    simp only
    split_ifs with hc
    · exact .inr (follows_end_op h hs hR hc.2.1)
    · exact .inr hR.follows
  | go p => exact .inr (follows_go_call h hs hR)

/-- The log after a recovery that had nothing to do. -/
def recovered (disk : ℕ → Block) : Log.St := { Log.boot disk with pc := .run }

lemma recovered_run (L : Layout) (disk : ℕ → Block) (h : disk L.start 0 = 0) :
    Log.run L (Log.boot disk) [.go, .go, .go] = recovered disk := by
  have hread : Log.readHeader (disk L.start) = [] := by
    unfold Log.readHeader
    rw [h]
    rfl
  have hwrite : writeHeader (disk L.start) [] = disk L.start := by
    funext w
    unfold writeHeader
    by_cases hw : w = 0
    · subst hw
      rw [if_pos rfl, h]
      rfl
    · rw [if_neg hw, if_neg (by simpa using hw)]
  simp [Log.run, Log.step, Log.go, Log.boot, recovered, Log.putHeader, hread, hwrite]

lemma refines_init (disk : ℕ → Block) : Refines D (init N P disk) (recovered disk) :=
  ⟨rfl, fun _ _ => rfl, rfl, rfl, fun p => by simp [init, recovered, Log.boot],
    fun p c hp => by simp [init] at hp, fun _ => ⟨rfl, rfl⟩⟩

lemma Follows.run (h : Good D s) (hs : s.panicked = true ∨ Follows D t s)
    {acts : List (Act N P)} (ha : ∀ a ∈ acts, ToHome D a) :
    (run D s acts).panicked = true ∨ Follows D t (run D s acts) := by
  induction acts generalizing s with
  | nil => exact hs
  | cons a acts ih =>
    simp only [List.mem_cons, forall_eq_or_imp] at ha
    refine ih (h.step ha.1) ?_ ha.2
    cases hp : s.panicked with
    | true =>
      left
      unfold step
      rw [if_pos hp]
      exact hp
    | false =>
      rw [hp] at hs
      obtain ⟨done, hdone, hR⟩ := hs.resolve_left (by simp)
      exact (follows_of_step (a := a) h hp hR).imp_right (Follows.after hdone)

/-- **The log over the buffer cache refines the log over whole blocks**: on a disk whose log is
empty, every run that has not panicked is a run of the log without a crash, with the same disk at
its end and the same contents of the blocks outside the log. -/
theorem run_refines_log (hD : D.dev ≠ 0) (disk : ℕ → Block) (hempty : disk D.start 0 = 0)
    {acts : List (Act N P)} (ha : ∀ a ∈ acts, ToHome D a) :
    (run D (init N P disk) acts).panicked = true ∨
      Follows D (Log.boot disk) (run D (init N P disk) acts) := by
  have hrun := recovered_run D.toLayout disk hempty
  have hinit : Follows D (Log.boot disk) (init N P disk) := by
    have hgo : Log.Act.crash ∉ [Log.Act.go, .go, .go] := by simp
    refine Follows.after hgo ?_
    rw [hrun]
    exact (refines_init disk).follows
  exact Follows.run (good_init hD disk) (.inr hinit) ha

end Xv6.Bio
