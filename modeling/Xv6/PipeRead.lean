import Xv6.PipeFifo
import Xv6.Waitx

/-!
`piperead` and a bad user buffer. The copy loop takes a byte off the pipe before it copies it out,
and returns the number of bytes copied: a copy that fails loses a byte.
-/

namespace Xv6.PipeRead

open Xv6.ByteMem Xv6.Riscv Xv6.Kalloc Xv6.Vm Xv6.Wp Xv6.AddrSpace Xv6.Cow Xv6.Copyout Xv6.Process
open Xv6.Invariant Xv6.Ops Xv6.Kernel Xv6.Reach Xv6.RefCount Xv6.StoreFault Xv6.Waitx
open Xv6.Pipe (PipeData)
open Xv6.Isolation (initSlot)

/-- The copy loop with `k` iterations to go; `i` bytes are copied. -/
def readLoop (pr : Fin NPROC) (addr : Word) : ℕ → ℕ → PipeData → S (ℕ × PipeData)
  | 0, i, pi => pure (i, pi)
  | k + 1, i, pi =>
    if pi.empty then pure (i, pi)
    else do
      let t ← get
      let r ← vm (copyout (t.proc pr).pagetable (addr + BitVec.ofNat 64 i).toNat [pi.front])
      if r = -1 then pure (i, pi.pop) else readLoop pr addr k (i + 1) pi.pop

/-- `piperead` from a test of its first loop on; `none` when the process goes to sleep, to start
over with the pipe it then finds. -/
def piperead (pr : Fin NPROC) (addr : Word) (n : ℤ) (pi : PipeData) :
    S (Option (ℤ × PipeData)) := do
  let t ← get
  if pi.empty ∧ pi.writeopen = true then
    if (t.proc pr).killed ≠ 0 then pure (some (-1, pi)) else pure none
  else do
    let r ← readLoop pr addr n.toNat 0 pi
    pure (some (r.1, r.2))

/-- The `n` bytes at `addr` in the memory of process `pr`. -/
def userBytes (t : Kern) (pr : Fin NPROC) (addr : Word) (n : ℕ) : List Byte :=
  (List.range n).map fun k => byteAt t pr (addr.toNat + k)

/-- One read after the other, and the bytes found in the buffers as the calls return. -/
def reads (pr : Fin NPROC) : List (Word × ℤ) → PipeData → S (List Byte × PipeData)
  | [], pi => pure ([], pi)
  | (addr, n) :: calls, pi => do
    let r ← piperead pr addr n pi
    match r with
    | none => pure ([], pi)
    | some (ret, pi') => do
      let t ← get
      let rest ← reads pr calls pi'
      pure (userBytes t pr addr ret.toNat ++ rest.1, rest.2)

/-- The bytes that the call can get all go to the writable part of the buffer. -/
def Fits (t : Kern) (pr : Fin NPROC) (addr : Word) (n : ℤ) (count : ℕ) : Prop :=
  reach t pr addr.toNat (min n.toNat count) = min n.toNat count

/-- All the calls of a sequence do. -/
def AllFit (t : Kern) (pr : Fin NPROC) : List (Word × ℤ) → ℕ → Prop
  | [], _ => True
  | (addr, n) :: calls, count =>
    Fits t pr addr n count ∧ AllFit t pr calls (count - min n.toNat count)

/-- A read that returned `ret` lost nothing: it took `ret` bytes off the pipe, it left these in the
buffer, and reads that come later get the others in order. -/
structure Lossless (pr : Fin NPROC) (addr : Word) (pi : PipeData) (ret : ℤ) (pi' : PipeData)
    (t' : Kern) : Prop where
  removed : ret.toNat + pi'.count = pi.count
  stored : userBytes t' pr addr ret.toNat = pi.pending.take ret.toNat
  later : ∀ calls, AllFit t' pr calls pi'.count →
    wp (reads pr calls pi') (fun r _ => r.1 ++ r.2.pending = pi.pending.drop ret.toNat)
      (fun _ => False) t'

/-- Whatever the call returns, unless it is an error, is lossless. -/
def KeepsData (t : Kern) (pr : Fin NPROC) (addr : Word) (n : ℤ) (pi : PipeData) : Prop :=
  wp (piperead pr addr n pi) (fun r t' => ∀ ret pi', r = some (ret, pi') → 0 ≤ ret →
    Lossless pr addr pi ret pi' t') (fun _ => False) t

variable {L : Layout} {t t' : Kern} {T : Fin NPROC → PageTable.PTab} {pr : Fin NPROC}
  {addr : Word} {pi pi' : PipeData} {E : Panic → Prop} {n : ℤ} {i k : ℕ}

/-! ### The pipe -/

lemma pending_length : pi.pending.length = pi.count := by
  unfold PipeData.pending
  rw [List.length_map, List.length_range]

/-- The pipe with `m` bytes less. -/
def popN (pi : PipeData) (m : ℕ) : PipeData := PipeData.pop^[m] pi

lemma popN_succ (pi : PipeData) (m : ℕ) : popN pi.pop m = popN pi (m + 1) :=
  (Function.iterate_succ_apply _ _ _).symm

lemma popN_pending {m : ℕ} : ∀ {pi : PipeData}, m ≤ pi.count →
    m + (popN pi m).count = pi.count ∧ (popN pi m).pending = pi.pending.drop m := by
  induction m with
  | zero => intro pi _; exact ⟨Nat.zero_add _, rfl⟩
  | succ m ih =>
    intro pi h
    obtain ⟨h1, h2⟩ := Pipe.pop_pending (d := pi) (by omega)
    obtain ⟨h3, h4⟩ := @ih pi.pop (by omega)
    rw [popN_succ] at h3 h4
    refine ⟨by omega, ?_⟩
    rw [h4, h2, List.drop_succ_cons]

/-! ### The copy loop -/

lemma reach_cons (t : Kern) (pr : Fin NPROC) (va m : ℕ) : reach t pr va (m + 1) =
    if va < MAXVA ∧ UserOk ((tabOf t pr).leaf (va / PGSIZE)) then reach t pr (va + 1) m + 1
    else 0 := rfl

lemma reach_succ {va m : ℕ} (h : reach t pr va 1 = 1) :
    va < MAXVA ∧ reach t pr va (m + 1) = reach t pr (va + 1) m + 1 := by
  rw [reach_cons] at h ⊢
  split_ifs at h ⊢ with hc
  exact ⟨hc.1, rfl⟩

lemma reach_none {va m : ℕ} (h : reach t pr va 1 < 1) : reach t pr va m = 0 := by
  cases m with
  | zero => rfl
  | succ m =>
    rw [reach_cons] at h ⊢
    split_ifs at h ⊢
    · exact absurd h (by omega)
    · rfl

lemma addr_toNat (h : addr.toNat + i < 2 ^ 64) :
    (addr + BitVec.ofNat 64 i).toNat = addr.toNat + i := by
  rw [BitVec.toNat_add, BitVec.toNat_ofNat]
  omega

lemma stored_cons (V : ℕ → Byte) (a m : ℕ) (b : Byte) (bs : List Byte) :
    stored (stored V a 1 [b]) (a + 1) m bs = stored V a (m + 1) (b :: bs) := by
  funext va
  unfold stored
  by_cases h1 : a + 1 ≤ va ∧ va < a + 1 + m
  · rw [if_pos h1, if_pos (by omega), show va - a = va - (a + 1) + 1 by omega,
      List.getD_cons_succ]
  · rw [if_neg h1]
    by_cases h2 : va = a
    · rw [if_pos (by omega), if_pos (by omega), h2, Nat.sub_self]
      rfl
    · rw [if_neg (by omega), if_neg (by omega)]

lemma stored_nothing (V : ℕ → Byte) (a : ℕ) (bs : List Byte) : stored V a 0 bs = V := by
  funext va
  unfold stored
  rw [if_neg (by omega)]

/-- The loop stores what fits, and has taken one byte more when that is not all. -/
lemma readLoop_spec (k : ℕ) : ∀ {i : ℕ} {pi : PipeData} {V : ℕ → Byte} {t' : Kern},
    Sees L t pr V t' → Live (t'.proc pr) → addr.toNat + i < 2 ^ 64 →
    wp (readLoop pr addr k i pi) (fun r t2 => t2.proc = t'.proc ∧
      ∃ m, m = reach t pr (addr.toNat + i) (min k pi.count) ∧ r.1 = i + m ∧
        r.2 = popN pi (if m < min k pi.count then m + 1 else m) ∧
        Sees L t pr (stored V (addr.toNat + i) m pi.pending) t2) E t' := by
  induction k with
  | zero =>
    intro i pi V t' hs _ _
    rw [readLoop, wp_pure, Nat.zero_min]
    refine ⟨rfl, 0, rfl, rfl, rfl, ?_⟩
    rw [stored_nothing]
    exact hs
  | succ k ih =>
    intro i pi V t' hs hi ha
    unfold readLoop
    by_cases he : pi.empty
    · rw [if_pos he, wp_pure, Pipe.empty_iff.mp he, Nat.min_zero]
      refine ⟨rfl, 0, rfl, rfl, rfl, ?_⟩
      rw [stored_nothing]
      exact hs
    · rw [if_neg he, wp_bind, wp_get, wp_bind, addr_toNat ha]
      have hpos : 0 < pi.count := Nat.pos_of_ne_zero fun h0 => he (Pipe.empty_iff.mpr h0)
      obtain ⟨hcount, hpend⟩ := Pipe.pop_pending hpos
      have hmin : min (k + 1) pi.count = min k pi.pop.count + 1 := by omega
      refine wp_post (hs.copyout hi _ _) ?_
      rw [List.length_singleton, hmin]
      rintro r t1 ⟨hp1, hs1, ⟨rfl, h1⟩ | ⟨rfl, h1⟩⟩
      · obtain ⟨hva, hsucc⟩ := reach_succ (m := min k pi.pop.count) h1
        rw [if_neg (by norm_num)]
        refine wp_post (ih hs1 (by rwa [hp1]) (by unfold MAXVA at hva; omega)) ?_
        rintro r t2 ⟨hp2, m, hm, hr1, hr2, hs2⟩
        rw [← Nat.add_assoc] at hm
        rw [h1, ← Nat.add_assoc, stored_cons, ← hpend] at hs2
        refine ⟨hp2.trans hp1, m + 1, ?_, ?_, ?_, hs2⟩
        · rw [hsucc, hm]
        · omega
        · rw [hr2, popN_succ]
          congr 1
          split_ifs <;> omega
      · rw [if_pos rfl, wp_pure]
        have h0 : reach t pr (addr.toNat + i) 1 = 0 := by omega
        rw [h0, stored_nothing] at hs1
        refine ⟨hp1, 0, (reach_none h1).symm, rfl, ?_, ?_⟩
        · rw [if_pos (by omega)]
          rfl
        · rw [stored_nothing]
          exact hs1

/-! ### The call -/

/-- How many bytes the call takes off the pipe. -/
def taken (t : Kern) (pr : Fin NPROC) (addr : Word) (n : ℤ) (count : ℕ) : ℕ :=
  let m := reach t pr addr.toNat (min n.toNat count)
  if m < min n.toNat count then m + 1 else m

lemma piperead_spec {V : ℕ → Byte} (hs : Sees L t pr V t') (hi : Live (t'.proc pr)) :
    wp (piperead pr addr n pi) (fun r t2 => t2.proc = t'.proc ∧
      ((pi.empty ∧ Sees L t pr V t2 ∧ (r = none ∨ r = some (-1, pi))) ∨
        (r = some ((reach t pr addr.toNat (min n.toNat pi.count) : ℤ),
            popN pi (taken t pr addr n pi.count)) ∧
          Sees L t pr (stored V addr.toNat (reach t pr addr.toNat (min n.toNat pi.count))
            pi.pending) t2))) E t' := by
  unfold piperead
  rw [wp_bind, wp_get]
  by_cases hw : pi.empty ∧ pi.writeopen = true
  · rw [if_pos hw]
    split_ifs
    · exact ⟨rfl, Or.inl ⟨hw.1, hs, Or.inr rfl⟩⟩
    · exact ⟨rfl, Or.inl ⟨hw.1, hs, Or.inl rfl⟩⟩
  · rw [if_neg hw, wp_bind]
    refine wp_post (readLoop_spec _ hs hi (by have := addr.isLt; omega)) ?_
    rintro r t2 ⟨hp, m, hm, h1, h2, hs2⟩
    rw [Nat.add_zero] at hm hs2
    rw [Nat.zero_add] at h1
    subst hm
    rw [wp_pure]
    refine ⟨hp, Or.inr ⟨?_, hs2⟩⟩
    rw [h1, h2]
    rfl

lemma reach_mapped {m : ℕ} : ∀ {va k : ℕ}, k < reach t pr va m → Mapped t pr (va + k) := by
  induction m with
  | zero => intro va k hk; exact absurd hk (Nat.not_lt_zero _)
  | succ m ih =>
    intro va k hk
    rw [reach_cons] at hk
    by_cases hc : va < MAXVA ∧ UserOk ((tabOf t pr).leaf (va / PGSIZE))
    · rw [if_pos hc] at hk
      cases k with
      | zero => exact hc
      | succ k =>
        have := @ih (va + 1) k (by omega)
        rwa [Nat.add_right_comm, Nat.add_assoc] at this
    · rw [if_neg hc] at hk
      exact absurd hk (Nat.not_lt_zero _)

lemma userBytes_eq {V : ℕ → Byte} {m : ℕ} {bs : List Byte}
    (hs : Sees L t pr (stored V addr.toNat (reach t pr addr.toNat m) bs) t')
    (hm : reach t pr addr.toNat m ≤ bs.length) :
    userBytes t' pr addr (reach t pr addr.toNat m) = bs.take (reach t pr addr.toNat m) := by
  unfold userBytes
  refine List.ext_getElem (by simp [hm]) fun k h1 _ => ?_
  rw [List.length_map, List.length_range] at h1
  rw [List.getElem_map, List.getElem_range, List.getElem_take, hs.bytes _ (reach_mapped h1)]
  unfold stored
  rw [if_pos (by omega), Nat.add_sub_cancel_left, List.getD_eq_getElem _ _ (by omega)]

lemma piperead_fits {V : ℕ → Byte} (hs : Sees L t pr V t') (hi : Live (t'.proc pr))
    (hfit : Fits t pr addr n pi.count) :
    wp (piperead pr addr n pi) (fun r t2 => t2.proc = t'.proc ∧ (∃ V, Sees L t pr V t2) ∧
      ((r = none ∨ r = some (-1, pi)) ∧ pi.empty ∨
        ∃ pi', r = some (((min n.toNat pi.count : ℕ) : ℤ), pi') ∧
          min n.toNat pi.count + pi'.count = pi.count ∧
          pi'.pending = pi.pending.drop (min n.toNat pi.count) ∧
          userBytes t2 pr addr (min n.toNat pi.count) =
            pi.pending.take (min n.toNat pi.count))) E t' := by
  refine wp_post (piperead_spec (n := n) hs hi) ?_
  rintro r t2 ⟨hp, ⟨he, hs2, hr⟩ | ⟨rfl, hs2⟩⟩
  · exact ⟨hp, ⟨V, hs2⟩, Or.inl ⟨hr, he⟩⟩
  · have hm : reach t pr addr.toNat (min n.toNat pi.count) = min n.toNat pi.count := hfit
    have htaken : taken t pr addr n pi.count = min n.toNat pi.count := by
      unfold taken
      rw [hm, if_neg (lt_irrefl _)]
    have hle : min n.toNat pi.count ≤ pi.count := min_le_right _ _
    obtain ⟨h1, h2⟩ := popN_pending hle
    have hbytes := userBytes_eq hs2 (by rw [hm, pending_length]; exact hle)
    rw [hm] at hbytes
    refine ⟨hp, ⟨_, hs2⟩, Or.inr ⟨_, ?_, h1, h2, hbytes⟩⟩
    rw [hm, htaken]

/-- Reads that fit deliver the bytes of the pipe in order. -/
lemma reads_spec (calls : List (Word × ℤ)) : ∀ {pi : PipeData} {V : ℕ → Byte} {t' : Kern},
    Sees L t pr V t' → Live (t'.proc pr) → AllFit t pr calls pi.count →
    wp (reads pr calls pi) (fun r _ => r.1 ++ r.2.pending = pi.pending) E t' := by
  induction calls with
  | nil => intro pi V t' _ _ _; exact List.nil_append _
  | cons call calls ih =>
    intro pi V t' hs hi hfit
    obtain ⟨addr, n⟩ := call
    unfold reads
    rw [wp_bind]
    refine wp_post (piperead_fits hs hi hfit.1) ?_
    rintro r t2 ⟨hp, ⟨V2, hs2⟩, ⟨hr, he⟩ | ⟨pi', rfl, hcount, hpend, hbytes⟩⟩
    · have hrest : AllFit t pr calls pi.count := by
        have := hfit.2
        rwa [Pipe.empty_iff.mp he, Nat.min_zero, Nat.sub_zero, ← Pipe.empty_iff.mp he] at this
      rcases hr with rfl | rfl
      · exact List.nil_append _
      · dsimp only
        rw [wp_bind, wp_get, wp_bind]
        refine wp_post (ih hs2 (by rwa [hp]) hrest) fun rest t3 h3 => ?_
        exact h3
    · dsimp only
      rw [wp_bind, wp_get, wp_bind]
      have hrest : AllFit t pr calls pi'.count := by
        have := hfit.2
        rwa [show pi.count - min n.toNat pi.count = pi'.count by omega] at this
      refine wp_post (ih hs2 (by rwa [hp]) hrest) fun rest t3 h3 => ?_
      rw [wp_pure, Int.toNat_natCast, hbytes, List.append_assoc, h3, hpend, List.take_append_drop]

lemma keepsData_iff (h : Inv L t T) (hi : Live (t.proc pr)) :
    KeepsData t pr addr n pi ↔ Fits t pr addr n pi.count := by
  constructor
  · intro hk
    by_contra hfit
    obtain ⟨r, t2, hrun, -, hr⟩ := wp_returns
      (piperead_spec (Sees.refl (i := pr) h) hi : wp (piperead pr addr n pi) _ _ _)
    unfold KeepsData at hk
    rw [wp_of_run hrun] at hk
    rcases hr with ⟨he, -, -⟩ | ⟨rfl, -⟩
    · rw [Pipe.empty_iff] at he
      refine hfit ?_
      unfold Fits
      rw [he, Nat.min_zero]
      rfl
    · -- one byte is gone that was not returned
      have hlt : reach t pr addr.toNat (min n.toNat pi.count) < min n.toNat pi.count :=
        lt_of_le_of_ne (mappedLen_le _ _) hfit
      have h1 := (hk _ _ rfl (Int.natCast_nonneg _)).removed
      have htaken : taken t pr addr n pi.count =
          reach t pr addr.toNat (min n.toNat pi.count) + 1 := if_pos hlt
      have hle : reach t pr addr.toNat (min n.toNat pi.count) + 1 ≤ pi.count := by omega
      rw [htaken, Int.toNat_natCast] at h1
      have h2 := (popN_pending hle).1
      omega
  · intro hfit
    refine wp_post (piperead_fits (Sees.refl (i := pr) h) hi hfit) ?_
    rintro r t2 ⟨hp, ⟨V, hs2⟩, ⟨rfl | rfl, -⟩ | ⟨pi', rfl, hcount, hpend, hbytes⟩⟩ ret pi1 hr hret
    · cases hr
    · cases hr
      omega
    · cases hr
      refine ⟨?_, ?_, fun calls hcalls => ?_⟩
      · rw [Int.toNat_natCast]
        exact hcount
      · rw [Int.toNat_natCast]
        exact hbytes
      · obtain ⟨T2, h2⟩ := hs2.inv
        rw [Int.toNat_natCast, ← hpend]
        exact reads_spec calls (Sees.refl h2) (by rwa [hp]) hcalls

/-- **When `piperead` loses no data**: in every reachable state, for every process that may run,
every pipe, buffer and size: iff the bytes that are asked for and there fit the writable part of
the buffer. -/
theorem piperead_lossless_iff (L : Layout) (m : Mem) (ops : List Op) :
    wp (system L ops) (fun _ t => ∀ pr, (t.proc pr).state = .RUNNABLE → ∀ addr n pi,
      (KeepsData t pr addr n pi ↔ Fits t pr addr n pi.count)) Reachable (powerOn m) := by
  refine wp_post (system_spec L m ops) ?_
  rintro _ t ⟨T, h⟩ pr hrun addr n pi
  exact keepsData_iff h (Inv.live h (by rw [hrun]; simp))

/-- A pipe with one byte in it. -/
def oneByte : PipeData := ⟨fun _ => 120, 0, 1, true, true⟩

/-- The first process reads one byte to the first address beyond all memory: the call returns `0`
and the byte is gone. -/
theorem piperead_loses_byte :
    wp (system sampleLayout []) (fun _ t => (t.proc initSlot).state = .RUNNABLE ∧
      ¬ KeepsData t initSlot 0x4000000000 1 oneByte) (fun _ => False) (powerOn fun _ => 0) := by
  unfold system
  rw [wp_bind]
  refine wp_post (boot_spec _ le_rfl sampleLayout.room) ?_
  rintro _ t ⟨T, i, hb, -⟩
  have hslot : i = initSlot := Fin.ext hb.slot
  subst hslot
  have hi := Inv.live hb.inv (i := initSlot) (by rw [hb.state]; simp)
  rw [Kernel.run, wp_pure]
  refine ⟨hb.state, fun hk => ?_⟩
  have hfit := (keepsData_iff hb.inv hi).mp hk
  unfold Fits at hfit
  change reach t initSlot 0x4000000000 1 = 1 at hfit
  have := (reach_succ (m := 0) hfit).1
  unfold MAXVA at this
  omega

/-! ### The loop, step by step -/

variable {P : Type} [DecidableEq P] (procs : List P) (p : P)

/-- The steps of a reader that holds the lock of the pipe do to the pipe what the loop does. -/
lemma readLoop_steps (k : ℕ) : ∀ {i : ℕ} {pi : PipeData} {t : Kern},
    wp (readLoop pr addr k i pi) (fun r _ => ∀ s : Pipe.St P, s.pc p = .rCopy (i + k) i → s.pi = pi →
      ∃ acts, (∀ a ∈ acts, a = .go p ∨ a = .fault p) ∧
        (Pipe.run procs s acts).pc p = .rDone (i + k) r.1 procs ∧
        (Pipe.run procs s acts).pi = r.2) (fun _ => True) t := by
  induction k with
  | zero =>
    intro i pi t s hpc hpi
    refine ⟨[.go p], by simp, ?_⟩
    simp [Pipe.run, Pipe.step, Pipe.go, hpc, hpi]
  | succ k ih =>
    intro i pi t
    unfold readLoop
    by_cases he : pi.empty
    · rw [if_pos he, wp_pure]
      intro s hpc hpi
      refine ⟨[.go p], by simp, ?_⟩
      simp [Pipe.run, Pipe.step, Pipe.go, hpc, hpi, he]
    · rw [if_neg he, wp_bind, wp_get, wp_bind]
      refine wp_post wp_true fun r t1 _ => ?_
      by_cases hr : r = -1
      · rw [if_pos hr, wp_pure]
        intro s hpc hpi
        refine ⟨[.fault p], by simp, ?_⟩
        simp [Pipe.run, Pipe.step, Pipe.go, hpc, hpi, he]
      · rw [if_neg hr]
        refine wp_post ih fun r2 t2 h s hpc hpi => ?_
        have hstep : (Pipe.step procs s (.go p)).pc p = .rCopy (i + 1 + k) (i + 1) ∧
            (Pipe.step procs s (.go p)).pi = pi.pop := by
          simp [Pipe.step, Pipe.go, hpc, hpi, he, Nat.add_right_comm, Nat.add_assoc]
        obtain ⟨acts, hacts, h1, h2⟩ := h _ hstep.1 hstep.2
        refine ⟨.go p :: acts, ?_, ?_, h2⟩
        · simpa using hacts
        · rw [show i + (k + 1) = i + 1 + k by omega]
          exact h1

end Xv6.PipeRead
