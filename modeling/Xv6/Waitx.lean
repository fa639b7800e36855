import Xv6.Isolation
import Xv6.Calls

/-!
`sys_waitx` and the memory of its caller. The child is freed before the two times are copied out,
and the times are copied out whatever `waitx` returned: what the caller gets is all or nothing only
when the copies all succeed, or do not show.
-/

namespace Xv6.Waitx

open Xv6.ByteMem Xv6.Riscv Xv6.Kalloc Xv6.Vm Xv6.Wp Xv6.PageTable Xv6.Walk Xv6.Unmap
open Xv6.AddrSpace Xv6.Grow Xv6.Cow Xv6.Copyout Xv6.Share Xv6.Process Xv6.Invariant Xv6.View
open Xv6.Ops Xv6.Fork Xv6.Exec Xv6.Kernel Xv6.Steps Xv6.Reach Xv6.RefCount Xv6.StoreFault
open Xv6.Isolation (initSlot)

/-- The variables `wtime` and `rtime` of `sys_waitx`. -/
structure Times where
  wtime : ℕ
  rtime : ℕ

/-- What `waitx` makes of the times of a child, which are in the part of its slot that the
scheduler uses. -/
def childTimes (p : Pbs.Proc) : Times := ⟨Calls.wtime p, p.rtime⟩

/-- A scan of `waitx`'s loop; `none` when the caller goes to sleep. -/
def waitx (q : Fin NPROC → Pbs.Proc) (i : Fin NPROC) (addr : ℕ) (v : Times) :
    S (Option (ℤ × Times)) := do
  let t ← get
  match zombieChild t i with
  | some j => do
    let v := childTimes (q j)
    let bytes := leBytes 4 (intU64 (t.proc j).xstate)
    let r ← if addr ≠ 0 then vm (copyout (t.proc i).pagetable addr bytes) else pure 0
    if r < 0 then pure (some (-1, v))
    else do
      freeproc j
      pure (some ((t.proc j).pid, v))
  | none =>
    if (∀ j, (t.proc j).parent ≠ some i) ∨ (t.proc i).killed ≠ 0 then pure (some (-1, v))
    else pure none

/-- `sys_waitx` after `waitx` has returned `ret`. -/
def copyTimes (i : Fin NPROC) (addr1 addr2 : ℕ) (ret : ℤ) (v : Times) : S ℤ := do
  let t ← get
  let r1 ← vm (copyout (t.proc i).pagetable addr1 (leBytes 4 v.wtime))
  if r1 < 0 then pure (-1)
  else do
    let r2 ← vm (copyout (t.proc i).pagetable addr2 (leBytes 4 v.rtime))
    if r2 < 0 then pure (-1) else pure ret

/-- `v` is what the stack holds before the call. -/
def sys_waitx (q : Fin NPROC → Pbs.Proc) (i : Fin NPROC) (addr addr1 addr2 : ℕ) (v : Times) :
    S (Option ℤ) := do
  let r ← waitx q i addr v
  match r with
  | none => pure none
  | some (ret, v) => do
    let ret ← copyTimes i addr1 addr2 ret v
    pure (some ret)

/-- The times the call copies out in state `t`. -/
def foundTimes (q : Fin NPROC → Pbs.Proc) (i : Fin NPROC) (v : Times) (t : Kern) : Times :=
  match zombieChild t i with
  | some j => childTimes (q j)
  | none => v

lemma copyTimes_bind (i : Fin NPROC) (addr1 addr2 : ℕ) (ret : ℤ) (v : Times) :
    (copyTimes i addr1 addr2 ret v >>= fun ret => (pure (some ret) : S (Option ℤ))) = (do
      let t ← get
      let r1 ← vm (copyout (t.proc i).pagetable addr1 (leBytes 4 v.wtime))
      if r1 < 0 then pure (some (-1))
      else do
        let r2 ← vm (copyout (t.proc i).pagetable addr2 (leBytes 4 v.rtime))
        if r2 < 0 then pure (some (-1)) else pure (some ret)) := by
  unfold copyTimes
  simp only [bind_assoc]
  refine congrArg _ (funext fun t1 => congrArg _ (funext fun r1 => ?_))
  split_ifs
  · rfl
  · simp only [bind_assoc]
    refine congrArg _ (funext fun r2 => ?_)
    split_ifs <;> rfl

/-- What follows the `copyout` of the exit status, if zombie `j` was found. -/
lemma waitx_tail (q : Fin NPROC → Pbs.Proc) (t : Kern) (i j : Fin NPROC) (addr1 addr2 : ℕ)
    (r : ℤ) :
    ((if r < 0 then pure (some (-1, childTimes (q j))) else do
        freeproc j
        pure (some ((t.proc j).pid, childTimes (q j)))) >>= fun r : Option (ℤ × Times) =>
          match r with
          | none => pure none
          | some (ret, v) => do
            let ret ← copyTimes i addr1 addr2 ret v
            pure (some ret) : S (Option ℤ)) =
      ((if r < 0 then pure (some (-1)) else do
          freeproc j
          pure (some (t.proc j).pid)) >>= fun r : Option ℤ =>
          match r with
          | none => pure none
          | some ret => do
            let t ← get
            let r1 ← vm (copyout (t.proc i).pagetable addr1 (leBytes 4 (childTimes (q j)).wtime))
            if r1 < 0 then pure (some (-1))
            else do
              let r2 ← vm (copyout (t.proc i).pagetable addr2
                (leBytes 4 (childTimes (q j)).rtime))
              if r2 < 0 then pure (some (-1)) else pure (some ret) : S (Option ℤ)) := by
  split_ifs
  · simp only [pure_bind]
    rw [copyTimes_bind]
  · simp only [bind_assoc, pure_bind]
    refine congrArg _ (funext fun _ => ?_)
    rw [copyTimes_bind]

lemma sys_waitx_eq (q : Fin NPROC → Pbs.Proc) (i : Fin NPROC) (addr addr1 addr2 : ℕ) (v : Times)
    (t : Kern) : sys_waitx q i addr addr1 addr2 v t =
      Process.sys_waitx i addr addr1 addr2 (foundTimes q i v t).wtime (foundTimes q i v t).rtime
        t := by
  have hget : ∀ {α : Type} (f : Kern → S α), (get >>= f) t = f t t := fun _ => rfl
  unfold sys_waitx waitx Process.sys_waitx wait foundTimes
  simp only [bind_assoc]
  rw [hget, hget]
  rcases zombieChild t i with _ | j
  · dsimp only
    split_ifs
    · simp only [pure_bind]
      rw [copyTimes_bind]
    · rfl
  · have htail := waitx_tail q t i j addr1 addr2
    dsimp only
    by_cases h0 : addr ≠ 0
    · rw [if_pos h0, if_pos h0]
      simp only [bind_assoc]
      exact congrFun (congrArg _ (funext htail)) t
    · rw [if_neg h0, if_neg h0]
      simp only [pure_bind]
      exact congrFun (htail 0) t

/-! ### The caller's memory -/

/-- A user program may have `va` looked at by the kernel. -/
def Mapped (t : Kern) (i : Fin NPROC) (va : ℕ) : Prop := va < MAXVA ∧ UserOk (entryAt t i va)

/-- The byte at `va` as the hardware finds it. -/
def byteAt (t : Kern) (i : Fin NPROC) (va : ℕ) : Byte :=
  t.k.mem (PTE2PA (entryAt t i va) + va % PGSIZE)

/-- How many of `n` bytes from `va` on can be reached. -/
def reach (t : Kern) (i : Fin NPROC) (va n : ℕ) : ℕ := mappedLen (tabOf t i).leaf va n

/-- The first `m` of the bytes written at `a`. -/
def stored (V : ℕ → Byte) (a m : ℕ) (bs : List Byte) : ℕ → Byte := fun va =>
  if a ≤ va ∧ va < a + m then bs.getD (va - a) 0 else V va

/-- The bytes stand at `a`. -/
def Holds (t : Kern) (i : Fin NPROC) (a : ℕ) (bs : List Byte) : Prop :=
  ∀ k < bs.length, Mapped t i (a + k) ∧ byteAt t i (a + k) = bs.getD k 0

/-- Process `i` sees `V` where its memory is mapped; the mapping is that of `t`. -/
structure Sees (L : Layout) (t : Kern) (i : Fin NPROC) (V : ℕ → Byte) (t' : Kern) : Prop where
  inv : ∃ T', Inv L t' T'
  mapped : ∀ va, Mapped t' i va ↔ Mapped t i va
  reached : ∀ va n, reach t' i va n = reach t i va n
  bytes : ∀ va, Mapped t i va → byteAt t' i va = V va

variable {L : Layout} {t t' : Kern} {T T' : Fin NPROC → PTab} {i j : Fin NPROC}
  {E : Panic → Prop} {q : Fin NPROC → Pbs.Proc} {va a m n : ℕ} {bs : List Byte}

lemma mapped_iff (h : Inv L t T) (hi : Live (t.proc i)) :
    Mapped t i va ↔ va < MAXVA ∧ UserOk ((T i).leaf (va / PGSIZE)) := by
  unfold Mapped entryAt
  rw [Inv.tabOf h hi]

lemma byteAt_eq (h : Inv L t T) (hi : Live (t.proc i)) :
    byteAt t i va = rd (T i).leaf t.k.mem va := by
  unfold byteAt entryAt rd
  rw [Inv.tabOf h hi]

lemma mapped_lt (h : Inv L t T) (hi : Live (t.proc i)) (hm : Mapped t i va) :
    va / PGSIZE < pgs (t.proc i).sz := by
  rw [mapped_iff h hi] at hm
  exact Space.lt_np (h.slot i hi).space hm.2.1 (Or.inl hm.2.2)

lemma Sees.refl (h : Inv L t T) : Sees L t i (byteAt t i) t :=
  ⟨⟨T, h⟩, fun _ => Iff.rfl, fun _ _ => rfl, fun _ _ => rfl⟩

/-- `copyout` writes what it reaches, and succeeds when that is all. -/
lemma Sees.copyout {V : ℕ → Byte} (hs : Sees L t i V t') (hi : Live (t'.proc i)) (dstva : ℕ)
    (src : List Byte) :
    wp (vm (copyout (t'.proc i).pagetable dstva src)) (fun r t2 => t2.proc = t'.proc ∧
      Sees L t i (stored V dstva (reach t i dstva src.length) src) t2 ∧
      (r = 0 ∧ reach t i dstva src.length = src.length ∨
        r = -1 ∧ reach t i dstva src.length < src.length)) E t' := by
  obtain ⟨T1, h⟩ := hs.inv
  rw [wp_vm]
  refine wp_post (copyout_spec (h.as hi) (h.priv hi)) ?_
  rintro r k ⟨A', m, hc, hr, huser, hm⟩
  have h' := Inv.copied h hi hc
  have hself : Function.update T1 i A' i = A' := Function.update_self _ _ _
  have hm' : reach t i dstva src.length = m := by
    rw [← hs.reached]
    unfold reach
    rw [Inv.tabOf h hi, hm]
  refine ⟨rfl, ⟨⟨_, h'⟩, fun va => ?_, fun va n => ?_, fun va hva => ?_⟩, ?_⟩
  · rw [← hs.mapped, mapped_iff h' hi, mapped_iff h hi, hself, huser]
  · rw [← hs.reached]
    unfold reach
    rw [Inv.tabOf h' hi, Inv.tabOf h hi, hself]
    exact mappedLen_congr huser n va
  · rw [byteAt_eq h' hi, hself, hc.rd va (mapped_lt h hi ((hs.mapped va).mpr hva)), hm']
    unfold stored
    rw [← hs.bytes va hva, byteAt_eq h hi]
  · rw [hm']
    exact hr

lemma Sees.freeproc {V : ℕ → Byte} (hs : Sees L t i V t') (hi : Live (t'.proc i))
    (hj : Live (t'.proc j)) (hij : i ≠ j) :
    wp (freeproc j) (fun _ t2 => t2.proc = Function.update t'.proc j unusedProc ∧ Sees L t i V t2)
      E t' := by
  obtain ⟨T1, h⟩ := hs.inv
  refine wp_post (freeproc_spec h hj) ?_
  rintro _ t1 ⟨k, rfl, h1, hk⟩
  have hp : Function.update t'.proc j unusedProc i = t'.proc i := Function.update_of_ne hij _ _
  have hi' : Live (Function.update t'.proc j unusedProc i) := by rwa [hp]
  refine ⟨rfl, ⟨T1, h1⟩, fun va => ?_, fun va n => ?_, fun va hva => ?_⟩
  · rw [← hs.mapped, mapped_iff h1 hi', mapped_iff h hi]
  · rw [← hs.reached]
    unfold reach
    rw [Inv.tabOf h1 hi', Inv.tabOf h hi]
  · have hlt := mapped_lt h hi ((hs.mapped va).mpr hva)
    have hview := congrArg (fun u => u.bytes va) (view_rest h hi hij hk)
    unfold view at hview
    dsimp only at hview
    rw [if_pos hlt, if_pos hlt] at hview
    rw [← hs.bytes va hva, byteAt_eq h1 hi', byteAt_eq h hi]
    exact hview

lemma leBytes_length (n x : ℕ) : (leBytes n x).length = n := by
  unfold leBytes
  rw [List.length_map, List.length_range]

/-- What the two copies at the end make of the memory. -/
def withTimes (V : ℕ → Byte) (t : Kern) (i : Fin NPROC) (addr1 addr2 : ℕ) (v : Times) : ℕ → Byte :=
  let V1 := stored V addr1 (reach t i addr1 4) (leBytes 4 v.wtime)
  if reach t i addr1 4 = 4 then stored V1 addr2 (reach t i addr2 4) (leBytes 4 v.rtime) else V1

lemma Sees.copyTimes {V : ℕ → Byte} (hs : Sees L t i V t') (hi : Live (t'.proc i))
    (addr1 addr2 : ℕ) (ret : ℤ) (v : Times) :
    wp (copyTimes i addr1 addr2 ret v) (fun r t2 => t2.proc = t'.proc ∧
      Sees L t i (withTimes V t i addr1 addr2 v) t2 ∧
      r = if reach t i addr1 4 = 4 ∧ reach t i addr2 4 = 4 then ret else -1) E t' := by
  unfold Waitx.copyTimes withTimes
  rw [wp_bind, wp_get, wp_bind]
  refine wp_post (hs.copyout hi addr1 _) ?_
  rw [leBytes_length]
  rintro r t1 ⟨hp1, hs1, ⟨rfl, h1⟩ | ⟨rfl, h1⟩⟩
  · rw [if_neg (by norm_num), wp_bind, if_pos h1]
    have hi1 : Live (t1.proc i) := by rwa [hp1]
    have hcopy := hs1.copyout (E := E) hi1 addr2 (leBytes 4 v.rtime)
    rw [hp1, leBytes_length] at hcopy
    refine wp_post hcopy ?_
    rintro r t2 ⟨hp2, hs2, ⟨rfl, h2⟩ | ⟨rfl, h2⟩⟩
    · rw [if_neg (by norm_num), wp_pure, if_pos ⟨h1, h2⟩]
      exact ⟨hp2, hs2, rfl⟩
    · rw [if_pos (by norm_num), wp_pure, if_neg fun hc => by omega]
      exact ⟨hp2, hs2, rfl⟩
  · rw [if_pos (by norm_num), wp_pure, if_neg (by omega), if_neg fun hc => by omega]
    exact ⟨hp1, hs1, rfl⟩

/-! ### The call -/

/-- The exit status of child `j`, as it is copied out. -/
def status (t : Kern) (j : Fin NPROC) : List Byte := leBytes 4 (intU64 (t.proc j).xstate)

/-- The exit status is not asked for, or can be copied out. -/
def Reaps (t : Kern) (i : Fin NPROC) (addr : ℕ) : Prop := addr = 0 ∨ reach t i addr 4 = 4

/-- No child has exited, and the call does not wait for one. -/
def GivesUp (t : Kern) (i : Fin NPROC) : Prop :=
  (∀ j, (t.proc j).parent ≠ some i) ∨ (t.proc i).killed ≠ 0

instance (t : Kern) (i : Fin NPROC) (addr : ℕ) : Decidable (Reaps t i addr) :=
  inferInstanceAs (Decidable (_ ∨ _))

instance (t : Kern) (i : Fin NPROC) : Decidable (GivesUp t i) :=
  inferInstanceAs (Decidable (_ ∨ _))

/-- The memory after the exit status was copied out as far as it went. -/
def withStatus (t : Kern) (i j : Fin NPROC) (addr : ℕ) : ℕ → Byte :=
  if addr = 0 then byteAt t i else stored (byteAt t i) addr (reach t i addr 4) (status t j)

variable {addr addr1 addr2 : ℕ} {v : Times}

/-- What a zombie child comes to in `waitx`. -/
lemma waitx_zombie (h : Inv L t T) (hrun : (t.proc i).state = .RUNNABLE)
    (hz : zombieChild t i = some j) :
    wp (waitx q i addr v) (fun r t1 =>
      Sees L t i (withStatus t i j addr) t1 ∧ t1.proc i = t.proc i ∧
      if Reaps t i addr then
        r = some ((t.proc j).pid, childTimes (q j)) ∧
          t1.proc = Function.update t.proc j unusedProc
      else r = some (-1, childTimes (q j)) ∧ t1.proc = t.proc) E t := by
  have hi := Inv.live h (i := i) (by rw [hrun]; simp)
  have hzom := (zombieChild_some hz).2
  have hij : i ≠ j := by rintro rfl; rw [hrun] at hzom; cases hzom
  have hj := Inv.live h (i := j) (by rw [hzom]; simp)
  have hfree : ∀ {V t1}, Sees L t i V t1 → t1.proc = t.proc →
      wp (do freeproc j; pure (some ((t.proc j).pid, childTimes (q j)))) (fun r t2 =>
        Sees L t i V t2 ∧ t2.proc i = t.proc i ∧
          r = some ((t.proc j).pid, childTimes (q j)) ∧
          t2.proc = Function.update t.proc j unusedProc) E t1 := by
    intro V t1 hs hp
    rw [wp_bind]
    refine wp_post (hs.freeproc (by rwa [hp]) (by rwa [hp]) hij) ?_
    rintro _ t2 ⟨hp2, hs2⟩
    rw [hp] at hp2
    refine ⟨hs2, ?_, rfl, hp2⟩
    rw [hp2]
    exact Function.update_of_ne hij _ _
  unfold waitx withStatus
  rw [wp_bind, wp_get, hz]
  dsimp only
  by_cases h0 : addr = 0
  · have hre : Reaps t i addr := Or.inl h0
    rw [if_neg (not_not.mpr h0), wp_bind, wp_pure, if_neg (by norm_num), if_pos h0]
    simp only [if_pos hre]
    exact hfree (Sees.refl h) rfl
  · rw [if_pos h0, wp_bind, if_neg h0]
    have hcopy := (Sees.refl (i := i) h).copyout (E := E) hi addr (status t j)
    unfold status at hcopy ⊢
    rw [leBytes_length] at hcopy
    refine wp_post hcopy ?_
    rintro r t1 ⟨hp1, hs1, ⟨rfl, hm⟩ | ⟨rfl, hm⟩⟩
    · have hre : Reaps t i addr := Or.inr hm
      rw [if_neg (by norm_num)]
      simp only [if_pos hre]
      exact hfree hs1 hp1
    · have hre : ¬ Reaps t i addr := by
        rintro (hc | hc)
        · exact h0 hc
        · omega
      rw [if_pos (by norm_num), wp_pure, if_neg hre]
      exact ⟨hs1, by rw [hp1], rfl, hp1⟩

/-- The whole call, when a child has exited. -/
lemma sys_waitx_zombie (h : Inv L t T) (hrun : (t.proc i).state = .RUNNABLE)
    (hz : zombieChild t i = some j) :
    wp (sys_waitx q i addr addr1 addr2 v) (fun r t2 =>
      Sees L t i (withTimes (withStatus t i j addr) t i addr1 addr2 (childTimes (q j))) t2 ∧
      if Reaps t i addr then
        r = some (if reach t i addr1 4 = 4 ∧ reach t i addr2 4 = 4 then (t.proc j).pid else -1) ∧
          t2.proc = Function.update t.proc j unusedProc
      else r = some (-1) ∧ t2.proc = t.proc) E t := by
  have hi := Inv.live h (i := i) (by rw [hrun]; simp)
  unfold sys_waitx
  rw [wp_bind]
  refine wp_post (waitx_zombie h hrun hz) ?_
  rintro r t1 ⟨hs, hpi, hr⟩
  by_cases hre : Reaps t i addr
  · rw [if_pos hre] at hr
    obtain ⟨rfl, hp⟩ := hr
    simp only [if_pos hre]
    rw [wp_bind]
    refine wp_post (hs.copyTimes (by rwa [hpi]) addr1 addr2 _ _) ?_
    rintro r t2 ⟨hp2, hs2, rfl⟩
    exact ⟨hs2, rfl, hp2.trans hp⟩
  · rw [if_neg hre] at hr
    obtain ⟨rfl, hp⟩ := hr
    simp only [if_neg hre]
    rw [wp_bind]
    refine wp_post (hs.copyTimes (by rwa [hpi]) addr1 addr2 _ _) ?_
    rintro r t2 ⟨hp2, hs2, hr⟩
    rw [ite_self] at hr
    subst hr
    exact ⟨hs2, rfl, hp2.trans hp⟩

lemma sys_waitx_none (h : Inv L t T) (hrun : (t.proc i).state = .RUNNABLE)
    (hz : zombieChild t i = none) :
    wp (sys_waitx q i addr addr1 addr2 v) (fun r t2 =>
      if GivesUp t i then r = some (-1) ∧ t2.proc = t.proc ∧
        Sees L t i (withTimes (byteAt t i) t i addr1 addr2 v) t2
      else r = none) E t := by
  have hi := Inv.live h (i := i) (by rw [hrun]; simp)
  unfold sys_waitx waitx
  rw [wp_bind, wp_bind, wp_get, hz]
  dsimp only
  by_cases hg : GivesUp t i
  · have hcond : (∀ j, (t.proc j).parent ≠ some i) ∨ (t.proc i).killed ≠ 0 := hg
    simp only [if_pos hg]
    rw [if_pos hcond, wp_pure, wp_bind]
    refine wp_post ((Sees.refl (i := i) h).copyTimes hi addr1 addr2 _ _) ?_
    rintro r t2 ⟨hp2, hs2, hr⟩
    rw [ite_self] at hr
    subst hr
    exact ⟨rfl, hp2, hs2⟩
  · have hcond : ¬((∀ j, (t.proc j).parent ≠ some i) ∨ (t.proc i).killed ≠ 0) := hg
    simp only [if_neg hg]
    rw [if_neg hcond, wp_pure]
    rfl

/-! ### All or nothing -/

/-- The call returned the pid of child `j`, which it freed, and left what was asked for at the
addresses. -/
structure Reaped (q : Fin NPROC → Pbs.Proc) (i : Fin NPROC) (addr addr1 addr2 : ℕ) (t : Kern)
    (j : Fin NPROC) (ret : ℤ) (t' : Kern) : Prop where
  parent : (t.proc j).parent = some i
  zombie : (t.proc j).state = .ZOMBIE
  ret : ret = (t.proc j).pid
  freed : t'.proc = Function.update t.proc j unusedProc
  status : addr ≠ 0 → Holds t' i addr (status t j)
  wtime : Holds t' i addr1 (leBytes 4 (childTimes (q j)).wtime)
  rtime : Holds t' i addr2 (leBytes 4 (childTimes (q j)).rtime)

/-- The call freed nobody and left the bytes at the two addresses of the times alone. -/
structure Failed (i : Fin NPROC) (addr1 addr2 : ℕ) (t t' : Kern) : Prop where
  proc : t'.proc = t.proc
  quiet : ∀ va, addr1 ≤ va ∧ va < addr1 + 4 ∨ addr2 ≤ va ∧ va < addr2 + 4 → Mapped t i va →
    byteAt t' i va = byteAt t i va

/-- The call went to sleep, or reaped one child, or failed. -/
def Atomic (q : Fin NPROC → Pbs.Proc) (i : Fin NPROC) (addr addr1 addr2 : ℕ) (t : Kern)
    (r : Option ℤ) (t' : Kern) : Prop :=
  r = none ∨ (∃ j ret, r = some ret ∧ Reaped q i addr addr1 addr2 t j ret t') ∨
    r = some (-1) ∧ Failed i addr1 addr2 t t'

/-- Where the bytes at `a` and those at `b` overlap, they are the same. -/
def Agree (a : ℕ) (bs : List Byte) (b : ℕ) (cs : List Byte) : Prop :=
  ∀ k < bs.length, ∀ l < cs.length, a + k = b + l → bs.getD k 0 = cs.getD l 0

/-- The copies change nothing at the addresses of the times, where `V` is what they find. -/
def Unseen (t : Kern) (i : Fin NPROC) (addr1 addr2 : ℕ) (V : ℕ → Byte) (v : Times) : Prop :=
  ∀ va, addr1 ≤ va ∧ va < addr1 + 4 ∨ addr2 ≤ va ∧ va < addr2 + 4 → Mapped t i va →
    withTimes V t i addr1 addr2 v va = byteAt t i va

/-- A child that is reaped has all its results copied out, and they do not overwrite each other; and
where no child is reaped and the call returns, the copies of the times do not show. -/
def Whole (q : Fin NPROC → Pbs.Proc) (i : Fin NPROC) (addr addr1 addr2 : ℕ) (v : Times)
    (t : Kern) : Prop :=
  match zombieChild t i with
  | some j =>
    let wtime := leBytes 4 (childTimes (q j)).wtime
    let rtime := leBytes 4 (childTimes (q j)).rtime
    if Reaps t i addr then
      (reach t i addr1 4 = 4 ∧ reach t i addr2 4 = 4) ∧ Agree addr1 wtime addr2 rtime ∧
        (addr ≠ 0 → Agree addr (status t j) addr1 wtime ∧ Agree addr (status t j) addr2 rtime)
    else Unseen t i addr1 addr2 (withStatus t i j addr) (childTimes (q j))
  | none => GivesUp t i → Unseen t i addr1 addr2 (byteAt t i) v

lemma mappedLen_full {f : ℕ → Word} (n : ℕ) : ∀ va, mappedLen f va n = n ↔
    ∀ k < n, va + k < MAXVA ∧ UserOk (f ((va + k) / PGSIZE)) := by
  induction n with
  | zero => intro va; exact iff_of_true rfl fun k hk => absurd hk (Nat.not_lt_zero k)
  | succ n ih =>
    intro va
    unfold mappedLen
    by_cases hok : va < MAXVA ∧ UserOk (f (va / PGSIZE))
    · rw [if_pos hok, Nat.add_right_cancel_iff, ih]
      constructor
      · intro hall k hk
        rcases Nat.eq_zero_or_pos k with rfl | hpos
        · exact hok
        · have := hall (k - 1) (by omega)
          rwa [show va + 1 + (k - 1) = va + k by omega] at this
      · intro hall k hk
        have := hall (k + 1) (by omega)
        rwa [show va + (k + 1) = va + 1 + k by omega] at this
    · rw [if_neg hok]
      exact iff_of_false (Nat.succ_ne_zero n).symm fun hall => hok (hall 0 (Nat.succ_pos n))

lemma reach_full : reach t i a n = n ↔ ∀ k < n, Mapped t i (a + k) := mappedLen_full n a

lemma stored_in {V : ℕ → Byte} (h : a ≤ va ∧ va < a + m) :
    stored V a m bs va = bs.getD (va - a) 0 := if_pos h

lemma stored_out {V : ℕ → Byte} (h : ¬(a ≤ va ∧ va < a + m)) : stored V a m bs va = V va :=
  if_neg h

lemma Sees.holds_iff {V : ℕ → Byte} (hs : Sees L t i V t') : Holds t' i a bs ↔
    reach t i a bs.length = bs.length ∧ ∀ k < bs.length, V (a + k) = bs.getD k 0 := by
  rw [reach_full]
  constructor
  · intro h
    have hm : ∀ k < bs.length, Mapped t i (a + k) := fun k hk => (hs.mapped _).mp (h k hk).1
    exact ⟨hm, fun k hk => by rw [← hs.bytes _ (hm k hk)]; exact (h k hk).2⟩
  · rintro ⟨hm, hV⟩ k hk
    exact ⟨(hs.mapped _).mpr (hm k hk), by rw [hs.bytes _ (hm k hk)]; exact hV k hk⟩

lemma Holds.agree {b : ℕ} {cs : List Byte} (h : Holds t i a bs) (h' : Holds t i b cs) :
    Agree a bs b cs := by
  intro k hk l hl hkl
  rw [← (h k hk).2, ← (h' l hl).2, hkl]

lemma stored_agree {V : ℕ → Byte} {b : ℕ} {cs : List Byte} (h : Agree a bs b cs)
    (hV : ∀ k < bs.length, V (a + k) = bs.getD k 0) :
    ∀ k < bs.length, stored V b cs.length cs (a + k) = bs.getD k 0 := by
  intro k hk
  by_cases hin : b ≤ a + k ∧ a + k < b + cs.length
  · rw [stored_in hin]
    exact (h k hk (a + k - b) (by omega) (by omega)).symm
  · rw [stored_out hin]
    exact hV k hk

lemma stored_self {V : ℕ → Byte} : ∀ k < bs.length, stored V a bs.length bs (a + k) =
    bs.getD k 0 := by
  intro k hk
  rw [stored_in (by omega), Nat.add_sub_cancel_left]

/-- A call that reaped a child is whole when the bytes it left are. -/
lemma reaped_iff (hz : zombieChild t i = some j) (hre : Reaps t i addr) {r : Option ℤ}
    (hs : Sees L t i (withTimes (withStatus t i j addr) t i addr1 addr2 (childTimes (q j))) t')
    (hr : r = some (if reach t i addr1 4 = 4 ∧ reach t i addr2 4 = 4 then (t.proc j).pid else -1))
    (hp : t'.proc = Function.update t.proc j unusedProc) :
    Atomic q i addr addr1 addr2 t r t' ↔ Whole q i addr addr1 addr2 v t := by
  obtain ⟨hpar, hzom⟩ := zombieChild_some hz
  have hl : ∀ x, (leBytes 4 x).length = 4 := leBytes_length 4
  have hfreed : t'.proc j = unusedProc := by rw [hp, Function.update_self]
  unfold Whole
  rw [hz]
  dsimp only
  rw [if_pos hre]
  constructor
  · rintro (h | ⟨k, ret, -, hk⟩ | ⟨-, hf⟩)
    · rw [hr] at h
      cases h
    · -- the slot freed is the one found
      obtain rfl : j = k := by
        by_contra hne
        have h1 := congrFun hk.freed j
        rw [hfreed, Function.update_of_ne hne] at h1
        rw [← h1] at hzom
        cases hzom
      have h1 := (hs.holds_iff.mp hk.wtime).1
      have h2 := (hs.holds_iff.mp hk.rtime).1
      rw [hl] at h1 h2
      exact ⟨⟨h1, h2⟩, hk.wtime.agree hk.rtime, fun h0 =>
        ⟨(hk.status h0).agree hk.wtime, (hk.status h0).agree hk.rtime⟩⟩
    · have h1 := congrFun hf.proc j
      rw [hfreed] at h1
      rw [← h1] at hzom
      cases hzom
  · rintro ⟨⟨h1, h2⟩, hwr, hx⟩
    refine Or.inr (Or.inl ⟨j, _, hr, hpar, hzom, if_pos ⟨h1, h2⟩, hp, fun h0 => ?_, ?_, ?_⟩)
    · have h3 : reach t i addr 4 = 4 := hre.resolve_left h0
      unfold withTimes withStatus at hs
      rw [if_neg h0, h1, h2, h3] at hs
      dsimp only at hs
      rw [if_pos rfl] at hs
      refine hs.holds_iff.mpr ⟨by unfold status; rw [hl, h3], ?_⟩
      exact stored_agree (hx h0).2 (stored_agree (hx h0).1 stored_self)
    · unfold withTimes at hs
      rw [h1, h2] at hs
      dsimp only at hs
      rw [if_pos rfl] at hs
      refine hs.holds_iff.mpr ⟨by rw [hl, h1], ?_⟩
      exact stored_agree hwr stored_self
    · unfold withTimes at hs
      rw [h1, h2] at hs
      dsimp only at hs
      rw [if_pos rfl] at hs
      exact hs.holds_iff.mpr ⟨by rw [hl, h2], stored_self⟩

lemma failed_iff {V : ℕ → Byte} {r : Option ℤ} (hs : Sees L t i (withTimes V t i addr1 addr2 v) t')
    (hr : r = some (-1)) (hp : t'.proc = t.proc) :
    Atomic q i addr addr1 addr2 t r t' ↔ Unseen t i addr1 addr2 V v := by
  constructor
  · rintro (h | ⟨k, ret, -, hk⟩ | ⟨-, hf⟩)
    · rw [hr] at h
      cases h
    · have h1 := congrFun hk.freed k
      have h2 := hk.zombie
      rw [hp, Function.update_self] at h1
      rw [h1] at h2
      cases h2
    · intro va hin hva
      rw [← hs.bytes va hva]
      exact hf.quiet va hin hva
  · intro hu
    refine Or.inr (Or.inr ⟨hr, hp, fun va hin hva => ?_⟩)
    rw [hs.bytes va hva]
    exact hu va hin hva

lemma atomic_iff (h : Inv L t T) (hrun : (t.proc i).state = .RUNNABLE)
    (q : Fin NPROC → Pbs.Proc) (addr addr1 addr2 : ℕ) (v : Times) :
    wp (sys_waitx q i addr addr1 addr2 v) (Atomic q i addr addr1 addr2 t) (fun _ => False) t ↔
      Whole q i addr addr1 addr2 v t := by
  rcases hz : zombieChild t i with _ | j
  · obtain ⟨r, t2, hcall, hr⟩ := wp_returns
      (@sys_waitx_none L t T i (fun _ => False) q addr addr1 addr2 v h hrun hz)
    rw [wp_of_run hcall]
    by_cases hg : GivesUp t i
    · rw [if_pos hg] at hr
      rw [failed_iff hr.2.2 hr.1 hr.2.1]
      unfold Whole
      rw [hz]
      exact ⟨fun hu _ => hu, fun hw => hw hg⟩
    · rw [if_neg hg] at hr
      refine iff_of_true (Or.inl hr) ?_
      unfold Whole
      rw [hz]
      exact fun hc => absurd hc hg
  · obtain ⟨r, t2, hcall, hs, hr⟩ := wp_returns
      (@sys_waitx_zombie L t T i j (fun _ => False) q addr addr1 addr2 v h hrun hz)
    rw [wp_of_run hcall]
    by_cases hre : Reaps t i addr
    · rw [if_pos hre] at hr
      exact reaped_iff hz hre hs hr.1 hr.2
    · rw [if_neg hre] at hr
      rw [failed_iff hs hr.1 hr.2]
      unfold Whole
      rw [hz]
      dsimp only
      rw [if_neg hre]

/-- **When `waitx` is all or nothing for its caller**: in every reachable state, for every process
that may run, all addresses and whatever the stack holds, exactly when a child that can be reaped
has all its results copied out without overlap, and otherwise the copies of the times do not
show. -/
theorem sys_waitx_atomic_iff (L : Layout) (m : Mem) (ops : List Op) :
    wp (system L ops) (fun _ t => ∀ i, (t.proc i).state = .RUNNABLE → ∀ q addr addr1 addr2 v,
      (wp (sys_waitx q i addr addr1 addr2 v) (Atomic q i addr addr1 addr2 t) (fun _ => False) t ↔
        Whole q i addr addr1 addr2 v t)) Reachable (powerOn m) := by
  refine wp_post (system_spec L m ops) ?_
  rintro _ t ⟨T, h⟩ i hrun q addr addr1 addr2 v
  exact atomic_iff h hrun q addr addr1 addr2 v

/-! ### A process without children -/

/-- No process has a parent. -/
def Orphans (t : Kern) : Prop := ∀ j, (t.proc j).parent = none

lemma orphans_vm {α : Type} (m : K α) (h : Orphans t) :
    wp (vm m) (fun _ t' => Orphans t') (fun _ => True) t := by
  rw [wp_vm]
  exact wp_post wp_true fun _ _ _ => h

lemma Orphans.set (h : Orphans t) {p : Proc} (hp : p.parent = none) :
    Orphans { t with proc := Function.update t.proc j p } := by
  intro k
  dsimp only
  by_cases hk : k = j
  · rw [hk, Function.update_self]
    exact hp
  · rw [Function.update_of_ne hk]
    exact h k

lemma orphans_freeproc (h : Orphans t) :
    wp (freeproc j) (fun _ t' => Orphans t') (fun _ => True) t := by
  unfold freeproc
  have hlast : ∀ t1, Orphans t1 → wp (if (t.proc j).pagetable ≠ 0 then do
      vm (proc_freepagetable (t.proc j).pagetable (t.proc j).sz)
      setProc j unusedProc
    else setProc j unusedProc) (fun _ t' => Orphans t') (fun _ => True) t1 := by
    intro t1 h1
    split_ifs
    · rw [wp_bind]
      refine wp_post (orphans_vm _ h1) fun _ t2 h2 => ?_
      rw [wp_setProc]
      exact h2.set rfl
    · rw [wp_setProc]
      exact h1.set rfl
  rw [wp_bind, wp_get]
  by_cases htf : (t.proc j).trapframe ≠ 0
  · rw [if_pos htf, wp_bind]
    exact wp_post (orphans_vm _ h) fun _ t1 h1 => hlast t1 h1
  · rw [if_neg htf]
    exact hlast t h

lemma orphans_allocproc (h : Orphans t) :
    wp (allocproc L) (fun _ t' => Orphans t') (fun _ => True) t := by
  unfold allocproc
  rw [wp_bind, wp_get]
  rcases freeSlot t with _ | j
  · exact h
  · dsimp only
    rw [wp_bind, wp_set, wp_bind]
    refine wp_post (orphans_vm _ (t := { t with nextpid := CInt.int (t.nextpid + 1) }) h)
      fun tf t1 h1 => ?_
    split_ifs
    · rw [wp_bind, wp_setProc, wp_bind]
      exact wp_post (orphans_freeproc (h1.set (h j))) fun _ t2 h2 => h2
    · rw [wp_bind]
      refine wp_post (orphans_vm _ h1) fun pt t2 h2 => ?_
      rw [wp_bind, wp_setProc]
      split_ifs
      · rw [wp_bind]
        exact wp_post (orphans_freeproc (h2.set (h j))) fun _ t3 h3 => h3
      · exact h2.set (h j)

lemma orphans_boot (m : Mem) :
    wp (boot L) (fun _ t => Orphans t) (fun _ => True) (powerOn m) := by
  have hown : ∀ n t, Orphans t → wp (ownLoop n) (fun _ t' => Orphans t') (fun _ => True) t := by
    intro n
    induction n with
    | zero => intro t h; exact h
    | succ n ih =>
      intro t h
      unfold ownLoop own_alloc
      rw [wp_bind, wp_bind]
      refine wp_post (orphans_vm _ h) fun p t1 h1 => ?_
      split_ifs
      · exact ih t1 h1
      · rw [wp_modify]
        exact ih _ h1
  unfold boot
  rw [wp_bind]
  refine wp_post (orphans_vm _ fun _ => rfl) fun _ t1 h1 => ?_
  rw [wp_bind]
  refine wp_post (hown _ t1 h1) fun _ t2 h2 => ?_
  unfold userinit
  rw [wp_bind]
  refine wp_post (orphans_allocproc h2) fun r t3 h3 => ?_
  rcases r with _ | i
  · trivial
  · dsimp only
    rw [wp_bind, wp_get, wp_bind, wp_set, wp_bind]
    refine wp_post (orphans_vm _ (t := { t3 with initproc := some i }) h3) fun _ t4 h4 => ?_
    rw [wp_bind]
    refine wp_post (orphans_vm _ h4) fun _ t5 h5 => ?_
    rw [wp_bind]
    refine wp_post (orphans_vm _ h5) fun _ t6 h6 => ?_
    rw [wp_setProc]
    exact h6.set (h3 i)

/-- The first process calls `waitx` without ever having created a child, with address `0`, where its
code is, for the waiting time: the call fails, and has overwritten the code with what was on the
stack. -/
theorem waitx_fails_loudly :
    wp (system sampleLayout []) (fun _ t => (t.proc initSlot).state = .RUNNABLE ∧
      ∃ v, ¬ wp (sys_waitx (fun _ => Pbs.zeroProc) initSlot 0 0 MAXVA v)
        (Atomic (fun _ => Pbs.zeroProc) initSlot 0 0 MAXVA t) (fun _ => False) t)
      (fun _ => False) (powerOn fun _ => 0) := by
  have hroom : PGROUNDUP sampleLayout.endp + (sampleLayout.nkern + 100) * PGSIZE ≤ PHYSTOP := by
    unfold sampleLayout PHYSTOP KERNBASE PGROUNDUP u64 PGSIZE
    norm_num
  unfold system
  rw [wp_bind]
  refine wp_post (wp_join (orphans_boot _) (boot_spec _ (by omega) hroom)) ?_
  rintro _ t ⟨horph, T, i, hb, -⟩
  have hslot : i = initSlot := Fin.ext hb.slot
  subst hslot
  rw [Kernel.run, wp_pure]
  have hi := Inv.live hb.inv (i := initSlot) (by rw [hb.state]; simp)
  have hz : zombieChild t initSlot = none := by
    rcases hz : zombieChild t initSlot with _ | j
    · rfl
    · have := (zombieChild_some hz).1
      rw [horph j] at this
      cases this
  have hg : GivesUp t initSlot := Or.inl fun j => by rw [horph j]; simp
  have hmap : Mapped t initSlot 0 := by
    obtain ⟨p, hp, h0⟩ := hb.leaf
    rw [mapped_iff hb.inv hi, Nat.zero_div, h0]
    refine ⟨by unfold MAXVA; norm_num, (newEntry_user hp perm_first).valid, ?_⟩
    rw [has_U, newEntry_bit hp (by omega)]
    decide
  refine ⟨hb.state, ⟨(byteAt t initSlot 0 + 1).toNat, 0⟩, fun hwp => ?_⟩
  have hw := (atomic_iff hb.inv hb.state _ 0 0 MAXVA _).mp hwp
  unfold Whole at hw
  rw [hz] at hw
  have hun := hw hg 0 (Or.inl ⟨le_rfl, by norm_num⟩) hmap
  have hone : 0 < reach t initSlot 0 4 := by
    have hok : 0 < MAXVA ∧ UserOk ((tabOf t initSlot).leaf (0 / PGSIZE)) := hmap
    unfold reach mappedLen
    rw [if_pos hok]
    exact Nat.succ_pos _
  -- the copy of the running time reaches nothing
  have hfar : ∀ V m bs, stored V MAXVA m bs 0 = V 0 := fun V m bs =>
    stored_out fun hc => absurd hc.1 (by unfold MAXVA; norm_num)
  unfold withTimes at hun
  dsimp only at hun
  rw [apply_ite (fun f : ℕ → Byte => f 0), hfar, ite_self, stored_in ⟨le_rfl, by omega⟩] at hun
  generalize byteAt t initSlot 0 = b at hun
  change BitVec.ofNat 8 ((b + 1).toNat / 256 ^ 0) = b at hun
  rw [pow_zero, Nat.div_one, BitVec.ofNat_toNat, BitVec.setWidth_eq] at hun
  bv_omega

end Xv6.Waitx
