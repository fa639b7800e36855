import Xv6.SetPriority

/-!
The user program `setpriority`, from the text of its arguments to the process table: `atoi`, the
argument registers, `argint` and the system call. The program passes the priority first, the kernel
takes the pid first.
-/

namespace Xv6.SetPriorityCommand

open Xv6.Riscv Xv6.Pbs Xv6.SetPriority

/-! ### User side -/

/-- The loop of `atoi`; a string ends with its list. -/
def atoiLoop : List Char → BitVec 32 → BitVec 32
  | [], n => n
  | c :: s, n =>
    if '0' ≤ c ∧ c ≤ '9' then
      atoiLoop s (n * 10 + BitVec.ofNat 32 c.toNat - BitVec.ofNat 32 '0'.toNat)
    else n

def atoi (s : String) : BitVec 32 := atoiLoop s.toList 0

/-- The argument registers a process traps with. -/
structure Trapframe where
  a0 : BitVec 64
  a1 : BitVec 64
  a2 : BitVec 64
  a3 : BitVec 64
  a4 : BitVec 64
  a5 : BitVec 64

/-- The stub of a system call with two `int` arguments; the other registers are as they were. -/
def ecall (x y : BitVec 32) (tf : Trapframe) : Trapframe :=
  { tf with a0 := x.signExtend 64, a1 := y.signExtend 64 }

/-! ### Kernel side -/

def argraw (tf : Trapframe) : Fin 6 → BitVec 64
  | 0 => tf.a0
  | 1 => tf.a1
  | 2 => tf.a2
  | 3 => tf.a3
  | 4 => tf.a4
  | 5 => tf.a5

def argint (n : Fin 6) (tf : Trapframe) : BitVec 32 := (argraw tf n).setWidth 32

def sys_setpriority (tf : Trapframe) (t : Fin NPROC → Proc) : Outcome :=
  let pid := argint 0 tf
  let priority := argint 1 tf
  SetPriority.sys_setpriority pid priority t

/-! ### The program -/

/-- How the program ends: its exit status, its messages and the process table. -/
structure Exit where
  status : ℤ
  stderr : List String
  proc : Fin NPROC → Proc

def main (argv : List String) (tf : Trapframe) (t : Fin NPROC → Proc) : Exit :=
  match argv with
  | [_, s1, s2] =>
    let priority := atoi s1
    let pid := atoi s2
    ⟨0, [], (sys_setpriority (ecall priority pid tf) t).proc⟩
  | _ => ⟨1, ["usage : setpriority priority pid\n"], t⟩

variable {s : List Char} {n : BitVec 32}

lemma atoiLoop_cons {c : Char} (hc : '0' ≤ c ∧ c ≤ '9') : atoiLoop (c :: s) n =
    atoiLoop s (n * 10 + BitVec.ofNat 32 c.toNat - BitVec.ofNat 32 '0'.toNat) := if_pos hc

lemma atoiLoop_append {l : List Char} (hl : ∀ c ∈ l, c.isDigit = true) :
    atoiLoop (l ++ s) n = atoiLoop s (atoiLoop l n) := by
  induction l generalizing n with
  | nil => rfl
  | cons c l ih =>
    have hc : '0' ≤ c ∧ c ≤ '9' := by
      have := hl c List.mem_cons_self
      simpa [Char.isDigit, Char.le_def] using this
    rw [List.cons_append, atoiLoop_cons hc, atoiLoop_cons hc]
    exact ih fun d hd => hl d (List.mem_cons_of_mem _ hd)

lemma atoiLoop_digit {d : ℕ} (hd : d < 10) :
    atoiLoop [d.digitChar] n = n * 10 + BitVec.ofNat 32 d := by
  have hc : '0' ≤ d.digitChar ∧ d.digitChar ≤ '9' := by
    interval_cases d <;> decide
  have hval : BitVec.ofNat 32 d.digitChar.toNat = BitVec.ofNat 32 d + BitVec.ofNat 32 '0'.toNat := by
    interval_cases d <;> decide
  rw [atoiLoop_cons hc, hval, ← BitVec.add_assoc, BitVec.add_sub_cancel]
  rfl

lemma atoi_toString (p : ℕ) : atoi (toString p) = BitVec.ofNat 32 p := by
  unfold atoi
  rw [Nat.toString_eq_repr, Nat.toList_repr]
  induction p using Nat.strong_induction_on with
  | _ p ih =>
    rw [Nat.toDigits_eq_if (by norm_num)]
    split_ifs with hp
    · rw [atoiLoop_digit hp]
      simp
    · rw [atoiLoop_append fun c hc => Nat.isDigit_of_mem_toDigits (by norm_num) (by norm_num) hc,
        ih (p / 10) (by omega), atoiLoop_digit (Nat.mod_lt p (by norm_num))]
      apply BitVec.eq_of_toNat_eq
      have h10 : (10 : BitVec 32).toNat = 10 := rfl
      simp only [BitVec.toNat_add, BitVec.toNat_mul, BitVec.toNat_ofNat, h10]
      omega

lemma argint_ecall {x y : BitVec 32} {tf : Trapframe} :
    argint 0 (ecall x y tf) = x ∧ argint 1 (ecall x y tf) = y := by
  constructor <;>
  · change (BitVec.signExtend 64 _).setWidth 32 = _
    ext i hi
    rw [BitVec.getElem_setWidth, BitVec.getLsbD_eq_getElem (by omega), BitVec.getElem_signExtend,
      dif_pos hi]

/-! ### What the command does -/

/-- The process with the pid ends with the static priority, the other processes keep theirs. -/
def SetsOnly (T : Table) (i : Fin NPROC) (p : ℕ) (e : Exit) : Prop :=
  (e.proc i).pbs_static_priority = p ∧
    ∀ j, j ≠ i → (T.proc j).state ≠ .UNUSED →
      (e.proc j).pbs_static_priority = (T.proc j).pbs_static_priority

/-- The two arguments are the same number, or everything is already as the swapped call leaves it:
the process of pid `q` has static priority `p`, and that of pid `p` has static priority `q`. -/
def SwapHarmless (T : Table) (i : Fin NPROC) (p q : ℕ) : Prop :=
  p = q ∨ (T.proc i).pbs_static_priority = p ∧
    ∀ j, (T.proc j).state ≠ .UNUSED → (T.proc j).pid = p → (T.proc j).pbs_static_priority = q

variable {T : Table} {i : Fin NPROC} {p q : ℕ}

lemma static_eq (a b : BitVec 32) (t : Fin NPROC → Proc) (j : Fin NPROC) :
    ((SetPriority.sys_setpriority a b t).proc j).pbs_static_priority =
      (PbsRuns.setpriority a.toInt b.toInt (t j)).pbs_static_priority := by
  unfold SetPriority.sys_setpriority
  dsimp only
  rw [← setpriority_proc]
  split_ifs with hret
  · split
    · rename_i k _
      dsimp only
      by_cases hj : j = k
      · rw [hj, Function.update_self]
        rfl
      · rw [Function.update_of_ne hj]
    · rfl
  · rfl

lemma toInt_ofNat (hp : p < 2 ^ 31) : (BitVec.ofNat 32 p).toInt = p := by
  rw [BitVec.toInt_eq_toNat_of_lt] <;> rw [BitVec.toNat_ofNat, Nat.mod_eq_of_lt (by omega)]
  omega

lemma main_static (hp : p < 2 ^ 31) (hq : q < 2 ^ 31) (arg0 : String) (tf : Trapframe)
    (t : Fin NPROC → Proc) (j : Fin NPROC) :
    ((main [arg0, toString p, toString q] tf t).proc j).pbs_static_priority =
      if (t j).pid = p then (q : ℤ) else (t j).pbs_static_priority := by
  unfold main sys_setpriority
  dsimp only
  rw [atoi_toString, atoi_toString, argint_ecall.1, argint_ecall.2, static_eq, toInt_ofNat hp,
    toInt_ofNat hq]
  unfold PbsRuns.setpriority
  split_ifs <;> rfl

/-- **When the command does what its usage line says**: exactly when swapping its arguments makes no
difference. -/
theorem command_iff (T : Table) (arg0 : String) (tf : Trapframe) (i : Fin NPROC) (p q : ℕ)
    (hp : p < 2 ^ 31) (hq : q < 2 ^ 31) (hlive : (T.proc i).state ≠ .UNUSED)
    (hpid : (T.proc i).pid = q) :
    SetsOnly T i p (main [arg0, toString p, toString q] tf T.proc) ↔ SwapHarmless T i p q := by
  unfold SetsOnly SwapHarmless
  simp only [main_static hp hq, hpid]
  by_cases hpq : p = q
  · subst hpq
    refine iff_of_true ⟨if_pos rfl, fun j hj hj' => if_neg fun hjp => hj ?_⟩ (Or.inl rfl)
    exact T.unique j i hj' hlive (hjp.trans hpid.symm)
  · have hqp : ¬(q : ℤ) = p := by omega
    rw [if_neg hqp]
    constructor
    · rintro ⟨hi, hoth⟩
      refine Or.inr ⟨hi, fun j hused hj => ?_⟩
      have hji : j ≠ i := fun h => hqp (by rw [← hpid, ← hj, h])
      have := hoth j hji hused
      rw [if_pos hj] at this
      exact this.symm
    · rintro (h | ⟨hi, hoth⟩)
      · exact absurd h hpq
      · refine ⟨hi, fun j _ hused => ?_⟩
        split_ifs with hj
        · exact (hoth j hused hj).symm
        · rfl

/-- No register holds anything. -/
def noRegs : Trapframe := ⟨0, 0, 0, 0, 0, 0⟩

/-- `setpriority 1 1` sets the priority of process 1, and `setpriority 50 2` finds process 2 at 50. -/
theorem command_iff_swapped :
    SetsOnly oneTick PbsRuns.slot0 1
      (main ["setpriority", toString 1, toString 1] noRegs oneTick.proc) ∧
    SetsOnly newChild slot1 50 (main ["setpriority", toString 50, toString 2] noRegs newChild.proc) := by
  constructor
  · exact (command_iff oneTick "setpriority" noRegs PbsRuns.slot0 1 1 (by norm_num) (by norm_num)
      (by decide) (by decide)).mpr (Or.inl rfl)
  · exact (command_iff newChild "setpriority" noRegs slot1 50 2 (by norm_num) (by norm_num)
      (by decide) (by decide)).mpr (Or.inr ⟨by decide, by decide +kernel⟩)

/-- `setpriority 60 2` leaves the process of pid 2 at 50. -/
theorem command_misses : ¬∀ (T : Table) (tf : Trapframe) (i : Fin NPROC) (p q : ℕ), p < 2 ^ 31 →
    q < 2 ^ 31 → (T.proc i).state ≠ .UNUSED → (T.proc i).pid = q →
    SetsOnly T i p (main ["setpriority", toString p, toString q] tf T.proc) := by
  intro h
  have hs := (h newChild noRegs slot1 60 2 (by norm_num) (by norm_num) (by decide) (by decide)).1
  rw [main_static (by norm_num) (by norm_num), if_neg (by decide)] at hs
  exact absurd hs (by decide)

end Xv6.SetPriorityCommand
