import Mathlib.Tactic
import Xv6.ByteMem

/-!
The constants and macros of `riscv.h`, `memlayout.h` and `param.h`.

Addresses and sizes are natural numbers and C's 64-bit wrap-around is written out with `u64`;
page-table entries are 64-bit words, so that the shifts and masks are the source's own.
-/

namespace Xv6.Riscv

open Xv6.ByteMem

@[irreducible] def PGSIZE : ℕ := 4096
@[irreducible] def KERNBASE : ℕ := 0x80000000
@[irreducible] def PHYSTOP : ℕ := KERNBASE + 128 * 1024 * 1024
/-- One beyond the highest possible virtual address. -/
@[irreducible] def MAXVA : ℕ := 2 ^ 38
@[irreducible] def TRAMPOLINE : ℕ := MAXVA - PGSIZE
@[irreducible] def TRAPFRAME : ℕ := TRAMPOLINE - PGSIZE
@[irreducible] def NPROC : ℕ := 64
@[irreducible] def MAXARG : ℕ := 32

lemma NPROC_pos : 0 < NPROC := by
  unfold NPROC
  norm_num

lemma one_lt_NPROC : 1 < NPROC := by
  unfold NPROC
  norm_num

/-- A value of type `uint64`. -/
def u64 (x : ℕ) : ℕ := x % 2 ^ 64
/-- Subtraction of two values of type `uint64`. -/
def sub64 (a b : ℕ) : ℕ := u64 (a + 2 ^ 64 - b)
/-- A value converted to `uint`. -/
def u32 (x : ℕ) : ℕ := x % 2 ^ 32
/-- A value converted to `int`. -/
def toInt (x : ℕ) : ℤ := if u32 x < 2 ^ 31 then u32 x else (u32 x : ℤ) - 2 ^ 32
/-- An `int` converted to `uint64`. -/
def intU64 (n : ℤ) : ℕ := (n % 2 ^ 64).toNat

def PGROUNDUP (sz : ℕ) : ℕ := u64 (sz + (PGSIZE - 1)) / PGSIZE * PGSIZE
def PGROUNDDOWN (a : ℕ) : ℕ := a / PGSIZE * PGSIZE

/-! ### Page-table entries -/

def PTE_V : Word := 1#64 <<< 0
def PTE_R : Word := 1#64 <<< 1
def PTE_W : Word := 1#64 <<< 2
def PTE_X : Word := 1#64 <<< 3
def PTE_U : Word := 1#64 <<< 4
def PTE_COW : Word := 1#64 <<< 5

def PA2PTE (pa : ℕ) : Word := (BitVec.ofNat 64 pa >>> 12) <<< 10
def PTE2PA (pte : Word) : ℕ := ((pte >>> 10) <<< 12).toNat
def PTE_FLAGS (pte : Word) : Word := pte &&& 0x3FF#64
/-- The 9-bit index of `va` into a table of the given level. -/
def PX (level va : ℕ) : ℕ := va / 2 ^ (12 + 9 * level) % 512

/-- C's truth value of `pte & f`. -/
def has (pte f : Word) : Bool := pte &&& f != 0

lemma has_bit (e : Word) (k : ℕ) (hk : k < 64) : has e (1#64 <<< k) = e.getLsbD k := by
  have h : e &&& (1#64 <<< k) = if e.getLsbD k then BitVec.twoPow 64 k else 0#64 := by
    rw [← BitVec.and_twoPow]; rfl
  unfold has
  rw [h]
  cases hb : e.getLsbD k
  · simp
  · have : BitVec.twoPow 64 k ≠ 0#64 := fun h0 => by
      have := congrArg (fun x => BitVec.getLsbD x k) h0
      simp [hk] at this
    simp [this]

lemma has_V (e : Word) : has e PTE_V = e.getLsbD 0 := has_bit e 0 (by omega)
lemma has_R (e : Word) : has e PTE_R = e.getLsbD 1 := has_bit e 1 (by omega)
lemma has_W (e : Word) : has e PTE_W = e.getLsbD 2 := has_bit e 2 (by omega)
lemma has_X (e : Word) : has e PTE_X = e.getLsbD 3 := has_bit e 3 (by omega)
lemma has_U (e : Word) : has e PTE_U = e.getLsbD 4 := has_bit e 4 (by omega)
lemma has_COW (e : Word) : has e PTE_COW = e.getLsbD 5 := has_bit e 5 (by omega)

lemma has_or (e f g : Word) : has e (f ||| g) = (has e f || has e g) := by
  unfold has
  rw [BitVec.and_or_distrib_left, Bool.eq_iff_iff]
  have : e &&& f ||| e &&& g = 0#64 ↔ e &&& f = 0#64 ∧ e &&& g = 0#64 := BitVec.or_eq_zero_iff
  simp only [bne_iff_ne, ne_eq, Bool.or_eq_true]
  exact (not_congr this).trans not_and_or

/-- A word that only sets flag bits. -/
def IsFlags (f : Word) : Prop := ∀ k, 10 ≤ k → f.getLsbD k = false

lemma getLsbD_mask (k : ℕ) : (0x3FF#64).getLsbD k = decide (k < 10) := by
  rw [show (0x3FF#64) = BitVec.ofNat 64 (2 ^ 10 - 1) from rfl, BitVec.getLsbD_ofNat,
    Nat.testBit_two_pow_sub_one]
  by_cases h : k < 10 <;> simp [h]
  omega

lemma getLsbD_flags (e : Word) (k : ℕ) :
    (PTE_FLAGS e).getLsbD k = (e.getLsbD k && decide (k < 10)) := by
  unfold PTE_FLAGS
  rw [BitVec.getLsbD_and, getLsbD_mask]

lemma isFlags_flags (e : Word) : IsFlags (PTE_FLAGS e) := by
  intro k hk
  rw [getLsbD_flags, decide_eq_false (by omega), Bool.and_false]

lemma getLsbD_pa2pte {pa : ℕ} (hpa : pa < 2 ^ 64) (k : ℕ) :
    (PA2PTE pa).getLsbD k = (decide (10 ≤ k) && pa.testBit (k + 2) && decide (k < 64)) := by
  have hhigh : 64 ≤ k + 2 → pa.testBit (k + 2) = false := fun h =>
    Nat.testBit_lt_two_pow (lt_of_lt_of_le hpa (Nat.pow_le_pow_right (by norm_num) h))
  unfold PA2PTE
  rw [BitVec.getLsbD_shiftLeft, BitVec.getLsbD_ushiftRight, BitVec.getLsbD_ofNat]
  rcases Nat.lt_or_ge k 10 with h | h
  · simp [h]
  · rw [show 12 + (k - 10) = k + 2 by omega]
    rcases Nat.lt_or_ge (k + 2) 64 with h' | h'
    · simp [h, h', show k < 64 by omega]
    · simp [hhigh h']

lemma pte2pa_mk {pa : ℕ} {f : Word} (hpa : pa < 2 ^ 64) (hal : pa % PGSIZE = 0)
    (hf : IsFlags f) : PTE2PA (PA2PTE pa ||| f) = pa := by
  have hlow : ∀ i < 12, pa.testBit i = false := by
    intro i hi
    have hd : pa = 2 ^ 12 * (pa / 4096) := by unfold PGSIZE at hal; omega
    rw [hd, Nat.testBit_two_pow_mul, decide_eq_false (by omega), Bool.false_and]
  have hb : ((PA2PTE pa ||| f) >>> 10) <<< 12 = BitVec.ofNat 64 pa := by
    apply BitVec.eq_of_getLsbD_eq
    intro i hi
    rw [BitVec.getLsbD_shiftLeft, BitVec.getLsbD_ushiftRight, BitVec.getLsbD_or,
      getLsbD_pa2pte hpa, BitVec.getLsbD_ofNat]
    rcases Nat.lt_or_ge i 12 with h | h
    · simp [h, hlow i h]
    · rw [hf (10 + (i - 12)) (by omega), show 10 + (i - 12) + 2 = i by omega]
      simp [hi, show ¬ i < 12 by omega]
      omega
  unfold PTE2PA
  rw [hb, BitVec.toNat_ofNat, Nat.mod_eq_of_lt hpa]

lemma getLsbD_mk {pa : ℕ} {f : Word} (hpa : pa < 2 ^ 64) {k : ℕ} (hk : k < 10) :
    (PA2PTE pa ||| f).getLsbD k = f.getLsbD k := by
  rw [BitVec.getLsbD_or, getLsbD_pa2pte hpa, decide_eq_false (by omega)]
  simp

lemma flags_mk {pa : ℕ} {f : Word} (hpa : pa < 2 ^ 64) (hf : IsFlags f) :
    PTE_FLAGS (PA2PTE pa ||| f) = f := by
  apply BitVec.eq_of_getLsbD_eq
  intro k _
  rw [getLsbD_flags]
  rcases Nat.lt_or_ge k 10 with h | h
  · simp [getLsbD_mk hpa h, h]
  · simp [hf k h, show ¬ k < 10 by omega]

end Xv6.Riscv
