import Mathlib.Tactic.NormNum

/-!
The C types `int` and `uint`: an expression is computed modulo `2 ^ 32`, into the signed range
for `int`.
-/

namespace Xv6.CInt

/-- The value an `int` expression takes. -/
def int (x : ℤ) : ℤ := x.bmod (2 ^ 32)

/-- The value a `uint` expression takes. -/
def uint (x : ℕ) : ℕ := x % 2 ^ 32

/-- The value is one of type `int`. -/
def InInt (x : ℤ) : Prop := -2 ^ 31 ≤ x ∧ x < 2 ^ 31

instance (x : ℤ) : Decidable (InInt x) := inferInstanceAs (Decidable (_ ∧ _))

lemma int_of {x : ℤ} (h : InInt x) : int x = x := by
  unfold InInt at h
  unfold int
  exact Int.bmod_eq_of_le (by norm_num; omega) (by norm_num; omega)

lemma int_inInt (x : ℤ) : InInt (int x) := by
  unfold int InInt
  have h1 := Int.le_bmod (x := x) (m := 2 ^ 32) (by norm_num)
  have h2 := Int.bmod_lt (x := x) (m := 2 ^ 32) (by norm_num)
  norm_num at h1 h2 ⊢
  omega

end Xv6.CInt
