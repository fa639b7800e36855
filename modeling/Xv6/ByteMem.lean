import Mathlib.Algebra.Order.Ring.Nat
import Mathlib.Tactic.Common
import Mathlib.Data.List.GetD

/-!
A byte-addressed memory with 64-bit little-endian loads and stores and the block operations
of the C library. Every operation comes with what it leaves unchanged; a load depends only on
the eight bytes it reads.
-/

namespace Xv6.ByteMem

abbrev Byte := BitVec 8
abbrev Word := BitVec 64
abbrev Mem := ℕ → Byte

/-- The eight bytes at `a`, least significant first. -/
def ld64 (m : Mem) (a : ℕ) : Word :=
  m (a + 7) ++ m (a + 6) ++ m (a + 5) ++ m (a + 4) ++ m (a + 3) ++ m (a + 2) ++ m (a + 1) ++ m a

def st64 (m : Mem) (a : ℕ) (v : Word) : Mem := fun x =>
  if a ≤ x ∧ x < a + 8 then v.extractLsb' (8 * (x - a)) 8 else m x

/-- `n` bytes at `a` become `c`. -/
def fill (m : Mem) (a : ℕ) (c : Byte) (n : ℕ) : Mem := fun x =>
  if a ≤ x ∧ x < a + n then c else m x

/-- The `n` bytes at `src`, as they were before, go to `dst`. -/
def move (m : Mem) (dst src n : ℕ) : Mem := fun x =>
  if dst ≤ x ∧ x < dst + n then m (src + (x - dst)) else m x

/-- The bytes `bs` go to `a`. -/
def put (m : Mem) (a : ℕ) (bs : List Byte) : Mem := fun x =>
  if a ≤ x ∧ x < a + bs.length then bs.getD (x - a) 0 else m x

/-- The `n` bytes at `a`. -/
def bytes (m : Mem) (a n : ℕ) : List Byte := (List.range n).map fun i => m (a + i)

variable {m m' : Mem} {a b n : ℕ} {v : Word}

lemma ld64_congr (h : ∀ x, a ≤ x → x < a + 8 → m' x = m x) : ld64 m' a = ld64 m a := by
  unfold ld64
  rw [h a (by omega) (by omega), h (a + 1) (by omega) (by omega),
    h (a + 2) (by omega) (by omega), h (a + 3) (by omega) (by omega),
    h (a + 4) (by omega) (by omega), h (a + 5) (by omega) (by omega),
    h (a + 6) (by omega) (by omega), h (a + 7) (by omega) (by omega)]

lemma st64_in (m : Mem) (a : ℕ) (v : Word) {k : ℕ} (hk : k < 8) :
    st64 m a v (a + k) = v.extractLsb' (8 * k) 8 := by
  unfold st64
  rw [if_pos (by omega), show a + k - a = k by omega]

lemma st64_out {x : ℕ} (h : x < a ∨ a + 8 ≤ x) : st64 m a v x = m x := by
  unfold st64
  rw [if_neg (by omega)]

@[simp] lemma ld64_st64 (m : Mem) (a : ℕ) (v : Word) : ld64 (st64 m a v) a = v := by
  have h0 : st64 m a v a = v.extractLsb' 0 8 := by simpa using st64_in m a v (k := 0) (by omega)
  unfold ld64
  rw [st64_in _ _ _ (by omega), st64_in _ _ _ (by omega), st64_in _ _ _ (by omega),
    st64_in _ _ _ (by omega), st64_in _ _ _ (by omega), st64_in _ _ _ (by omega),
    st64_in _ _ _ (by omega), h0]
  apply BitVec.eq_of_getLsbD_eq
  intro i hi
  simp only [BitVec.getLsbD_append, BitVec.getLsbD_extractLsb']
  split_ifs <;> (rw [decide_eq_true (by omega), Bool.true_and]; congr 1; omega)

lemma ld64_st64_ne (h : b + 8 ≤ a ∨ a + 8 ≤ b) : ld64 (st64 m a v) b = ld64 m b :=
  ld64_congr fun _ _ _ => st64_out (by omega)

lemma fill_in {c : Byte} {x : ℕ} (h1 : a ≤ x) (h2 : x < a + n) : fill m a c n x = c :=
  if_pos ⟨h1, h2⟩

lemma fill_out {c : Byte} {x : ℕ} (h : x < a ∨ a + n ≤ x) : fill m a c n x = m x :=
  if_neg (by omega)

lemma ld64_fill_zero (h1 : a ≤ b) (h2 : b + 8 ≤ a + n) : ld64 (fill m a 0 n) b = 0 := by
  unfold ld64
  rw [fill_in (by omega) (by omega), fill_in (by omega) (by omega),
    fill_in (by omega) (by omega), fill_in (by omega) (by omega),
    fill_in (by omega) (by omega), fill_in (by omega) (by omega),
    fill_in (by omega) (by omega), fill_in (by omega) (by omega)]
  rfl

lemma move_in {dst src x : ℕ} (h1 : dst ≤ x) (h2 : x < dst + n) :
    move m dst src n x = m (src + (x - dst)) := if_pos ⟨h1, h2⟩

lemma move_out {dst src x : ℕ} (h : x < dst ∨ dst + n ≤ x) : move m dst src n x = m x :=
  if_neg (by omega)

lemma put_in {bs : List Byte} {x : ℕ} (h1 : a ≤ x) (h2 : x < a + bs.length) :
    put m a bs x = bs.getD (x - a) 0 := if_pos ⟨h1, h2⟩

lemma put_out {bs : List Byte} {x : ℕ} (h : x < a ∨ a + bs.length ≤ x) : put m a bs x = m x :=
  if_neg (by omega)

end Xv6.ByteMem
