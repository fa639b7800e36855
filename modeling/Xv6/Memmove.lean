import Xv6.ByteMem
import Mathlib.Logic.Function.Basic

/-!
The two versions of `memmove`: that of the kernel, in `string.c`, and that of the user library, in
`ulib.c`. Each copies byte by byte, upwards or downwards, and the two choose the direction by
different tests. Either of them moves all bytes at once, as `ByteMem.move` does, however the two
ranges overlap.
-/

namespace Xv6.Memmove

open Xv6.ByteMem

/-- A `char *`. -/
abbrev Ptr := BitVec 64

variable {m t : Mem} {d s dst src : Ptr} {n : ℕ}

/-- `*d = *s;` -/
def copyByte (d s : Ptr) (m : Mem) : Mem := Function.update m d.toNat (m s.toNat)

/-- `while(n-- > 0) *d++ = *s++;` -/
def copyUp : ℕ → Ptr → Ptr → Mem → Mem
  | 0, _, _, m => m
  | n + 1, d, s, m => copyUp n (d + 1) (s + 1) (copyByte d s m)

/-- `while(n-- > 0) *--d = *--s;` -/
def copyDown : ℕ → Ptr → Ptr → Mem → Mem
  | 0, _, _, m => m
  | n + 1, d, s, m => copyDown n (d - 1) (s - 1) (copyByte (d - 1) (s - 1) m)

/-- `memmove` of `string.c`; `n` is a `uint`. -/
def Kernel.memmove (dst src : Ptr) (n : BitVec 32) (m : Mem) : Ptr × Mem :=
  if n = 0 then (dst, m)
  else if src < dst ∧ dst < src + n.setWidth 64 then
    (dst, copyDown n.toNat (dst + n.setWidth 64) (src + n.setWidth 64) m)
  else (dst, copyUp n.toNat dst src m)

/-- `memmove` of `ulib.c`; `n` is an `int`, and the loop does nothing for a negative one. -/
def Ulib.memmove (dst src : Ptr) (n : BitVec 32) (m : Mem) : Ptr × Mem :=
  if dst < src then (dst, copyUp n.toInt.toNat dst src m)
  else (dst, copyDown n.toInt.toNat (dst + n.signExtend 64) (src + n.signExtend 64) m)

/-! ### The loops -/

lemma move_zero (m : Mem) (a b : ℕ) : move m a b 0 = m := by
  funext x
  exact move_out (by omega)

lemma toNat_succ (h : d.toNat + 1 < 2 ^ 64) : (d + 1).toNat = d.toNat + 1 := by
  rw [BitVec.toNat_add]
  exact Nat.mod_eq_of_lt h

lemma toNat_add (h : d.toNat + n < 2 ^ 64) : (d + BitVec.ofNat 64 n).toNat = d.toNat + n := by
  rw [BitVec.toNat_add, BitVec.toNat_ofNat, Nat.mod_eq_of_lt (by omega : n < 2 ^ 64)]
  exact Nat.mod_eq_of_lt h

/-- Copying the first byte and moving the others moves all of them, if no byte that is still to be
read is written. -/
lemma move_first {a b : ℕ} (h : a ≤ b ∨ b + n < a) :
    move (Function.update m a (m b)) (a + 1) (b + 1) n = move m a b (n + 1) := by
  funext x
  by_cases hx : x = a
  · subst hx
    rw [move_out (by omega), move_in (by omega) (by omega), Function.update_self, Nat.sub_self,
      Nat.add_zero]
  · by_cases hin : a ≤ x ∧ x < a + (n + 1)
    · rw [move_in (by omega) (by omega), move_in hin.1 hin.2, Function.update_of_ne (by omega)]
      congr 1
      omega
    · rw [move_out (by omega), move_out (by omega), Function.update_of_ne hx]

lemma move_last {a b : ℕ} (h : b ≤ a ∨ a + n < b) :
    move (Function.update m (a + n) (m (b + n))) a b n = move m a b (n + 1) := by
  funext x
  by_cases hx : x = a + n
  · subst hx
    rw [move_out (by omega), move_in (by omega) (by omega), Function.update_self,
      Nat.add_sub_cancel_left]
  · by_cases hin : a ≤ x ∧ x < a + (n + 1)
    · rw [move_in (by omega) (by omega), move_in hin.1 hin.2, Function.update_of_ne (by omega)]
    · rw [move_out (by omega), move_out (by omega), Function.update_of_ne hx]

lemma copyUp_eq (h : d.toNat ≤ s.toNat ∨ s.toNat + n ≤ d.toNat) (hd : d.toNat + n ≤ 2 ^ 64)
    (hs : s.toNat + n ≤ 2 ^ 64) : copyUp n d s m = move m d.toNat s.toNat n := by
  induction n generalizing d s m with
  | zero => exact (move_zero m _ _).symm
  | succ n ih =>
    have hfirst := move_first (m := m) (by omega : d.toNat ≤ s.toNat ∨ s.toNat + n < d.toNat)
    rw [copyUp, ← hfirst]
    cases n with
    | zero => exact (move_zero _ _ _).symm
    | succ n =>
      have hd1 : (d + 1).toNat = d.toNat + 1 := toNat_succ (by omega)
      have hs1 : (s + 1).toNat = s.toNat + 1 := toNat_succ (by omega)
      rw [ih (by omega) (by omega) (by omega), hd1, hs1]
      rfl

lemma copyDown_eq (h : s.toNat ≤ d.toNat ∨ d.toNat + n ≤ s.toNat) (hd : d.toNat + n ≤ 2 ^ 64)
    (hs : s.toNat + n ≤ 2 ^ 64) :
    copyDown n (d + BitVec.ofNat 64 n) (s + BitVec.ofNat 64 n) m = move m d.toNat s.toNat n := by
  induction n generalizing m with
  | zero => exact (move_zero m _ _).symm
  | succ n ih =>
    have hback : ∀ p : Ptr, p + BitVec.ofNat 64 (n + 1) - 1 = p + BitVec.ofNat 64 n := by
      intro p
      rw [BitVec.ofNat_add, ← BitVec.add_assoc]
      exact BitVec.add_sub_cancel _ _
    rw [copyDown, hback, hback, ih (by omega) (by omega) (by omega), copyByte,
      toNat_add (by omega), toNat_add (by omega)]
    exact move_last (by omega)

/-! ### The two functions -/

section

variable {n : BitVec 32}

lemma setWidth_eq (n : BitVec 32) : n.setWidth 64 = BitVec.ofNat 64 n.toNat := by
  rw [← BitVec.toNat_inj, BitVec.toNat_setWidth, BitVec.toNat_ofNat]

lemma signExtend_eq (h : 0 ≤ n.toInt) : n.signExtend 64 = BitVec.ofNat 64 n.toNat := by
  rw [BitVec.signExtend_eq_setWidth_of_msb_false, setWidth_eq]
  exact BitVec.msb_eq_false_iff_two_mul_lt.mpr (BitVec.toInt_pos_iff.mp h)

/-- **The kernel's memmove** moves all bytes at once. -/
lemma kernel_eq (hs : src.toNat + n.toNat ≤ 2 ^ 64) (hd : dst.toNat + n.toNat ≤ 2 ^ 64) :
    Kernel.memmove dst src n m = (dst, move m dst.toNat src.toNat n.toNat) := by
  unfold Kernel.memmove
  by_cases h0 : n = 0
  · subst h0
    rw [if_pos rfl]
    exact congrArg (dst, ·) (move_zero m _ _).symm
  rw [if_neg h0, setWidth_eq]
  by_cases hc : src < dst ∧ dst < src + BitVec.ofNat 64 n.toNat
  · have hlt : src.toNat < dst.toNat := hc.1
    rw [if_pos hc, copyDown_eq (Or.inl (Nat.le_of_lt hlt)) hd hs]
  · rw [if_neg hc, copyUp_eq _ hd hs]
    by_contra hno
    rw [not_or, Nat.not_le, Nat.not_le] at hno
    -- the end of the source does not wrap, for that of the destination is behind it
    refine hc ⟨hno.1, ?_⟩
    rw [BitVec.lt_def, toNat_add (by omega)]
    exact hno.2

/-- **The user library's memmove** moves all bytes at once. -/
lemma ulib_eq (hn : 0 ≤ n.toInt) (hs : src.toNat + n.toNat ≤ 2 ^ 64)
    (hd : dst.toNat + n.toNat ≤ 2 ^ 64) :
    Ulib.memmove dst src n m = (dst, move m dst.toNat src.toNat n.toNat) := by
  have hcount : n.toInt.toNat = n.toNat := by
    rw [BitVec.toInt_eq_toNat_of_lt (BitVec.toInt_pos_iff.mp hn)]
    exact Int.toNat_natCast _
  unfold Ulib.memmove
  rw [hcount, signExtend_eq hn]
  by_cases hc : dst < src
  · have hlt : dst.toNat < src.toNat := hc
    rw [if_pos hc, copyUp_eq (Or.inl (Nat.le_of_lt hlt)) hd hs]
  · have hle : src.toNat ≤ dst.toNat := by
      rw [BitVec.lt_def] at hc
      omega
    rw [if_neg hc, copyDown_eq (Or.inl hle) hd hs]

end

/-- The bytes that were at `src` are at `dst`, and no others have changed. -/
structure Moved (m : Mem) (dst src n : ℕ) (t : Mem) : Prop where
  copied : ∀ k, k < n → t (dst + k) = m (src + k)
  kept : ∀ x, x < dst ∨ dst + n ≤ x → t x = m x

lemma moved_move (m : Mem) (dst src n : ℕ) : Moved m dst src n (move m dst src n) := by
  refine ⟨fun k hk => ?_, fun x hx => move_out hx⟩
  rw [move_in (by omega) (by omega), Nat.add_sub_cancel_left]

/-- **memmove is correct for every overlap**, and its two versions agree. -/
theorem memmove_correct (m : Mem) (dst src : Ptr) (n : BitVec 32)
    (hs : src.toNat + n.toNat ≤ 2 ^ 64) (hd : dst.toNat + n.toNat ≤ 2 ^ 64) :
    Moved m dst.toNat src.toNat n.toNat (Kernel.memmove dst src n m).2 ∧
    (0 ≤ n.toInt → Moved m dst.toNat src.toNat n.toNat (Ulib.memmove dst src n m).2 ∧
      Ulib.memmove dst src n m = Kernel.memmove dst src n m) := by
  rw [kernel_eq hs hd]
  refine ⟨moved_move m _ _ _, fun hn => ?_⟩
  rw [ulib_eq hn hs hd]
  exact ⟨moved_move m _ _ _, rfl⟩

/-- Three bytes go up by one. -/
theorem memmove_correct_overlapping :
    (Ulib.memmove 0x1001 0x1000 3 (BitVec.ofNat 8)).2 0x1003 = 2 ∧
      Ulib.memmove 0x1001 0x1000 3 (BitVec.ofNat 8) =
        Kernel.memmove 0x1001 0x1000 3 (BitVec.ofNat 8) := by
  obtain ⟨-, h⟩ := memmove_correct (BitVec.ofNat 8) 0x1001 0x1000 3 (by decide) (by decide)
  obtain ⟨h1, h2⟩ := h (by decide)
  exact ⟨h1.copied 2 (by decide), h2⟩

end Xv6.Memmove
