import Xv6.SetPriorityCommand
import Mathlib.Data.List.Basic
import Mathlib.Tactic.Common

/-!
Formatted output, of user programs (`user/printf.c`) and of the kernel (`kernel/printf.c`). The
two differ in the digits of hexadecimal numbers, in their sign, and in two conversions.
-/

namespace Xv6.Printf

/-! ### Numbers -/

/-- The loop of `printint`, with room for `n` more digits in `buf`, which it fills from the least
significant one; `none` is a write beyond `buf`. -/
def fill (digits : List Char) (base : ℕ) : ℕ → ℕ → Option (List Char)
  | 0, _ => none
  | n + 1, x =>
    let d := digits.getD (x % base) '0'
    if x / base = 0 then some [d] else (fill digits base n (x / base)).map (d :: ·)

/-- `sizeof(buf)` -/
def SIZE : ℕ := 16

def printint (digits : List Char) (xx : BitVec 32) (base : ℕ) (sgn : Bool) : Option (List Char) :=
  let neg := sgn && xx.slt 0
  let x := if neg then -xx else xx
  match fill digits base SIZE x.toNat with
  | none => none
  | some buf =>
    if neg then
      if buf.length < SIZE then some ('-' :: buf.reverse) else none
    else some buf.reverse

/-- The loop of `printptr`, for `n` more digits. -/
def hexLoop (digits : List Char) : ℕ → BitVec 64 → List Char
  | 0, _ => []
  | n + 1, x => digits.getD (x >>> 60).toNat '0' :: hexLoop digits n (x <<< 4)

def printptr (digits : List Char) (x : BitVec 64) : List Char := '0' :: 'x' :: hexLoop digits 16 x

/-- `digits` of `user/printf.c` and of `kernel/printf.c`. -/
def User.digits : List Char :=
  ['0', '1', '2', '3', '4', '5', '6', '7', '8', '9', 'A', 'B', 'C', 'D', 'E', 'F']

def Kernel.digits : List Char :=
  ['0', '1', '2', '3', '4', '5', '6', '7', '8', '9', 'a', 'b', 'c', 'd', 'e', 'f']

/-! ### Formats -/

/-- An argument: a word or a string, where there is one. -/
inductive Arg
  | word (w : BitVec 64)
  | str (s : Option (List Char))

/-- The next argument as a word, and as a string; `none` where there is no such argument. -/
def vaWord : List Arg → Option (BitVec 64 × List Arg)
  | .word w :: ap => some (w, ap)
  | _ => none

def vaStr : List Arg → Option (List Char × List Arg)
  | .str s :: ap => some (s.getD ['(', 'n', 'u', 'l', 'l', ')'], ap)
  | _ => none

/-- What a conversion prints, and the arguments that are left. -/
def User.conv (c : Char) (ap : List Arg) : Option (List Char × List Arg) :=
  if c = 'd' then do
    let (w, ap) ← vaWord ap
    return (← printint User.digits (w.setWidth 32) 10 true, ap)
  else if c = 'l' then do
    let (w, ap) ← vaWord ap
    return (← printint User.digits (w.setWidth 32) 10 false, ap)
  else if c = 'x' then do
    let (w, ap) ← vaWord ap
    return (← printint User.digits (w.setWidth 32) 16 false, ap)
  else if c = 'p' then do
    let (w, ap) ← vaWord ap
    return (printptr User.digits w, ap)
  else if c = 's' then vaStr ap
  else if c = 'c' then do
    let (w, ap) ← vaWord ap
    return ([Char.ofNat (w.setWidth 8).toNat], ap)
  else if c = '%' then some (['%'], ap)
  else some (['%', c], ap)

/-- `vprintf` of `user/printf.c`; `true` is the state after a `%`. -/
def User.vprintf : Bool → List Char → List Arg → Option (List Char)
  | _, [], _ => some []
  | false, c :: fmt, ap =>
    if c = '%' then User.vprintf true fmt ap else (User.vprintf false fmt ap).map (c :: ·)
  | true, c :: fmt, ap => do
    let (out, ap) ← User.conv c ap
    return out ++ (← User.vprintf false fmt ap)

def Kernel.conv (c : Char) (ap : List Arg) : Option (List Char × List Arg) :=
  if c = 'd' then do
    let (w, ap) ← vaWord ap
    return (← printint Kernel.digits (w.setWidth 32) 10 true, ap)
  else if c = 'x' then do
    let (w, ap) ← vaWord ap
    return (← printint Kernel.digits (w.setWidth 32) 16 true, ap)
  else if c = 'p' then do
    let (w, ap) ← vaWord ap
    return (printptr Kernel.digits w, ap)
  else if c = 's' then vaStr ap
  else if c = '%' then some (['%'], ap)
  else some (['%', c], ap)

/-- The loop of `printf` of `kernel/printf.c`. -/
def Kernel.printf : List Char → List Arg → Option (List Char)
  | [], _ => some []
  | [c], _ => some (if c = '%' then [] else [c])
  | c :: c' :: fmt, ap =>
    if c ≠ '%' then (Kernel.printf (c' :: fmt) ap).map (c :: ·)
    else do
      let (out, ap) ← Kernel.conv c' ap
      return out ++ (← Kernel.printf fmt ap)

/-! ### What numbers look like -/

/-- A number in a base, with a minus sign before its absolute value. -/
def signed (base : ℕ) (z : ℤ) : List Char :=
  if z < 0 then '-' :: Nat.toDigits base z.natAbs else Nat.toDigits base z.natAbs

variable {digits : List Char} {base : ℕ} {up : Char → Char}

/-- A table of digits, up to a change of letters. -/
def Table (digits : List Char) (base : ℕ) (up : Char → Char) : Prop :=
  ∀ d < base, digits.getD d '0' = up (Nat.digitChar d)

lemma table_user : Table User.digits 16 Char.toUpper := by unfold Table; decide

lemma table_decimal : Table User.digits 10 id := by unfold Table; decide

lemma table_kernel : Table Kernel.digits 16 id := by unfold Table; decide

lemma Table.mono {b : ℕ} (h : Table digits base up) (hb : b ≤ base) : Table digits b up :=
  fun d hd => h d (hd.trans_le hb)

lemma fill_eq (hb : 1 < base) (hd : Table digits base up) :
    ∀ n x, 0 < n → x < base ^ n →
      fill digits base n x = some ((Nat.toDigits base x).map up).reverse := by
  intro n
  induction n with
  | zero => exact fun x h => absurd h (lt_irrefl 0)
  | succ n ih =>
    intro x _ hx
    have hmod : x % base < base := Nat.mod_lt _ (by omega)
    rw [fill, hd _ hmod]
    by_cases h : x < base
    · rw [if_pos (Nat.div_eq_of_lt h), Nat.toDigits_of_lt_base h, Nat.mod_eq_of_lt h]
      rfl
    · have hle : base ≤ x := by omega
      have hdiv : x / base ≠ 0 := (Nat.div_pos hle (by omega)).ne'
      have hn : 0 < n := by
        rcases Nat.eq_zero_or_pos n with rfl | hn
        · rw [pow_one] at hx
          omega
        · exact hn
      have hlt : x / base < base ^ n := by
        rw [Nat.div_lt_iff_lt_mul (by omega), ← pow_succ]
        exact hx
      rw [if_neg hdiv, ih _ hn hlt, Nat.toDigits_of_base_le hb hle]
      simp

lemma printint_eq (hb : 1 < base) (hd : Table digits base up) (hx : 2 ^ 32 ≤ base ^ 15)
    (xx : BitVec 32) (sgn : Bool) :
    printint digits xx base sgn =
      let x := if sgn && xx.slt 0 then -xx else xx
      some ((if sgn && xx.slt 0 then ['-'] else []) ++ (Nat.toDigits base x.toNat).map up) := by
  have hlt : ∀ x : BitVec 32, x.toNat < base ^ 15 := fun x => x.isLt.trans_le hx
  have hfill : ∀ x : BitVec 32, fill digits base SIZE x.toNat =
      some ((Nat.toDigits base x.toNat).map up).reverse := fun x =>
    fill_eq hb hd _ _ (by decide) ((hlt x).trans_le (Nat.pow_le_pow_right (by omega) (by decide)))
  have hlen : ∀ x : BitVec 32, (Nat.toDigits base x.toNat).length < SIZE := fun x =>
    Nat.lt_succ_of_le ((Nat.length_toDigits_le_iff hb (by decide)).mpr (hlt x))
  rw [printint]
  dsimp only
  rw [hfill]
  generalize (sgn && xx.slt 0) = neg
  cases neg with
  | false => simp
  | true =>
    have h1 : ((Nat.toDigits base (-xx).toNat).map up).reverse.length < SIZE := by
      rw [List.length_reverse, List.length_map]
      exact hlen (-xx)
    simp only [if_true, List.reverse_reverse, if_pos h1]
    rfl

lemma slt_zero (xx : BitVec 32) : xx.slt 0 = decide (xx.toInt < 0) := rfl

lemma toNat_neg_of_neg {xx : BitVec 32} (h : xx.toInt < 0) : (-xx).toNat = xx.toInt.natAbs := by
  have h1 := xx.isLt
  rw [BitVec.toInt_eq_toNat_cond] at h ⊢
  rw [BitVec.toNat_neg]
  split at h
  · omega
  · rw [if_neg (by assumption)]
    omega

lemma toNat_of_nonneg {xx : BitVec 32} (h : ¬xx.toInt < 0) : xx.toNat = xx.toInt.natAbs := by
  have h1 := xx.isLt
  rw [BitVec.toInt_eq_toNat_cond] at h ⊢
  split at h
  · rw [if_pos (by assumption)]
    omega
  · omega

lemma map_signed (z : ℤ) (hup : up '-' = '-') : (signed base z).map up =
    (if z < 0 then ['-'] else []) ++ (Nat.toDigits base z.natAbs).map up := by
  unfold signed
  by_cases h : z < 0
  · simp [h, hup]
  · simp [h]

lemma printint_signed (hb : 1 < base) (hd : Table digits base up) (hx : 2 ^ 32 ≤ base ^ 15)
    (hup : up '-' = '-') (xx : BitVec 32) :
    printint digits xx base true = some ((signed base xx.toInt).map up) := by
  rw [printint_eq hb hd hx, map_signed _ hup, slt_zero]
  by_cases h : xx.toInt < 0
  · simp [h, toNat_neg_of_neg h]
  · simp [h, toNat_of_nonneg h]

lemma printint_unsigned (hb : 1 < base) (hd : Table digits base up) (hx : 2 ^ 32 ≤ base ^ 15)
    (xx : BitVec 32) :
    printint digits xx base false = some ((Nat.toDigits base xx.toNat).map up) := by
  rw [printint_eq hb hd hx]
  rfl

lemma hexLoop_eq (n : ℕ) : ∀ x : BitVec 64, hexLoop digits n x =
    (List.range n).map fun i => digits.getD ((x <<< (4 * i)) >>> 60).toNat '0' := by
  induction n with
  | zero => exact fun _ => rfl
  | succ n ih =>
    intro x
    rw [hexLoop, ih, List.range_succ_eq_map, List.map_cons, List.map_map]
    refine congrArg₂ _ (by rw [Nat.mul_zero, BitVec.shiftLeft_zero]) ?_
    refine List.map_congr_left fun i _ => ?_
    rw [Function.comp_apply, Nat.succ_eq_add_one, Nat.mul_add, Nat.add_comm, BitVec.shiftLeft_add]

lemma nibble (x : BitVec 64) {i : ℕ} (hi : i < 16) :
    ((x <<< (4 * i)) >>> 60).toNat = x.toNat / 16 ^ (15 - i) % 16 := by
  have h1 : 2 ^ 60 = 16 ^ (15 - i) * 2 ^ (4 * i) := by
    rw [show (16 : ℕ) = 2 ^ 4 from rfl, ← pow_mul, ← pow_add]
    congr 1
    omega
  rw [BitVec.toNat_ushiftRight, BitVec.toNat_shiftLeft, Nat.shiftLeft_eq, Nat.shiftRight_eq_div_pow,
    show 2 ^ 64 = 2 ^ 60 * 16 from rfl, Nat.mod_mul_right_div_self, h1,
    Nat.mul_div_mul_right _ _ (Nat.two_pow_pos _)]

lemma printptr_eq (x : BitVec 64) : printptr digits x = '0' :: 'x' ::
    (List.range 16).map fun i => digits.getD (x.toNat / 16 ^ (15 - i) % 16) '0' := by
  rw [printptr, hexLoop_eq]
  refine congrArg (fun l => '0' :: 'x' :: l) (List.map_congr_left fun i hi => ?_)
  rw [nibble x (List.mem_range.mp hi)]

/-! ### Reading numbers back -/

open Xv6.SetPriorityCommand

lemma atoiLoop_digits (n : ℕ) {ds : List Char} (hds : ∀ c ∈ ds, '0' ≤ c ∧ c ≤ '9') :
    atoiLoop ds (BitVec.ofNat 32 n) = BitVec.ofNat 32 (Nat.ofDigitChars 10 ds n) := by
  induction ds generalizing n with
  | nil => rw [atoiLoop, Nat.ofDigitChars_nil]
  | cons c ds ih =>
    obtain ⟨h1, h2⟩ := hds c (List.mem_cons_self ..)
    have hc : '0'.toNat ≤ c.toNat := h1
    have hstep : BitVec.ofNat 32 n * 10 + BitVec.ofNat 32 c.toNat - BitVec.ofNat 32 '0'.toNat =
        BitVec.ofNat 32 (10 * n + (c.toNat - '0'.toNat)) := by
      have h3 : c.toNat = '0'.toNat + (c.toNat - '0'.toNat) := by omega
      rw [h3, Nat.add_sub_cancel_left, BitVec.ofNat_add, BitVec.ofNat_add, BitVec.ofNat_mul,
        BitVec.mul_comm]
      rw [BitVec.add_comm (BitVec.ofNat 32 '0'.toNat), ← BitVec.add_assoc, BitVec.add_sub_cancel]
      rfl
    rw [atoiLoop, if_pos ⟨h1, h2⟩, hstep, Nat.ofDigitChars_cons]
    exact ih _ fun d hd => hds d (List.mem_cons_of_mem _ hd)

lemma digitChar_range (d : ℕ) (hd : d < 10) : '0' ≤ Nat.digitChar d ∧ Nat.digitChar d ≤ '9' := by
  revert d
  decide

lemma toDigits_range (n : ℕ) : ∀ c ∈ Nat.toDigits 10 n, '0' ≤ c ∧ c ≤ '9' := by
  induction n using Nat.strong_induction_on with
  | _ n ih =>
    intro c hc
    by_cases hn : n < 10
    · rw [Nat.toDigits_of_lt_base hn, List.mem_singleton] at hc
      exact hc ▸ digitChar_range n hn
    · rw [Nat.toDigits_of_base_le (by decide) (by omega), List.mem_append, List.mem_singleton] at hc
      rcases hc with hc | rfl
      · exact ih (n / 10) (by omega) c hc
      · exact digitChar_range _ (Nat.mod_lt _ (by decide))

/-- **Numbers are printed exactly and read back**: for every `int`, the most negative one
included, the digits fit into `buf`, `%d` of user programs and of the kernel prints the decimal
number, `%x` of user programs the unsigned hexadecimal number in capitals and that of the kernel
the signed one in small letters; and `atoi` reads what `%d` printed, but for a negative number,
of which it reads 0. -/
theorem printint_exact (xx : BitVec 32) :
    printint User.digits xx 10 true = some (signed 10 xx.toInt) ∧
      printint Kernel.digits xx 10 true = some (signed 10 xx.toInt) ∧
      printint User.digits xx 16 false =
        some ((Nat.toDigits 16 xx.toNat).map Char.toUpper) ∧
      printint Kernel.digits xx 16 true = some (signed 16 xx.toInt) ∧
      atoi (String.ofList (signed 10 xx.toInt)) = if xx.toInt < 0 then 0 else xx := by
  refine ⟨?_, ?_, ?_, ?_, ?_⟩
  · rw [printint_signed (by decide) table_decimal (by decide) rfl, List.map_id]
  · rw [printint_signed (by decide) (table_kernel.mono (by decide)) (by decide) rfl, List.map_id]
  · exact printint_unsigned (by decide) table_user (by decide) xx
  · rw [printint_signed (by decide) table_kernel (by decide) rfl, List.map_id]
  · rw [atoi, String.toList_ofList, signed]
    by_cases h : xx.toInt < 0
    · rw [if_pos h, if_pos h, atoiLoop, if_neg (by decide)]
    · rw [if_neg h, if_neg h]
      have h1 := atoiLoop_digits 0 (toDigits_range xx.toInt.natAbs)
      rw [Nat.ofDigitChars_ten_toDigits, ← toNat_of_nonneg h, BitVec.ofNat_toNat,
        BitVec.setWidth_eq, toNat_of_nonneg h] at h1
      exact h1

/-! ### Formats of both -/

/-- The conversions of a format are `%d`, `%s`, `%%` and those that neither knows. -/
def Common : List Char → Prop
  | [] | [_] => True
  | c :: c' :: fmt =>
    if c = '%' then c' ∉ ['x', 'p', 'l', 'c'] ∧ Common fmt else Common (c' :: fmt)

lemma conv_common {c : Char} (hc : c ∉ ['x', 'p', 'l', 'c']) (ap : List Arg) :
    Kernel.conv c ap = User.conv c ap := by
  have hd : ∀ w : BitVec 64, printint Kernel.digits (w.setWidth 32) 10 true =
      printint User.digits (w.setWidth 32) 10 true := fun w => by
    rw [printint_signed (by decide) (table_kernel.mono (by decide)) (by decide) rfl,
      printint_signed (by decide) table_decimal (by decide) rfl]
  obtain ⟨hx, hp, hl, hcc⟩ : c ≠ 'x' ∧ c ≠ 'p' ∧ c ≠ 'l' ∧ c ≠ 'c' := by simpa using hc
  unfold Kernel.conv User.conv
  simp only [if_neg hx, if_neg hp, if_neg hl, if_neg hcc, hd]

/-- **The two printers agree**: on every format without `%x`, `%p`, `%l` and `%c`, also with a `%`
at its end and with unknown conversions, and on all arguments, `printf` of user programs and of
the kernel print the same; where an argument is missing, neither has a result. -/
theorem printf_agree {fmt : List Char} (h : Common fmt) (ap : List Arg) :
    Kernel.printf fmt ap = User.vprintf false fmt ap := by
  induction fmt using Common.induct generalizing ap with
  | case1 => rfl
  | case2 c =>
    by_cases hc : c = '%'
    · simp [Kernel.printf, User.vprintf, hc]
    · simp [Kernel.printf, User.vprintf, hc]
  | case3 c' fmt ih =>
    rw [Common, if_pos rfl] at h
    rw [Kernel.printf, if_neg (not_not.mpr rfl), User.vprintf, if_pos rfl, User.vprintf,
      conv_common h.1]
    simp only [ih h.2]
  | case4 c c' fmt hc ih =>
    rw [Common, if_neg hc] at h
    rw [Kernel.printf, if_pos hc, User.vprintf, if_neg hc, ih h]

theorem printf_agree_missing : Kernel.printf ['%', 'd', ':', '%', 's', '%', '?', '%']
    [.word 3, .str none] = User.vprintf false ['%', 'd', ':', '%', 's', '%', '?', '%']
    [.word 3, .str none] := printf_agree (by simp [Common]) _

end Xv6.Printf
