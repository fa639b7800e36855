import Xv6.Chunks
import Xv6.Grep
import Xv6.Printf

/-!
The user program `wc`, from its reads to the line that it prints.
-/

namespace Xv6.Wc

open Xv6.Printf

/-- The variables `l`, `w`, `c` and `inword`. -/
structure Counts where
  l : BitVec 32
  w : BitVec 32
  c : BitVec 32
  inword : Bool

/-- The string of white space, with the vertical tab at its end. -/
def blanks : List Char := [' ', '\r', '\t', '\n', Char.ofNat 11]

def isBlank (b : Char) : Bool := (Grep.strchr b blanks).isSome

/-- The body of the inner loop. -/
def char (s : Counts) (b : Char) : Counts :=
  let c := s.c + 1
  let l := if b = '\n' then s.l + 1 else s.l
  if isBlank b then ⟨l, s.w, c, false⟩
  else if !s.inword then ⟨l, s.w + 1, c, true⟩
  else ⟨l, s.w, c, s.inword⟩

/-- `sizeof(buf)` -/
def SIZE : ℕ := 512

def counts (choose : ℕ → ℕ) (d : List Char) : Counts :=
  Chunks.loop (fun _ => SIZE) (fun s buf => buf.foldl char s) choose ⟨0, 0, 0, false⟩ d

def format : List Char := ['%', 'd', ' ', '%', 'd', ' ', '%', 'd', ' ', '%', 's', '\n']

/-- `wc` on an input with the data `d`, where the reads return what `choose` says. -/
def wc (choose : ℕ → ℕ) (d name : List Char) : Option (List Char) :=
  let s := counts choose d
  User.vprintf false format [.word (s.l.signExtend 64), .word (s.w.signExtend 64),
    .word (s.c.signExtend 64), .str (some name)]

/-! ### What is counted -/

/-- Words are the non-empty pieces between blanks. -/
def words (d : List Char) : ℕ := ((d.splitOnP isBlank).filter (· ≠ [])).length

/-- Whether the data begin inside a word. -/
def starts : List Char → Bool
  | [] => false
  | b :: _ => !isBlank b

variable {d : List Char} {b : Char}

lemma splitOnP_head (d : List Char) :
    ∃ h t, d.splitOnP isBlank = h :: t ∧ (h ≠ [] ↔ starts d = true) := by
  cases d with
  | nil => exact ⟨[], [], List.splitOnP_nil, by simp [starts]⟩
  | cons b d =>
    rw [List.splitOnP_cons_eq_if_modifyHead]
    by_cases hb : isBlank b = true
    · exact ⟨[], d.splitOnP isBlank, if_pos hb, by simp [starts, hb]⟩
    · obtain ⟨h, t, ht⟩ := List.exists_cons_of_ne_nil (List.splitOnP_ne_nil isBlank d)
      exact ⟨b :: h, t, by rw [if_neg hb, ht]; rfl, by simp [starts, hb]⟩

lemma words_blank (hb : isBlank b = true) : words (b :: d) = words d := by
  rw [words, List.splitOnP_cons_eq_if_modifyHead, if_pos hb]
  simp [words]

lemma words_word (hb : ¬isBlank b = true) :
    words (b :: d) = 1 + (words d - if starts d then 1 else 0) := by
  obtain ⟨h, t, ht, hh⟩ := splitOnP_head d
  rw [words, words, List.splitOnP_cons_eq_if_modifyHead, if_neg hb, ht]
  by_cases hs : starts d = true
  · simp [hs, hh.mpr hs, Nat.add_comm]
  · have h0 : h = [] := by
      by_contra h1
      exact hs (hh.mp h1)
    simp [hs, h0, Nat.add_comm]

lemma char_c (d : List Char) : ∀ s : Counts, (d.foldl char s).c = s.c + BitVec.ofNat 32 d.length := by
  induction d with
  | nil => simp
  | cons b d ih =>
    intro s
    have hc : (char s b).c = s.c + 1#32 := by
      rw [char]
      split_ifs <;> rfl
    rw [List.foldl_cons, ih, hc, List.length_cons, Nat.add_comm, BitVec.ofNat_add, BitVec.add_assoc]

lemma char_l (d : List Char) :
    ∀ s : Counts, (d.foldl char s).l = s.l + BitVec.ofNat 32 (d.count '\n') := by
  induction d with
  | nil => simp
  | cons b d ih =>
    intro s
    have hl : (char s b).l = if b = '\n' then s.l + 1#32 else s.l := by
      rw [char]
      split_ifs <;> rfl
    rw [List.foldl_cons, ih, hl]
    by_cases hb : b = '\n'
    · rw [if_pos hb, hb, List.count_cons_self, Nat.add_comm, BitVec.ofNat_add, BitVec.add_assoc]
    · rw [if_neg hb, List.count_cons_of_ne hb]

/-- A word that goes on is not counted again. -/
lemma char_w (d : List Char) : ∀ s : Counts,
    (d.foldl char s).w = s.w + BitVec.ofNat 32 (words d - if s.inword && starts d then 1 else 0) := by
  induction d with
  | nil =>
    intro s
    simp [words]
  | cons b d ih =>
    intro s
    rw [List.foldl_cons, ih]
    by_cases hb : isBlank b = true
    · have hc : (char s b).w = s.w ∧ (char s b).inword = false := by simp [char, hb]
      rw [hc.1, hc.2, words_blank hb]
      simp [starts, hb]
    · have hs : starts (b :: d) = true := by simp [starts, hb]
      rw [words_word hb, hs, Bool.and_true]
      cases hi : s.inword with
      | false =>
        have hc : (char s b).w = s.w + 1#32 ∧ (char s b).inword = true := by
          simp [char, hb, hi]
        rw [hc.1, hc.2, Bool.true_and, if_neg Bool.false_ne_true, Nat.sub_zero, BitVec.ofNat_add,
          BitVec.add_assoc]
      | true =>
        have hc : (char s b).w = s.w ∧ (char s b).inword = true := by
          simp [char, hb, hi]
        rw [hc.1, hc.2, Bool.true_and, if_pos rfl, Nat.add_sub_cancel_left]

lemma counts_eq (choose : ℕ → ℕ) (d : List Char) :
    counts choose d = d.foldl char ⟨0, 0, 0, false⟩ := by
  let I (s : Counts) (r : List Char) : Prop := r.foldl char s = d.foldl char ⟨0, 0, 0, false⟩
  have hstep : ∀ s c r, I s (c ++ r) → c ≠ [] → c.length ≤ SIZE → I (c.foldl char s) r := by
    intro s c r h _ _
    exact List.foldl_append.symm.trans h
  obtain ⟨r, hr, hend⟩ := Chunks.loop_rule choose hstep ⟨0, 0, 0, false⟩ d rfl
  obtain rfl : r = [] := hend.resolve_left (by decide)
  exact hr

lemma int_arg (x : BitVec 32) : (x.signExtend 64).setWidth 32 = x := by
  ext i hi
  rw [BitVec.getElem_setWidth, BitVec.getLsbD_eq_getElem (by omega), BitVec.getElem_signExtend,
    dif_pos hi]

lemma conv_d (x : BitVec 32) (ap : List Arg) :
    User.conv 'd' (.word (x.signExtend 64) :: ap) = some (signed 10 x.toInt, ap) := by
  rw [User.conv, if_pos rfl]
  change (do return (← printint User.digits ((x.signExtend 64).setWidth 32) 10 true, ap)) = _
  rw [int_arg, printint_signed (by decide) table_decimal (by decide) rfl, List.map_id]
  rfl

lemma conv_s (s : List Char) (ap : List Arg) :
    User.conv 's' (.str (some s) :: ap) = some (s, ap) := rfl

lemma vprintf_format (l w c : BitVec 32) (name : List Char) :
    User.vprintf false format [.word (l.signExtend 64), .word (w.signExtend 64),
      .word (c.signExtend 64), .str (some name)] =
    some (signed 10 l.toInt ++ ' ' :: (signed 10 w.toInt ++ ' ' :: (signed 10 c.toInt ++
      ' ' :: (name ++ ['\n'])))) := by
  simp [format, User.vprintf, conv_d, conv_s]

/-- **`wc` prints the counts**: for every input, whatever sizes the reads return and wherever they
cut words, it prints the number of newlines, of words and of characters, as `int`s, and the name. -/
theorem wc_prints (choose : ℕ → ℕ) (d name : List Char) :
    wc choose d name = some (signed 10 (BitVec.ofNat 32 (d.count '\n')).toInt ++
      ' ' :: (signed 10 (BitVec.ofNat 32 (words d)).toInt ++
      ' ' :: (signed 10 (BitVec.ofNat 32 d.length).toInt ++ ' ' :: (name ++ ['\n'])))) := by
  have hl := char_l d ⟨0, 0, 0, false⟩
  have hw := char_w d ⟨0, 0, 0, false⟩
  have hc := char_c d ⟨0, 0, 0, false⟩
  rw [Bool.false_and, if_neg Bool.false_ne_true, Nat.sub_zero] at hw
  rw [wc, counts_eq, vprintf_format, hl, hw, hc]
  simp

end Xv6.Wc
