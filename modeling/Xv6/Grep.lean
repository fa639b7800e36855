import Xv6.Regex
import Xv6.Chunks
import Mathlib.Tactic.Common

/-!
The user program `grep`: its pattern matcher decides the language of the pattern, and its buffered
loop over the input prints the matching lines whatever the sizes of the reads.
-/

namespace Xv6.Grep

open Xv6.Regex

/-! ### The matcher

A string is the list of its characters before the NUL.
-/

/-- `matchstar(c, re, text)` with `here` for `matchhere(re, ·)`. -/
def matchstar (c : Char) (here : List Char → Bool) : List Char → Bool
  | [] => here []
  | t :: text => here (t :: text) || ((t == c || c == '.') && matchstar c here text)

/-- The last two tests of `matchhere`, with `rest` for the call on the rest of the pattern. -/
def matchone (c : Char) (rest : List Char → Bool) : List Char → Bool
  | [] => false
  | t :: text => (c == '.' || c == t) && rest text

def matchhere : List Char → List Char → Bool
  | [], _ => true
  | [c], text => if c = '$' then text.isEmpty else matchone c (fun _ => true) text
  | c :: d :: re, text =>
    if d = '*' then matchstar c (matchhere re) text else matchone c (matchhere (d :: re)) text

/-- The search of `match`. -/
def search (re : List Char) : List Char → Bool
  | [] => matchhere re []
  | t :: text => matchhere re (t :: text) || search re text

def matchRe (re text : List Char) : Bool :=
  match re with
  | [] => search [] text
  | c :: re => if c = '^' then matchhere re text else search (c :: re) text

/-! ### The language of a pattern -/

def sym (c : Char) : Sym Char := if c = '.' then .any else .chr c

/-- The items of a pattern, and whether it ends in an anchor. -/
def items : List Char → List (Item Char) × Bool
  | [] => ([], false)
  | [c] => if c = '$' then ([], true) else ([.one (sym c)], false)
  | c :: d :: re =>
    if d = '*' then (.star (sym c) :: (items re).1, (items re).2)
    else (.one (sym c) :: (items (d :: re)).1, (items (d :: re)).2)

def parse : List Char → Pattern Char
  | [] => ⟨false, [], false⟩
  | c :: re =>
    if c = '^' then ⟨true, (items re).1, (items re).2⟩
    else ⟨false, (items (c :: re)).1, (items (c :: re)).2⟩

lemma sym_fits {c t : Char} : (sym c).Fits t ↔ (c == '.' || c == t) = true := by
  unfold sym
  by_cases h : c = '.'
  · rw [if_pos h, h]
    exact iff_of_true trivial rfl
  · rw [if_neg h, beq_eq_false_iff_ne.mpr h, Bool.false_or, beq_iff_eq]
    exact Iff.rfl

lemma matchone_iff {c : Char} {rest : List Char → Bool} {L : Language Char}
    (h : ∀ text, rest text = true ↔ text ∈ L) (text : List Char) :
    matchone c rest text = true ↔ text ∈ (sym c).lang * L := by
  cases text with
  | nil => exact iff_of_false Bool.false_ne_true nil_notMem_sym
  | cons t text => rw [matchone, cons_mem_sym, Bool.and_eq_true, sym_fits, h]

lemma matchstar_iff {c : Char} {rest : List Char → Bool} {is : List (Item Char)} {e : Bool}
    (h : ∀ text, rest text = true ↔ text ∈ here is e) (text : List Char) :
    matchstar c rest text = true ↔ text ∈ here (.star (sym c) :: is) e := by
  induction text with
  | nil =>
    rw [matchstar, h, nil_mem_star]
  | cons t text ih =>
    have hc : (t == c || c == '.') = (c == '.' || c == t) := by
      rw [Bool.or_comm, BEq.comm (a := t)]
    rw [matchstar, Bool.or_eq_true, Bool.and_eq_true, h, ih, hc, cons_mem_star, sym_fits]

lemma matchhere_iff (re text : List Char) :
    matchhere re text = true ↔ text ∈ here (items re).1 (items re).2 := by
  induction re using items.induct generalizing text with
  | case1 => simp [matchhere, items, mem_here_nil]
  | case2 => simp [matchhere, items, mem_here_nil]
  | case3 c hc =>
    rw [matchhere, items, if_neg hc, if_neg hc, here_one]
    exact matchone_iff (fun _ => by simp [mem_here_nil]) text
  | case4 c re ih =>
    rw [matchhere, items, if_pos rfl, if_pos rfl]
    exact matchstar_iff ih text
  | case5 c d re hd ih =>
    rw [matchhere, items, if_neg hd, if_neg hd, here_one]
    exact matchone_iff ih text

lemma search_iff {re : List Char} (text : List Char) :
    search re text = true ↔ text ∈ (⊤ : Language Char) * here (items re).1 (items re).2 := by
  induction text with
  | nil => rw [search, matchhere_iff, nil_mem_top_mul]
  | cons t text ih => rw [search, Bool.or_eq_true, matchhere_iff, ih, cons_mem_top_mul]

lemma matchRe_iff (re text : List Char) : matchRe re text = true ↔ text ∈ (parse re).lang := by
  cases re with
  | nil => exact search_iff text
  | cons c re =>
    rw [matchRe, parse]
    by_cases hc : c = '^'
    · rw [if_pos hc, if_pos hc, matchhere_iff, Pattern.lang, margin, if_pos rfl, one_mul]
    · rw [if_neg hc, if_neg hc]
      exact search_iff text

instance (re : List Char) : DecidablePred (· ∈ (parse re).lang) := fun text =>
  decidable_of_iff _ (matchRe_iff re text)

/-! ### The loop over the input -/

def nul : Char := Char.ofNat 0

/-- `strchr`, on what is in memory up to the end of the buffer. -/
def strchr (c : Char) : List Char → Option ℕ
  | [] => none
  | t :: s => if t = nul then none else if t = c then some 0 else (strchr c s).map (· + 1)

lemma strchr_some {c : Char} {s : List Char} {q : ℕ} (h : strchr c s = some q) :
    ∃ l s', s = l ++ c :: s' ∧ l.length = q ∧ nul ∉ l ∧ c ∉ l := by
  induction s generalizing q with
  | nil => cases h
  | cons t s ih =>
    rw [strchr] at h
    by_cases h1 : t = nul
    · rw [if_pos h1] at h
      cases h
    · rw [if_neg h1] at h
      by_cases h2 : t = c
      · rw [if_pos h2] at h
        exact ⟨[], s, by rw [h2]; rfl, Option.some.inj h, List.not_mem_nil, List.not_mem_nil⟩
      · rw [if_neg h2] at h
        obtain ⟨q', hq', rfl⟩ := Option.map_eq_some_iff.mp h
        obtain ⟨l, s', rfl, rfl, h3, h4⟩ := ih hq'
        exact ⟨t :: l, s', rfl, rfl, List.not_mem_cons_of_ne_of_not_mem (Ne.symm h1) h3,
          List.not_mem_cons_of_ne_of_not_mem (Ne.symm h2) h4⟩

lemma strchr_none {c : Char} {s : List Char} (h : strchr c s = none) :
    c ∉ s ∨ ∃ l s', s = l ++ nul :: s' ∧ c ∉ l := by
  induction s with
  | nil => exact Or.inl List.not_mem_nil
  | cons t s ih =>
    rw [strchr] at h
    by_cases h1 : t = nul
    · exact Or.inr ⟨[], s, by rw [h1]; rfl, List.not_mem_nil⟩
    · rw [if_neg h1] at h
      by_cases h2 : t = c
      · rw [if_pos h2] at h
        cases h
      · rw [if_neg h2, Option.map_eq_none_iff] at h
        rcases ih h with h3 | ⟨l, s', rfl, h3⟩
        · exact Or.inl (List.not_mem_cons_of_ne_of_not_mem (Ne.symm h2) h3)
        · exact Or.inr ⟨t :: l, s', rfl, List.not_mem_cons_of_ne_of_not_mem (Ne.symm h2) h3⟩

lemma strchr_lt {c : Char} {s : List Char} {q : ℕ} (h : strchr c s = some q) : q < s.length := by
  obtain ⟨l, s', rfl, rfl, -⟩ := strchr_some h
  simp

variable (pattern : List Char)

/-- The inner loop: what is written for the lines from `p` on, and where `p` ends. -/
def lines (p : List Char) : List (List Char) × List Char :=
  match _h : strchr '\n' p with
  | none => ([], p)
  | some q =>
    let r := lines (p.drop (q + 1))
    (if matchRe pattern (p.take q) then p.take (q + 1) :: r.1 else r.1, r.2)
termination_by p.length
decreasing_by
  have := strchr_lt _h
  rw [List.length_drop]
  omega

/-- The writes so far, and the first `m` bytes of the buffer. -/
structure State where
  out : List (List Char)
  buf : List Char

/-- `sizeof(buf)` -/
def SIZE : ℕ := 1024

def room (s : State) : ℕ := SIZE - s.buf.length - 1

def round (s : State) (c : List Char) : State :=
  let (out, p) := lines pattern (s.buf ++ c)
  ⟨s.out ++ out, p⟩

/-- `grep` on an input with the data `d`, where the reads return what `choose` says. -/
def grep (choose : ℕ → ℕ) (d : List Char) : State :=
  Chunks.loop room (round pattern) choose ⟨[], []⟩ d

/-- A line that fits into the buffer with its newline, and is a string. -/
def Fits (l : List Char) : Prop := nul ∉ l ∧ l.length + 1 < SIZE

instance : DecidablePred Fits := fun _ => inferInstanceAs (Decidable (_ ∧ _))

/-- The lines that end in a newline, up to the first that does not fit. -/
def wholeLines (d : List Char) : List (List Char) := (d.splitOn '\n').dropLast.takeWhile (Fits ·)

/-- What should be printed. -/
def printed (d : List Char) : List (List Char) :=
  ((wholeLines d).filter (· ∈ (parse pattern).lang)).map (· ++ ['\n'])

lemma lines_none {p : List Char} (h : strchr '\n' p = none) : lines pattern p = ([], p) := by
  rw [lines]
  split
  · rfl
  · rename_i q h1
    cases h.symm.trans h1

lemma lines_some {p : List Char} {q : ℕ} (h : strchr '\n' p = some q) : lines pattern p =
    (if matchRe pattern (p.take q) then p.take (q + 1) :: (lines pattern (p.drop (q + 1))).1
      else (lines pattern (p.drop (q + 1))).1, (lines pattern (p.drop (q + 1))).2) := by
  rw [lines]
  split
  · rename_i h1
    cases h.symm.trans h1
  · rename_i q' h1
    obtain rfl := Option.some.inj (h.symm.trans h1)
    rfl

variable {pattern} {l d p s : List Char}

lemma no_newline (h : '\n' ∉ l) : ∀ c ∈ l, (c == '\n') = false := by
  intro c hc
  rw [beq_eq_false_iff_ne]
  rintro rfl
  exact h hc

lemma splitOn_cons (h : '\n' ∉ l) : (l ++ '\n' :: d).splitOn '\n' = l :: d.splitOn '\n' :=
  List.splitOnP_append_cons_of_forall_mem (no_newline h) _ (by decide) _

lemma wholeLines_cons (h : '\n' ∉ l) (hl : Fits l) :
    wholeLines (l ++ '\n' :: d) = l :: wholeLines d := by
  rw [wholeLines, splitOn_cons h, List.dropLast_cons_of_ne_nil (List.splitOn_ne_nil _ _)]
  exact List.takeWhile_cons_of_pos (decide_eq_true hl)

lemma wholeLines_stop (h : '\n' ∉ l) (hl : ¬Fits l) : wholeLines (l ++ '\n' :: d) = [] := by
  rw [wholeLines, splitOn_cons h, List.dropLast_cons_of_ne_nil (List.splitOn_ne_nil _ _)]
  exact List.takeWhile_cons_of_neg (by rwa [decide_eq_true_iff])

lemma wholeLines_last (h : '\n' ∉ d) : wholeLines d = [] := by
  rw [wholeLines, List.splitOn_eq_splitOnP, List.splitOnP_eq_singleton]
  · rfl
  · exact no_newline h

lemma prefix_of_newline (hs : p ++ d = l ++ '\n' :: s) (hp : '\n' ∉ p) : p <+: l := by
  rcases List.append_eq_append_iff.mp hs with ⟨a, rfl, -⟩ | ⟨a, rfl, ha⟩
  · exact List.prefix_append ..
  · rcases a with _ | ⟨c, a⟩
    · simp
    · obtain ⟨rfl, -⟩ := List.cons.inj ha
      exact absurd (List.mem_append_right _ (List.mem_cons_self ..)) hp

lemma wholeLines_end (h : strchr '\n' p = none) (hend : SIZE ≤ p.length + 1 ∨ d = []) :
    wholeLines (p ++ d) = [] := by
  by_cases hn : '\n' ∈ p ++ d
  · obtain ⟨l, s, hs, hl⟩ := List.eq_append_cons_of_mem hn
    rw [hs]
    refine wholeLines_stop hl fun hf => ?_
    rcases strchr_none h with h1 | ⟨l', s', rfl, h1⟩
    · rcases hend with h2 | rfl
      · have := (prefix_of_newline hs h1).length_le
        have := hf.2
        omega
      · rw [List.append_nil] at hn
        exact h1 hn
    · have h2 : (l' ++ [nul]) ++ (s' ++ d) = l ++ '\n' :: s := by simpa using hs
      have h3 : '\n' ∉ l' ++ [nul] := by
        simpa [h1] using (show '\n' ≠ nul by decide)
      exact hf.1 ((prefix_of_newline h2 h3).subset (by simp))
  · exact wholeLines_last hn

variable (pattern) in
lemma lines_spec (p : List Char) (hp : p.length < SIZE) (d : List Char) :
    printed pattern (p ++ d) = (lines pattern p).1 ++ printed pattern ((lines pattern p).2 ++ d) ∧
      strchr '\n' (lines pattern p).2 = none ∧ (lines pattern p).2.length ≤ p.length := by
  induction p using lines.induct pattern with
  | case1 p h =>
    rw [lines_none pattern h]
    exact ⟨rfl, h, le_rfl⟩
  | case2 p q h ih =>
    obtain ⟨l, s, rfl, rfl, h1, h2⟩ := strchr_some h
    have htake : (l ++ '\n' :: s).take l.length = l := List.take_left ..
    have htake' : (l ++ '\n' :: s).take (l.length + 1) = l ++ ['\n'] := by simp [List.take_append]
    have hdrop : (l ++ '\n' :: s).drop (l.length + 1) = s := by simp [List.drop_append]
    rw [hdrop] at ih
    rw [List.length_append, List.length_cons] at hp
    obtain ⟨ih1, ih2, ih3⟩ := ih (by omega)
    have hf : Fits l := ⟨h1, by omega⟩
    rw [lines_some pattern h, htake, htake', hdrop]
    refine ⟨?_, ih2, by simp; omega⟩
    rw [List.append_assoc, List.cons_append, printed, wholeLines_cons h2 hf, List.filter_cons]
    by_cases hm : matchRe pattern l = true
    · rw [if_pos hm, if_pos (decide_eq_true ((matchRe_iff ..).mp hm)), List.map_cons]
      exact congrArg _ ih1
    · rw [if_neg hm, if_neg (by rwa [decide_eq_true_iff, ← matchRe_iff])]
      exact ih1

/-- **`grep` prints the lines that match**: whatever the pattern and the input, and whatever sizes
the reads return, it writes exactly the lines that have a match, each with its newline and in
order, up to the first line with a NUL or of more than 1022 characters; a last line without a
newline is not printed. -/
theorem grep_prints (choose : ℕ → ℕ) (d : List Char) :
    (grep pattern choose d).out = printed pattern d := by
  let I (s : State) (r : List Char) : Prop := s.out ++ printed pattern (s.buf ++ r) =
    printed pattern d ∧ strchr '\n' s.buf = none ∧ s.buf.length < SIZE
  have hstep : ∀ s c r, I s (c ++ r) → c ≠ [] → c.length ≤ room s → I (round pattern s c) r := by
    rintro s c r ⟨h1, -, -⟩ hc0 hc
    have hp : (s.buf ++ c).length < SIZE := by
      have := List.length_pos_iff.mpr hc0
      rw [room] at hc
      rw [List.length_append]
      omega
    obtain ⟨h2, h3, h4⟩ := lines_spec pattern (s.buf ++ c) hp r
    refine ⟨?_, h3, h4.trans_lt hp⟩
    rw [← h1, ← List.append_assoc s.buf, h2, ← List.append_assoc]
    rfl
  have hinit : I ⟨[], []⟩ d := ⟨rfl, rfl, by decide⟩
  obtain ⟨r, ⟨h1, h2, -⟩, hend⟩ := Chunks.loop_rule choose hstep _ _ hinit
  rw [← grep] at h1 h2 hend
  have h4 : printed pattern ((grep pattern choose d).buf ++ r) = [] := by
    rw [printed, wholeLines_end h2 (hend.imp_left fun h => by rw [room] at h; omega)]
    rfl
  rw [← h1, h4, List.append_nil]

end Xv6.Grep
