import Xv6.Sh
import Mathlib.Tactic.Common

/-!
Lexing: the text of a list of tokens, with any whitespace around them, and what `gettoken` and
`peek` see of it. `Here` says that from the cursor on the buffer holds such a text; the parser is
then followed on the list of tokens.
-/

namespace Xv6.Sh

/-! ### Tokens and their text -/

inductive Tok where
  | bar
  | lpar
  | rpar
  | semi
  | amp
  | lt
  | gt
  | gtgt
  | word (w : List Char)
deriving DecidableEq

def Tok.chars : Tok → List Char
  | .bar => ['|']
  | .lpar => ['(']
  | .rpar => [')']
  | .semi => [';']
  | .amp => ['&']
  | .lt => ['<']
  | .gt => ['>']
  | .gtgt => ['>', '>']
  | .word w => w

/-- What `gettoken` returns for the token. -/
def Tok.code : Tok → Char
  | .bar => '|'
  | .lpar => '('
  | .rpar => ')'
  | .semi => ';'
  | .amp => '&'
  | .lt => '<'
  | .gt => '>'
  | .gtgt => '+'
  | .word _ => 'a'

/-- A character of a word: neither whitespace nor a symbol, nor the NUL. -/
def wordChar (c : Char) : Bool := plain c && c != nul

/-- Words are not empty and consist of such characters. -/
def Tok.Ok : Tok → Prop
  | .word w => w ≠ [] ∧ ∀ c ∈ w, wordChar c = true
  | _ => True

instance (t : Tok) : Decidable t.Ok :=
  match t with
  | .word w => @instDecidableAnd _ _ inferInstance (List.decidableBAll (wordChar · = true) w)
  | .bar | .lpar | .rpar | .semi | .amp | .lt | .gt | .gtgt => isTrue trivial

def Tok.isWord : Tok → Bool
  | .word _ => true
  | _ => false

def IsSpace (g : List Char) : Prop := ∀ c ∈ g, c ∈ whitespace

instance (g : List Char) : Decidable (IsSpace g) :=
  List.decidableBAll (· ∈ whitespace) g

/-- The text of the tokens, with whitespace before, between and behind them; two words have
whitespace between them. -/
inductive Spaced : List Tok → List Char → Prop where
  | nil {g : List Char} (hg : IsSpace g) : Spaced [] g
  | cons {g rest : List Char} {t : Tok} {ts : List Tok} (hg : IsSpace g) (ht : t.Ok)
      (hrest : Spaced ts rest)
      (hsep : t.isWord = true → (∃ u ∈ ts.head?, u.isWord = true) → ∃ c ∈ rest.head?, c ∈ whitespace) :
      Spaced (t :: ts) (g ++ (t.chars ++ rest))

lemma strchr_iff {s : List Char} {c : Char} : strchr s c = true ↔ c ∈ s := by
  unfold strchr
  exact List.contains_iff_mem

lemma wordChar_not_white {c : Char} (h : wordChar c = true) : strchr whitespace c = false := by
  unfold wordChar plain at h
  revert h
  cases strchr whitespace c <;> simp

lemma wordChar_not_symbol {c : Char} (h : wordChar c = true) : c ∉ symbols := by
  intro hc
  unfold wordChar plain at h
  rw [strchr_iff.mpr hc] at h
  simp at h

lemma wordChar_ne_nul {c : Char} (h : wordChar c = true) : c ≠ nul := by
  unfold wordChar at h
  intro hc
  simp [hc] at h

lemma wordChar_plain {c : Char} (h : wordChar c = true) : plain c = true := by
  unfold wordChar at h
  exact (Bool.and_eq_true_iff.mp h).1

lemma white_not_plain {c : Char} (h : c ∈ whitespace) : plain c = false := by
  unfold plain
  rw [strchr_iff.mpr h]
  rfl

lemma symbol_not_plain {c : Char} (h : c ∈ symbols) : plain c = false := by
  unfold plain
  rw [strchr_iff.mpr h]
  simp

lemma Tok.Ok.head {t : Tok} (h : t.Ok) :
    ∃ c cs, t.chars = c :: cs ∧ strchr whitespace c = false ∧ c ≠ nul := by
  cases t with
  | word w =>
    obtain ⟨hne, hw⟩ := h
    obtain ⟨c, cs, rfl⟩ := List.exists_cons_of_ne_nil hne
    have hc := hw c List.mem_cons_self
    exact ⟨c, cs, rfl, wordChar_not_white hc, wordChar_ne_nul hc⟩
  | _ => exact ⟨_, _, rfl, by decide, by decide⟩

lemma dropWhile_space {g l : List Char} (hg : IsSpace g) :
    (g ++ l).dropWhile (strchr whitespace) = l.dropWhile (strchr whitespace) := by
  rw [List.dropWhile_append_of_pos]
  exact fun c hc => strchr_iff.mpr (hg c hc)

lemma Spaced.dropWhile_nil {l : List Char} (h : Spaced [] l) :
    l.dropWhile (strchr whitespace) = [] := by
  cases h with
  | nil hg =>
    have := dropWhile_space (l := []) hg
    simpa using this

lemma Spaced.dropWhile_cons {t : Tok} {ts : List Tok} {l : List Char} (h : Spaced (t :: ts) l) :
    t.Ok ∧ ∃ rest, l.dropWhile (strchr whitespace) = t.chars ++ rest ∧ Spaced ts rest ∧
      (t.isWord = true → (∃ u ∈ ts.head?, u.isWord = true) → ∃ c ∈ rest.head?, c ∈ whitespace) := by
  cases h with
  | cons hg ht hrest hsep =>
    refine ⟨ht, _, ?_, hrest, hsep⟩
    rw [dropWhile_space hg]
    obtain ⟨c, cs, hc, hw, -⟩ := ht.head
    rw [hc, List.cons_append, List.dropWhile_cons, hw]
    rfl

lemma Spaced.dropWhile {ts : List Tok} {l : List Char} (h : Spaced ts l) :
    Spaced ts (l.dropWhile (strchr whitespace)) := by
  cases ts with
  | nil =>
    rw [h.dropWhile_nil]
    exact .nil fun c hc => absurd hc List.not_mem_nil
  | cons t ts =>
    obtain ⟨ht, rest, hl, hrest, hsep⟩ := h.dropWhile_cons
    rw [hl]
    exact .cons (g := []) (fun c hc => absurd hc List.not_mem_nil) ht hrest hsep

lemma Spaced.head {ts : List Tok} {l : List Char} (h : Spaced ts l) {c : Char}
    (hc : c ∈ l.head?) : c ∈ whitespace ∨ ∃ t ∈ ts.head?, c ∈ t.chars.head? := by
  cases h with
  | nil hg => exact Or.inl (hg c (List.mem_of_mem_head? hc))
  | @cons g rest t ts hg ht hrest hsep =>
    cases g with
    | nil =>
      obtain ⟨d, cs, hd, -, -⟩ := ht.head
      refine Or.inr ⟨t, rfl, ?_⟩
      rw [hd] at hc ⊢
      exact hc
    | cons d g =>
      refine Or.inl (hg c ?_)
      rw [List.cons_append, List.head?_cons] at hc
      rw [Option.mem_some_iff.mp hc]
      exact List.mem_cons_self

lemma Spaced.ends_word {ts : List Tok} {l : List Char} (h : Spaced ts l)
    (hsep : (∃ u ∈ ts.head?, u.isWord = true) → ∃ c ∈ l.head?, c ∈ whitespace) {c : Char}
    (hc : c ∈ l.head?) : plain c = false := by
  rcases h.head hc with hw | ⟨t, ht, hct⟩
  · exact white_not_plain hw
  · cases t with
    | word w =>
      obtain ⟨d, hd, hw⟩ := hsep ⟨_, ht, rfl⟩
      rw [Option.mem_unique hc hd]
      exact white_not_plain hw
    | _ =>
      refine symbol_not_plain ?_
      rw [← Option.mem_some_iff.mp hct]
      decide

/-! ### The buffer from the cursor on -/

section

variable {buf : ℕ → Char} {es s : ℕ}

/-- From `s` to the NUL the buffer holds the text. -/
structure Text (buf : ℕ → Char) (es s : ℕ) (l : List Char) : Prop where
  length : s + l.length = es
  get : ∀ i (h : i < l.length), buf (s + i) = l[i]

lemma Text.tail {c : Char} {l : List Char} (h : Text buf es s (c :: l)) :
    Text buf es (s + 1) l := by
  refine ⟨?_, fun i hi => ?_⟩
  · have := h.length
    rw [List.length_cons] at this
    omega
  · have := h.get (i + 1) (by rw [List.length_cons]; omega)
    rw [Nat.add_assoc, Nat.add_comm 1 i, this, List.getElem_cons_succ]

lemma Text.head {c : Char} {l : List Char} (h : Text buf es s (c :: l)) : buf s = c := by
  have := h.get 0 (by simp)
  rwa [Nat.add_zero, List.getElem_cons_zero] at this

lemma Text.append {g l : List Char} (h : Text buf es s (g ++ l)) :
    Text buf es (s + g.length) l := by
  induction g generalizing s with
  | nil => exact h
  | cons c g ih =>
    rw [List.length_cons, Nat.add_comm g.length 1, ← Nat.add_assoc]
    exact ih h.tail

lemma Text.scan {l : List Char} (h : Text buf es s l) (f : Char → Bool) :
    Sh.scan f buf (es - s) s = s + (l.takeWhile f).length := by
  induction l generalizing s with
  | nil =>
    have hes := h.length
    rw [show es - s = 0 by simp at hes; omega]
    rfl
  | cons c l ih =>
    have hlen := h.length
    rw [List.length_cons] at hlen
    rw [show es - s = (es - (s + 1)) + 1 by omega, Sh.scan, h.head, List.takeWhile_cons]
    by_cases hc : f c = true
    · rw [if_pos hc, if_pos hc, ih h.tail, List.length_cons]
      omega
    · rw [if_neg hc, if_neg hc]
      rfl

lemma Text.skip {l : List Char} (h : Text buf es s l) :
    Text buf es (skip buf es s) (l.dropWhile (strchr whitespace)) ∧ s ≤ Sh.skip buf es s := by
  unfold Sh.skip
  rw [h.scan]
  refine ⟨Text.append ?_, by omega⟩
  rwa [List.takeWhile_append_dropWhile]

/-! ### What the lexer sees -/

/-- From `s` on the buffer holds the text of the tokens. -/
def Here (buf : ℕ → Char) (es s : ℕ) (ts : List Tok) : Prop :=
  ∃ l, Text buf es s l ∧ Spaced ts l

/-- The characters of a slice. -/
def slice (buf : ℕ → Char) (q : Slice) : List Char :=
  (List.range (q.2 - q.1)).map fun i => buf (q.1 + i)

/-- A slice is a word with something else behind it. -/
structure Marked (buf : ℕ → Char) (es : ℕ) (q : Slice) : Prop where
  start : q.1 ≤ q.2
  le : q.2 ≤ es
  word : ∀ i, q.1 ≤ i → i < q.2 → wordChar (buf i) = true
  stop : wordChar (buf q.2) = false

/-- Whether the first token starts with one of the symbols. -/
def starts (toks : List Char) : List Tok → Bool
  | [] => false
  | .word _ :: _ => false
  | t :: _ => t.chars.any (strchr toks)

@[simp] lemma starts_nil (toks : List Char) : starts toks [] = false := rfl

@[simp] lemma starts_word (toks : List Char) (w : List Char) (ts : List Tok) :
    starts toks (.word w :: ts) = false := rfl

lemma Here.peek {ts : List Tok} (h : Here buf es s ts) (hes : buf es = nul) {toks : List Char}
    (htoks : toks ⊆ symbols) :
    (peek buf es s toks).1 = starts toks ts ∧ Here buf es (peek buf es s toks).2 ts ∧
      s ≤ (peek buf es s toks).2 := by
  obtain ⟨l, htext, hl⟩ := h
  obtain ⟨hskip, hle⟩ := htext.skip
  refine ⟨?_, ⟨_, hskip, hl.dropWhile⟩, hle⟩
  unfold Sh.peek
  dsimp only
  cases ts with
  | nil =>
    rw [hl.dropWhile_nil] at hskip
    have hend := hskip.length
    rw [List.length_nil, Nat.add_zero] at hend
    rw [hend, hes]
    simp [starts]
  | cons t ts =>
    obtain ⟨ht, rest, hdrop, -, -⟩ := hl.dropWhile_cons
    rw [hdrop] at hskip
    obtain ⟨c, cs, hc, -, hnul⟩ := ht.head
    rw [hc, List.cons_append] at hskip
    rw [hskip.head, bne_iff_ne.mpr hnul, Bool.true_and]
    cases t with
    | word w =>
      have hcw : wordChar c = true := by
        refine ht.2 c ?_
        change w = c :: cs at hc
        rw [hc]
        exact List.mem_cons_self
      change strchr toks c = false
      by_contra hcon
      rw [Bool.not_eq_false, strchr_iff] at hcon
      exact wordChar_not_symbol hcw (htoks hcon)
    | gtgt =>
      obtain ⟨rfl, rfl⟩ := List.cons.inj hc
      simp [starts, Tok.chars]
    | _ =>
      obtain ⟨rfl, rfl⟩ := List.cons.inj hc
      simp [starts, Tok.chars]

lemma Text.get_end {l : List Char} (h : Text buf es s l) (hes : buf es = nul)
    (hl : ∀ c ∈ l.head?, plain c = false) : wordChar (buf s) = false := by
  cases l with
  | nil =>
    have hlen := h.length
    rw [List.length_nil, Nat.add_zero] at hlen
    rw [hlen, hes]
    decide
  | cons c l =>
    rw [h.head]
    unfold wordChar
    rw [hl c rfl]
    rfl

lemma takeWhile_word {w l : List Char} (hw : ∀ c ∈ w, wordChar c = true)
    (hl : ∀ c ∈ l.head?, plain c = false) : (w ++ l).takeWhile plain = w := by
  rw [List.takeWhile_append_of_pos fun c hc => wordChar_plain (hw c hc)]
  cases l with
  | nil => simp
  | cons c l => rw [List.takeWhile_cons, hl c rfl, if_neg Bool.false_ne_true, List.append_nil]

/-- The token at the cursor. -/
lemma Text.tokenAt {t : Tok} {rest : List Char} (h : Text buf es s (t.chars ++ rest))
    (ht : t.Ok) (hw : t.isWord = true → ∀ c ∈ rest.head?, plain c = false)
    (hgt : t = .gt → rest.head? ≠ some '>') (hes : buf es = nul) :
    Sh.tokenAt buf es s = (t.code, s + t.chars.length) := by
  unfold Sh.tokenAt
  cases t with
  | word w =>
    obtain ⟨hne, hall⟩ := ht
    obtain ⟨c, cs, rfl⟩ := List.exists_cons_of_ne_nil hne
    have hc := hall c List.mem_cons_self
    have hhead : buf s = c := Text.head (l := cs ++ rest) h
    have hsym : ∀ d, d ∈ symbols → c ≠ d := fun d hd he => wordChar_not_symbol hc (he ▸ hd)
    rw [hhead, if_neg (wordChar_ne_nul hc), if_neg, if_neg (hsym '>' (by decide)), h.scan]
    · rw [show (Tok.word (c :: cs)).chars = c :: cs from rfl, takeWhile_word hall (hw rfl)]
      rfl
    · intro hmem
      exact hsym c ((by decide : ['|', '(', ')', ';', '&', '<'] ⊆ symbols) hmem) rfl
  | gt =>
    have hhead : buf s = '>' := Text.head (l := rest) h
    have htail : Text buf es (s + 1) rest := Text.tail h
    have hne : buf (s + 1) ≠ '>' := by
      cases rest with
      | nil =>
        have hlen := htail.length
        rw [List.length_nil, Nat.add_zero] at hlen
        rw [hlen, hes]
        decide
      | cons c rest =>
        rw [htail.head]
        intro he
        exact hgt rfl (by rw [he]; rfl)
    rw [hhead, if_neg (by decide), if_neg (by decide), if_pos rfl, if_neg hne]
    rfl
  | gtgt =>
    have hhead : buf s = '>' := Text.head (l := '>' :: rest) h
    have htail : Text buf es (s + 1) ('>' :: rest) := Text.tail h
    rw [hhead, if_neg (by decide), if_neg (by decide), if_pos rfl, if_pos htail.head]
    rfl
  | _ =>
    have hhead := Text.head (l := rest) h
    rw [hhead]
    rfl

lemma Text.slice {w rest : List Char} (h : Text buf es s (w ++ rest)) :
    Sh.slice buf (s, s + w.length) = w := by
  unfold Sh.slice
  refine List.ext_getElem (by simp) fun i h1 h2 => ?_
  have hget := h.get i (by rw [List.length_append]; omega)
  rw [List.getElem_append_left h2] at hget
  rw [List.getElem_map, List.getElem_range]
  exact hget

/-- `gettoken` takes the first token. -/
lemma Here.gettoken {t : Tok} {ts : List Tok} (h : Here buf es s (t :: ts)) (hes : buf es = nul)
    (hgt : t = .gt → (∃ w, ts.head? = some (.word w))) :
    (gettoken buf es s).1 = t.code ∧ Here buf es (gettoken buf es s).2.2 ts ∧
      s < (gettoken buf es s).2.2 ∧ ∀ w, t = .word w →
        slice buf (gettoken buf es s).2.1 = w ∧ Marked buf es (gettoken buf es s).2.1 := by
  obtain ⟨l, htext, hl⟩ := h
  obtain ⟨hskip, hle⟩ := htext.skip
  obtain ⟨ht, rest, hdrop, hrest, hsep⟩ := hl.dropWhile_cons
  rw [hdrop] at hskip
  have hends : t.isWord = true → ∀ c ∈ rest.head?, plain c = false :=
    fun hw c hc => hrest.ends_word (hsep hw) hc
  have htok := hskip.tokenAt ht hends (fun he hr => by
    obtain ⟨w, hw⟩ := hgt he
    rcases hrest.head (c := '>') hr with hc | ⟨u, hu, hc⟩
    · revert hc
      decide
    · rw [Option.mem_def, hw] at hu
      obtain rfl := Option.some.inj hu
      cases ts with
      | nil => cases hw
      | cons v ts =>
        obtain rfl := Option.some.inj hw
        have hword := hrest.dropWhile_cons.1.2 '>' (List.mem_of_mem_head? hc)
        revert hword
        decide) hes
  obtain ⟨hnext, hle'⟩ := hskip.append.skip
  unfold Sh.gettoken
  dsimp only
  rw [htok]
  refine ⟨rfl, ⟨_, hnext, hrest.dropWhile⟩, ?_, ?_⟩
  · obtain ⟨c, cs, hc, -, -⟩ := ht.head
    have hpos : 0 < t.chars.length := by
      rw [hc]
      exact Nat.succ_pos _
    dsimp only
    omega
  · rintro w rfl
    have hlen := hskip.length
    rw [List.length_append] at hlen
    refine ⟨hskip.slice, ⟨Nat.le_add_right _ _, ?_, fun i h1 h2 => ?_, ?_⟩⟩
    · dsimp only
      omega
    · dsimp only at h1 h2
      obtain ⟨j, rfl⟩ := Nat.exists_eq_add_of_le h1
      have hj : j < (Tok.word w).chars.length := by omega
      have hget := hskip.get j (by rw [List.length_append]; omega)
      rw [List.getElem_append_left hj] at hget
      rw [hget]
      exact ht.2 _ (List.getElem_mem hj)
    · exact hskip.append.get_end hes (hends rfl)

lemma Here.gettoken_nil (h : Here buf es s []) (hes : buf es = nul) :
    (Sh.gettoken buf es s).1 = nul ∧ Here buf es (Sh.gettoken buf es s).2.2 [] ∧
      s ≤ (Sh.gettoken buf es s).2.2 := by
  obtain ⟨l, htext, hl⟩ := h
  obtain ⟨hskip, hle⟩ := htext.skip
  rw [hl.dropWhile_nil] at hskip
  have hend := hskip.length
  rw [List.length_nil, Nat.add_zero] at hend
  have htok : Sh.tokenAt buf es (Sh.skip buf es s) = (nul, Sh.skip buf es s) := by
    unfold Sh.tokenAt
    rw [hend, hes, if_pos rfl]
  obtain ⟨hnext, hle'⟩ := hskip.skip
  unfold Sh.gettoken
  dsimp only
  rw [htok]
  refine ⟨rfl, ⟨_, hnext, ?_⟩, Nat.le_trans hle hle'⟩
  rw [List.dropWhile_nil]
  exact .nil fun c hc => absurd hc List.not_mem_nil

end

end Xv6.Sh
