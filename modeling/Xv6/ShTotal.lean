import Xv6.ShParse
import Mathlib.Data.List.GetD
import Mathlib.Data.List.TakeWhile

/-!
What `parsecmd` does with a command line: with any text it comes to an end, and with the text of a
command it returns the command, the strings read after `nulterminate` being the words.
-/

namespace Xv6.Sh

variable {buf : ℕ → Char} {es s q : ℕ}

/-! ### The cursor -/

lemma scan_bounds (f : Char → Bool) (buf : ℕ → Char) (n s : ℕ) :
    s ≤ scan f buf n s ∧ scan f buf n s ≤ s + n := by
  induction n generalizing s with
  | zero => exact ⟨Nat.le_refl _, Nat.le_refl _⟩
  | succ n ih =>
    rw [scan]
    split_ifs
    · have := ih (s + 1)
      omega
    · omega

lemma scan_stop (f : Char → Bool) (buf : ℕ → Char) (n s : ℕ) (h : scan f buf n s < s + n) :
    f (buf (scan f buf n s)) = false := by
  induction n generalizing s with
  | zero => exact absurd h (Nat.lt_irrefl _)
  | succ n ih =>
    rw [scan] at h ⊢
    split_ifs at h ⊢ with hf
    · exact ih (s + 1) (by omega)
    · simpa using hf

lemma skip_bounds (buf : ℕ → Char) (h : s ≤ es) : s ≤ skip buf es s ∧ skip buf es s ≤ es := by
  have := scan_bounds (strchr whitespace) buf (es - s) s
  unfold skip
  omega

lemma skip_stop (buf : ℕ → Char) (h : skip buf es s < es) (hs : s ≤ es) :
    strchr whitespace (buf (skip buf es s)) = false := by
  unfold skip at h ⊢
  exact scan_stop _ _ _ _ (by omega)

lemma skip_skip (buf : ℕ → Char) (h : s ≤ es) :
    skip buf es (skip buf es s) = skip buf es s := by
  have hb := skip_bounds buf h
  by_cases he : skip buf es s = es
  · rw [he]
    unfold skip
    rw [Nat.sub_self]
    rfl
  · have hstop := skip_stop buf (by omega) h
    obtain ⟨n, hn⟩ := Nat.exists_eq_succ_of_ne_zero (show es - skip buf es s ≠ 0 by omega)
    rw [skip, hn, scan, hstop]
    rfl

/-- The token lies before the NUL, and there is one unless the NUL is next. -/
lemma tokenAt_bounds (hes : buf es = nul) (hq : q ≤ es) : q ≤ (tokenAt buf es q).2 ∧
    (tokenAt buf es q).2 ≤ es ∧ (buf q ≠ nul → strchr whitespace (buf q) = false →
      q < (tokenAt buf es q).2) := by
  unfold tokenAt
  by_cases h0 : buf q = nul
  · rw [if_pos h0]
    exact ⟨Nat.le_refl _, hq, fun hc => absurd h0 hc⟩
  rw [if_neg h0]
  have hlt : q < es := Nat.lt_of_le_of_ne hq fun he => h0 (he ▸ hes)
  by_cases h1 : buf q ∈ ['|', '(', ')', ';', '&', '<']
  · rw [if_pos h1]
    exact ⟨by omega, hlt, fun _ _ => Nat.lt_succ_self _⟩
  rw [if_neg h1]
  by_cases h2 : buf q = '>'
  · rw [if_pos h2]
    by_cases h3 : buf (q + 1) = '>'
    · rw [if_pos h3]
      have hne : q + 1 ≠ es := by
        rintro rfl
        rw [h3] at hes
        revert hes
        decide
      exact ⟨by omega, by omega, fun _ _ => by omega⟩
    · rw [if_neg h3]
      exact ⟨by omega, hlt, fun _ _ => Nat.lt_succ_self _⟩
  rw [if_neg h2]
  have hb := scan_bounds plain buf (es - q) q
  refine ⟨hb.1, by omega, fun _ hw => ?_⟩
  obtain ⟨n, hn⟩ := Nat.exists_eq_succ_of_ne_zero (show es - q ≠ 0 by omega)
  have hsym : strchr symbols (buf q) = false := by
    by_contra hc
    rw [Bool.not_eq_false, strchr_iff] at hc
    simp only [symbols, List.mem_cons, List.not_mem_nil, or_false] at hc h1
    tauto
  have hplain : plain (buf q) = true := by
    unfold plain
    rw [hw, hsym]
    rfl
  rw [hn, scan, if_pos hplain]
  have := scan_bounds plain buf n (q + 1)
  omega

lemma gettoken_bounds (hes : buf es = nul) (hs : s ≤ es) : s ≤ (gettoken buf es s).2.2 ∧
    (gettoken buf es s).2.2 ≤ es := by
  have hb := skip_bounds buf hs
  have ht := tokenAt_bounds hes hb.2
  have hb' := skip_bounds buf ht.2.1
  exact ⟨Nat.le_trans hb.1 (Nat.le_trans ht.1 hb'.1), hb'.2⟩

lemma gettoken_lt (hes : buf es = nul) (hs : s ≤ es) (h : buf (skip buf es s) ≠ nul) :
    s < (gettoken buf es s).2.2 := by
  have hb := skip_bounds buf hs
  have hlt : skip buf es s < es := by
    refine Nat.lt_of_le_of_ne hb.2 fun he => h ?_
    rw [he, hes]
  have ht := tokenAt_bounds hes hb.2
  have hb' := skip_bounds buf ht.2.1
  exact Nat.lt_of_le_of_lt hb.1 (Nat.lt_of_lt_of_le (ht.2.2 h (skip_stop buf hlt hs)) hb'.1)

lemma gettoken_nul (h : (gettoken buf es s).1 ≠ nul) : buf (skip buf es s) ≠ nul := by
  intro h0
  refine h ?_
  unfold gettoken tokenAt
  dsimp only
  rw [if_pos h0]

lemma peek_gettoken (hes : buf es = nul) (hs : s ≤ es) (toks : List Char) :
    s ≤ (peek buf es s toks).2 ∧ (peek buf es s toks).2 ≤ es ∧
      ((peek buf es s toks).1 = true →
        s < (gettoken buf es (peek buf es s toks).2).2.2 ∧
          (gettoken buf es (peek buf es s toks).2).2.2 ≤ es) := by
  have hb := skip_bounds buf hs
  refine ⟨hb.1, hb.2, fun hp => ?_⟩
  have hnul : buf (skip buf es s) ≠ nul := by
    unfold peek at hp
    exact bne_iff_ne.mp (Bool.and_eq_true_iff.mp hp).1
  have hlt := gettoken_lt hes hb.2 (by rwa [skip_skip buf hs])
  exact ⟨Nat.lt_of_le_of_lt hb.1 hlt, (gettoken_bounds hes hb.2).2⟩

/-! ### Every call comes to an end -/

/-- A result, with the cursor not moved back, or a message. -/
def Ends (es s : ℕ) : Except Panic (Cmd Slice × ℕ) → Prop
  | .ok r => s ≤ r.2 ∧ r.2 ≤ es
  | .error e => e ≠ .diverge

lemma ends_message {e : Panic} (he : e ≠ .diverge) : Ends es s (.error e) := he

lemma Ends.mono {x : Except Panic (Cmd Slice × ℕ)} {s' : ℕ} (h : Ends es s' x) (hs : s ≤ s') :
    Ends es s x := by
  cases x with
  | ok r => exact ⟨Nat.le_trans hs h.1, h.2⟩
  | error e => exact h

lemma Ends.bind {x : Except Panic (Cmd Slice × ℕ)} {f : Cmd Slice × ℕ → Except Panic (Cmd Slice × ℕ)}
    (h : Ends es s x) (hf : ∀ r, s ≤ r.2 → r.2 ≤ es → Ends es s (f r)) : Ends es s (x >>= f) := by
  cases x with
  | ok r => exact hf r h.1 h.2
  | error e => exact h

lemma parseredirs_ends (hes : buf es = nul) : ∀ (n s : ℕ) (cmd : Cmd Slice), s ≤ es → es - s < n →
    Ends es s (parseredirs buf es n cmd s) := by
  intro n
  induction n with
  | zero => intro s cmd _ hn; omega
  | succ n ih =>
    intro s cmd hs hn
    rw [parseredirs]
    obtain ⟨h1, h2, h3⟩ := peek_gettoken hes hs ['<', '>']
    by_cases hp : (peek buf es s ['<', '>']).1 = true
    · rw [if_pos hp]
      obtain ⟨h4, h5⟩ := h3 hp
      obtain ⟨h6, h7⟩ := gettoken_bounds hes h5
      dsimp only
      split_ifs
      · exact ends_message (by decide)
      · exact (ih _ _ h7 (by omega)).mono (by omega)
    · rw [if_neg hp]
      exact ⟨h1, h2⟩

lemma parseargs_ends (hes : buf es = nul) : ∀ (n s argc : ℕ) (ret : Cmd Slice), s ≤ es →
    es - s < n → Ends es s (parseargs buf es n ret argc s) := by
  intro n
  induction n with
  | zero => intro s argc ret _ hn; omega
  | succ n ih =>
    intro s argc ret hs hn
    rw [parseargs]
    obtain ⟨h1, h2, -⟩ := peek_gettoken hes hs ['|', ')', '&', ';']
    obtain ⟨h3, h4⟩ := gettoken_bounds hes h2
    by_cases hp : (peek buf es s ['|', ')', '&', ';']).1 = true
    · rw [if_pos hp]
      exact ⟨h1, h2⟩
    rw [if_neg hp]
    by_cases h0 : (gettoken buf es (peek buf es s ['|', ')', '&', ';']).2).1 = nul
    · rw [if_pos h0]
      exact ⟨by dsimp only; omega, h4⟩
    rw [if_neg h0]
    have hlt := gettoken_lt hes h2 (gettoken_nul h0)
    split_ifs
    · exact ends_message (by decide)
    · exact ends_message (by decide)
    · refine Ends.mono (Ends.bind (parseredirs_ends hes n _ _ h4 (by omega)) fun r hr1 hr2 => ?_)
        (show s ≤ (gettoken buf es (peek buf es s ['|', ')', '&', ';']).2).2.2 by omega)
      exact (ih _ _ _ hr2 (by omega)).mono hr1

lemma parseback_ends (hes : buf es = nul) : ∀ (n s : ℕ) (cmd : Cmd Slice), s ≤ es → es - s < n →
    Ends es s (parseback buf es n cmd s) := by
  intro n
  induction n with
  | zero => intro s cmd _ hn; omega
  | succ n ih =>
    intro s cmd hs hn
    rw [parseback]
    obtain ⟨h1, h2, h3⟩ := peek_gettoken hes hs ['&']
    by_cases hp : (peek buf es s ['&']).1 = true
    · rw [if_pos hp]
      obtain ⟨h4, h5⟩ := h3 hp
      exact (ih _ _ h5 (by omega)).mono (by omega)
    · rw [if_neg hp]
      exact ⟨h1, h2⟩

/-- The four functions of the parser, by induction on the fuel. -/
lemma parse_ends (hes : buf es = nul) : ∀ n s : ℕ, s ≤ es →
    (4 * (es - s) + 4 ≤ n → Ends es s (parseline buf es n s)) ∧
    (4 * (es - s) + 3 ≤ n → Ends es s (parsepipe buf es n s)) ∧
    (4 * (es - s) + 2 ≤ n → Ends es s (parseexec buf es n s)) ∧
    (4 * (es - s) + 1 ≤ n → Ends es s (parseblock buf es n s)) := by
  intro n
  induction n with
  | zero => intro s hs; refine ⟨?_, ?_, ?_, ?_⟩ <;> intro hn <;> omega
  | succ n ih =>
    intro s hs
    refine ⟨fun hn => ?_, fun hn => ?_, fun hn => ?_, fun hn => ?_⟩
    · rw [parseline]
      refine ((ih s hs).2.1 (by omega)).bind fun r hr1 hr2 => ?_
      refine Ends.bind ((parseback_ends hes n _ r.1 hr2 (by omega)).mono hr1) fun r' hr1' hr2' => ?_
      obtain ⟨h1, h2, h3⟩ := peek_gettoken hes hr2' [';']
      by_cases hp : (peek buf es r'.2 [';']).1 = true
      · rw [if_pos hp]
        obtain ⟨h4, h5⟩ := h3 hp
        exact (((ih _ h5).1 (by omega)).mono (by omega)).bind fun q hq1 hq2 => ⟨hq1, hq2⟩
      · rw [if_neg hp]
        exact ⟨Nat.le_trans hr1' h1, h2⟩
    · rw [parsepipe]
      refine ((ih s hs).2.2.1 (by omega)).bind fun r hr1 hr2 => ?_
      obtain ⟨h1, h2, h3⟩ := peek_gettoken hes hr2 ['|']
      by_cases hp : (peek buf es r.2 ['|']).1 = true
      · rw [if_pos hp]
        obtain ⟨h4, h5⟩ := h3 hp
        exact (((ih _ h5).2.1 (by omega)).mono (by omega)).bind fun q hq1 hq2 => ⟨hq1, hq2⟩
      · rw [if_neg hp]
        exact ⟨Nat.le_trans hr1 h1, h2⟩
    · rw [parseexec]
      obtain ⟨h1, h2, -⟩ := peek_gettoken hes hs ['(']
      by_cases hp : (peek buf es s ['(']).1 = true
      · rw [if_pos hp]
        exact ((ih _ h2).2.2.2 (by omega)).mono h1
      · rw [if_neg hp]
        refine Ends.mono (Ends.bind (parseredirs_ends hes n _ _ h2 (by omega))
          fun r hr1 hr2 => ?_) h1
        exact (parseargs_ends hes n _ 0 r.1 hr2 (by omega)).mono hr1
    · rw [parseblock]
      obtain ⟨h1, h2, h3⟩ := peek_gettoken hes hs ['(']
      by_cases hp : (peek buf es s ['(']).1 = true
      · rw [if_pos hp]
        obtain ⟨h4, h5⟩ := h3 hp
        refine Ends.mono (Ends.bind ((ih _ h5).1 (by omega)) fun r hr1 hr2 => ?_) (Nat.le_of_lt h4)
        obtain ⟨h6, h7, h8⟩ := peek_gettoken hes hr2 [')']
        by_cases hp' : (peek buf es r.2 [')']).1 = true
        · rw [if_pos hp']
          obtain ⟨h9, h10⟩ := h8 hp'
          exact (parseredirs_ends hes n _ r.1 h10 (by omega)).mono (by omega)
        · rw [if_neg hp']
          exact ends_message (by decide)
      · rw [if_neg hp]
        exact ends_message (by decide)

lemma load_strlen (text : List Char) : load text (strlen text) = nul := by
  unfold load strlen
  induction text with
  | nil => rfl
  | cons c text ih =>
    rw [List.takeWhile_cons]
    by_cases hc : c = nul
    · rw [if_neg (by simp [hc])]
      exact hc
    · rw [if_pos (by simp [hc]), List.length_cons, List.getD_cons_succ]
      exact ih

lemma parsecmd_ends (text : List Char) : parsecmd text ≠ .error .diverge := by
  have h := (parse_ends (load_strlen text) (4 * strlen text + 4) 0 (Nat.zero_le _)).1 (by omega)
  unfold parsecmd
  dsimp only
  cases hrun : parseline (load text) (strlen text) (4 * strlen text + 4) 0 with
  | error e =>
    rw [hrun] at h
    intro he
    exact h (Except.error.inj he)
  | ok r =>
    change (if (peek (load text) (strlen text) r.2 []).2 ≠ strlen text then _ else _) ≠ _
    split_ifs <;> exact fun he => by cases he

/-! ### nulterminate -/

/-- The buffer changes to NULs behind the strings. -/
lemma nulterminate_eq (r : Cmd Slice) : ∀ (buf : ℕ → Char) (i : ℕ), nulterminate r buf i =
    if ∃ q ∈ r.slices, q.2 = i then nul else buf i := by
  induction r with
  | exec argv =>
    intro buf i
    change argv.foldl (fun b q => Function.update b q.2 nul) buf i = _
    unfold Cmd.slices
    induction argv generalizing buf with
    | nil => simp
    | cons q argv ih =>
      rw [List.foldl_cons, ih]
      by_cases h : ∃ q ∈ argv, q.2 = i
      · rw [if_pos h, if_pos]
        obtain ⟨p, hp, he⟩ := h
        exact ⟨p, List.mem_cons_of_mem _ hp, he⟩
      · rw [if_neg h]
        by_cases hq : q.2 = i
        · rw [if_pos ⟨q, List.mem_cons_self, hq⟩, hq, Function.update_self]
        · rw [Function.update_of_ne (Ne.symm hq), if_neg]
          rintro ⟨p, hp, he⟩
          rcases List.mem_cons.mp hp with rfl | hp
          · exact hq he
          · exact h ⟨p, hp, he⟩
  | redir cmd file mode fd ih =>
    intro buf i
    change Function.update (nulterminate cmd buf) file.2 nul i = _
    by_cases hq : file.2 = i
    · rw [if_pos ⟨file, List.mem_cons_self, hq⟩, hq, Function.update_self]
    · rw [Function.update_of_ne (Ne.symm hq), ih]
      refine if_congr ⟨?_, ?_⟩ rfl rfl
      · rintro ⟨p, hp, he⟩
        exact ⟨p, List.mem_cons_of_mem _ hp, he⟩
      · rintro ⟨p, hp, he⟩
        rcases List.mem_cons.mp hp with rfl | hp
        · exact absurd he hq
        · exact ⟨p, hp, he⟩
  | pipe left right ihl ihr =>
    intro buf i
    change nulterminate right (nulterminate left buf) i = _
    rw [ihr, ihl, ← ite_or]
    refine if_congr ?_ rfl rfl
    change _ ↔ ∃ q ∈ left.slices ++ right.slices, q.2 = i
    simp only [List.mem_append, or_and_right, exists_or]
    exact or_comm
  | list left right ihl ihr =>
    intro buf i
    change nulterminate right (nulterminate left buf) i = _
    rw [ihr, ihl, ← ite_or]
    refine if_congr ?_ rfl rfl
    change _ ↔ ∃ q ∈ left.slices ++ right.slices, q.2 = i
    simp only [List.mem_append, or_and_right, exists_or]
    exact or_comm
  | back cmd ih => exact ih

lemma cstr_eq {n k : ℕ} (hk : k ≤ n) (hword : ∀ i, i < k → buf (s + i) ≠ nul)
    (hstop : k = n ∨ buf (s + k) = nul) :
    cstr buf n s = (List.range k).map fun i => buf (s + i) := by
  induction k generalizing n s with
  | zero =>
    cases n with
    | zero => rfl
    | succ n =>
      have h0 : buf s = nul := hstop.resolve_left (by omega)
      rw [cstr, if_pos h0]
      rfl
  | succ k ih =>
    obtain ⟨n, rfl⟩ := Nat.exists_eq_succ_of_ne_zero (show n ≠ 0 by omega)
    have h0 : buf s ≠ nul := hword 0 (Nat.succ_pos _)
    have hadd : ∀ i, s + (i + 1) = s + 1 + i := fun i => by omega
    have hstop' : k = n ∨ buf (s + 1 + k) = nul := by
      rw [← hadd]
      exact hstop.imp (by omega) id
    rw [cstr, if_neg h0, ih (by omega) (fun i hi => hadd i ▸ hword (i + 1) (by omega)) hstop',
      List.range_succ_eq_map, List.map_cons, List.map_map]
    refine congrArg _ (List.map_congr_left fun i _ => ?_)
    simp only [Function.comp]
    rw [← hadd]

lemma map_congr_slices {α β : Type} {f g : α → β} {c : Cmd α} (h : ∀ q ∈ c.slices, f q = g q) :
    c.map f = c.map g := by
  induction c with
  | exec argv => exact congrArg Cmd.exec (List.map_congr_left h)
  | redir cmd file mode fd ih =>
    rw [Cmd.map, Cmd.map, h file List.mem_cons_self, ih fun q hq => h q (List.mem_cons_of_mem _ hq)]
  | pipe left right ihl ihr =>
    rw [Cmd.map, Cmd.map, ihl fun q hq => h q (List.mem_append_left _ hq),
      ihr fun q hq => h q (List.mem_append_right _ hq)]
  | list left right ihl ihr =>
    rw [Cmd.map, Cmd.map, ihl fun q hq => h q (List.mem_append_left _ hq),
      ihr fun q hq => h q (List.mem_append_right _ hq)]
  | back cmd ih => rw [Cmd.map, Cmd.map, ih h]

/-- No NUL falls on a string. -/
lemma Image.strings {text : List Char} {r : Cmd Slice} {c : Cmd (List Char)}
    (h : Image (load text) text.length r c) :
    Sh.strings text (r, nulterminate r (load text)) = c := by
  rw [← h.map]
  refine map_congr_slices fun q hq => ?_
  have hm := h.marked q hq
  have hword : ∀ i, q.1 ≤ i → i < q.2 → nulterminate r (load text) i = load text i := by
    intro i h1 h2
    rw [nulterminate_eq, if_neg]
    rintro ⟨p, hp, rfl⟩
    have := hm.word _ h1 h2
    rw [(h.marked p hp).stop] at this
    cases this
  have hstop : nulterminate r (load text) q.2 = nul := by
    rw [nulterminate_eq, if_pos ⟨q, hq, rfl⟩]
  have hle := hm.le
  have hstart := hm.start
  dsimp only
  rw [cstr_eq (k := q.2 - q.1) (by omega) (fun i hi => ?_) (Or.inr ?_)]
  · refine List.map_congr_left fun i hi => ?_
    have := List.mem_range.mp hi
    exact hword _ (by omega) (by omega)
  · rw [show q.1 + (q.2 - q.1) = q.2 by omega]
    exact hstop
  · rw [hword _ (by omega) (by omega)]
    exact wordChar_ne_nul (hm.word _ (by omega) (by omega))

/-! ### parsecmd -/

lemma whitespace_ne_nul {c : Char} (h : c ∈ whitespace) : c ≠ nul := by
  rintro rfl
  revert h
  decide

lemma Tok.Ok.ne_nul {t : Tok} (h : t.Ok) : ∀ c ∈ t.chars, c ≠ nul := by
  cases t with
  | word w => exact fun c hc => wordChar_ne_nul (h.2 c hc)
  | _ => exact fun c hc he => absurd (he ▸ hc) (by decide)

lemma Spaced.ne_nul {ts : List Tok} {text : List Char} (h : Spaced ts text) :
    ∀ c ∈ text, c ≠ nul := by
  induction h with
  | nil hg => exact fun c hc => whitespace_ne_nul (hg c hc)
  | cons hg ht _ _ ih =>
    intro c hc
    rcases List.mem_append.mp hc with hc | hc
    · exact whitespace_ne_nul (hg c hc)
    · rcases List.mem_append.mp hc with hc | hc
      · exact ht.ne_nul c hc
      · exact ih c hc

lemma Here.end {toks : List Char} (h : Here buf es s []) : (Sh.peek buf es s toks).2 = es := by
  obtain ⟨l, htext, hl⟩ := h
  obtain ⟨hskip, -⟩ := htext.skip
  rw [hl.dropWhile_nil] at hskip
  have hlen := hskip.length
  rwa [List.length_nil, Nat.add_zero] at hlen

/-- **The parser inverts printing, and comes to an end on every text**: a command of the grammar,
printed with any whitespace, is parsed as that command, its strings being the words once
`nulterminate` has run; and on no text does the parser run on, so it returns a tree or stops with
a message. -/
theorem parsecmd_inverts_printing :
    (∀ (c : Cmd (List Char)) (ts : List Tok) (text : List Char), Renders .line c ts →
      Spaced ts text → ∃ r, parsecmd text = .ok r ∧ strings text r = c) ∧
    ∀ text, parsecmd text ≠ .error .diverge := by
  refine ⟨fun c ts text h hs => ?_, parsecmd_ends⟩
  have hlen : strlen text = text.length := by
    unfold strlen
    rw [List.takeWhile_eq_self_iff.mpr]
    exact fun c hc => decide_eq_true (hs.ne_nul c hc)
  have hes := load_strlen text
  have hhere : Here (load text) (strlen text) 0 (ts ++ []) := by
    rw [List.append_nil]
    refine ⟨text, ⟨by rw [Nat.zero_add, hlen], fun i hi => ?_⟩, hs⟩
    unfold load
    rw [Nat.zero_add, List.getD_eq_getElem _ _ hi]
  obtain ⟨r, s, hrun, hr, hs', -⟩ := parse_spec hes h [] (4 * strlen text + 4) 0
    (fun t ht => absurd ht (by simp)) hhere (by dsimp only [need]; omega)
  refine ⟨(r, nulterminate r (load text)), ?_, (hlen ▸ hr).strings⟩
  unfold parsecmd
  change (do
    let q ← parse (load text) (strlen text) .line (4 * strlen text + 4) 0
    _) = _
  rw [hrun]
  change (if (peek (load text) (strlen text) s []).2 ≠ strlen text then _ else _) = _
  rw [hs'.end, if_neg (fun hc => hc rfl)]

/-- The line `a<b ;c`. -/
theorem parsecmd_inverts_printing_example : ∃ r,
    parsecmd ['a', '<', 'b', ' ', ';', 'c'] = .ok r ∧
      strings ['a', '<', 'b', ' ', ';', 'c'] r =
        .list (.redir (.exec [['a']]) ['b'] O_RDONLY 0) (.exec [['c']]) := by
  refine parsecmd_inverts_printing.1 _
    [.word ['a'], .lt, .word ['b'], .semi, .word ['c']] _ ?_ ?_
  · exact .list (.one (.simple [] [(['a'], [(.input, ['b'])])] (by decide))) 0
      (.last (.one (.simple [] [(['c'], [])] (by decide))) 0)
  · have hno : IsSpace [] := fun c hc => absurd hc List.not_mem_nil
    refine .cons (g := []) hno (by decide) (.cons (g := []) hno trivial (.cons (g := []) hno
      (by decide) (.cons (g := [' ']) (by decide) trivial (.cons (g := []) hno (by decide)
        (.nil hno) ?_) ?_) ?_) ?_) ?_ <;> decide

end Xv6.Sh
