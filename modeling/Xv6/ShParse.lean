import Xv6.ShLex

/-!
Parsing what has been printed. `Renders` is the grammar of the shell together with the tokens that
each command is printed as. The parser, standing at such tokens, takes exactly these and returns
the tree with a slice of the buffer for each string; every slice is a word with something else
behind it, so the NULs of `nulterminate` fall on no string.
-/

namespace Xv6.Sh

/-! ### Commands as tokens -/

/-- A redirection sign. -/
inductive Arrow where
  | input       -- <
  | output      -- >
  | append      -- >>

def Arrow.tok : Arrow → Tok
  | .input => .lt
  | .output => .gt
  | .append => .gtgt

def Arrow.mode : Arrow → ℕ
  | .input => O_RDONLY
  | .output => O_WRONLY ||| O_CREATE ||| O_TRUNC
  | .append => O_WRONLY ||| O_CREATE

def Arrow.fd : Arrow → ℕ
  | .input => 0
  | .output => 1
  | .append => 1

/-- The command with redirections, the last one outermost. -/
def wrap {α : Type} (c : Cmd α) (rs : List (Arrow × α)) : Cmd α :=
  rs.foldl (fun c r => .redir c r.2 r.1.mode r.1.fd) c

abbrev Redir := Arrow × List Char

def redirToks (rs : List Redir) : List Tok := rs.flatMap fun r => [r.1.tok, .word r.2]

/-- An argument and the redirections behind it. -/
abbrev Arg := List Char × List Redir

def argToks (args : List Arg) : List Tok := args.flatMap fun a => .word a.1 :: redirToks a.2

/-- `n` times in the background. -/
def backs {α : Type} : ℕ → Cmd α → Cmd α
  | 0, c => c
  | n + 1, c => backs n (.back c)

inductive Nt where
  | line
  | pipe
  | exec

/-- The commands of the grammar and the tokens they are printed as. -/
inductive Renders : Nt → Cmd (List Char) → List Tok → Prop where
  | simple (rs : List Redir) (args : List Arg) (hargs : args.length ≤ MAXARGS - 1) :
      Renders .exec (wrap (.exec (args.map (·.1))) (rs ++ args.flatMap (·.2)))
        (redirToks rs ++ argToks args)
  | block {c : Cmd (List Char)} {ts : List Tok} (h : Renders .line c ts) (rs : List Redir) :
      Renders .exec (wrap c rs) (.lpar :: (ts ++ .rpar :: redirToks rs))
  | one {c : Cmd (List Char)} {ts : List Tok} (h : Renders .exec c ts) : Renders .pipe c ts
  | pipe {c d : Cmd (List Char)} {ts us : List Tok} (h : Renders .exec c ts)
      (h' : Renders .pipe d us) : Renders .pipe (.pipe c d) (ts ++ .bar :: us)
  | last {c : Cmd (List Char)} {ts : List Tok} (h : Renders .pipe c ts) (n : ℕ) :
      Renders .line (backs n c) (ts ++ List.replicate n .amp)
  | list {c d : Cmd (List Char)} {ts us : List Tok} (h : Renders .pipe c ts) (n : ℕ)
      (h' : Renders .line d us) :
      Renders .line (.list (backs n c) d) (ts ++ (List.replicate n .amp ++ .semi :: us))

/-- What may follow a command. -/
def follow : Nt → List Tok
  | .line => [.rpar]
  | .pipe => [.rpar, .semi, .amp]
  | .exec => [.rpar, .semi, .amp, .bar]

def Follow (nt : Nt) (us : List Tok) : Prop := ∀ t ∈ us.head?, t ∈ follow nt

lemma Follow.cons {nt : Nt} {t : Tok} {us : List Tok} (h : t ∈ follow nt) : Follow nt (t :: us) :=
  fun _ hu => Option.mem_some_iff.mp hu ▸ h

lemma Follow.mono {nt nt' : Nt} {us : List Tok} (h : Follow nt us) (hs : follow nt ⊆ follow nt') :
    Follow nt' us := fun t ht => hs (h t ht)

lemma Follow.not_starts {nt : Nt} {us : List Tok} (h : Follow nt us) {toks : List Char}
    (hno : ∀ t ∈ follow nt, starts toks [t] = false) : starts toks us = false := by
  cases us with
  | nil => rfl
  | cons t us =>
    have ht := hno t (h t rfl)
    cases t <;> exact ht

/-! ### Trees of slices -/

variable {buf : ℕ → Char} {es s n : ℕ}

/-- The strings of a tree. -/
def Cmd.slices {α : Type} : Cmd α → List α
  | .exec argv => argv
  | .redir cmd file _ _ => file :: cmd.slices
  | .pipe left right => left.slices ++ right.slices
  | .list left right => left.slices ++ right.slices
  | .back cmd => cmd.slices

/-- The tree of slices is the command, and its slices are words in the buffer. -/
structure Image (buf : ℕ → Char) (es : ℕ) (r : Cmd Slice) (c : Cmd (List Char)) : Prop where
  map : r.map (slice buf) = c
  marked : ∀ q ∈ r.slices, Marked buf es q

lemma Image.redir {r : Cmd Slice} {c : Cmd (List Char)} (h : Image buf es r c) {q : Slice}
    (hq : Marked buf es q) (mode fd : ℕ) :
    Image buf es (.redir r q mode fd) (.redir c (slice buf q) mode fd) := by
  refine ⟨by rw [Cmd.map, h.map], fun p hp => ?_⟩
  rcases List.mem_cons.mp hp with rfl | hp
  · exact hq
  · exact h.marked p hp

lemma Image.both {r r' : Cmd Slice} {c c' : Cmd (List Char)} (h : Image buf es r c)
    (h' : Image buf es r' c') :
    Image buf es (.pipe r r') (.pipe c c') ∧ Image buf es (.list r r') (.list c c') := by
  have hm : ∀ q ∈ r.slices ++ r'.slices, Marked buf es q := fun q hq =>
    (List.mem_append.mp hq).elim (h.marked q) (h'.marked q)
  exact ⟨⟨by rw [Cmd.map, h.map, h'.map], hm⟩, ⟨by rw [Cmd.map, h.map, h'.map], hm⟩⟩

lemma Image.back {r : Cmd Slice} {c : Cmd (List Char)} (h : Image buf es r c) :
    Image buf es (.back r) (.back c) := ⟨by rw [Cmd.map, h.map], h.marked⟩

lemma map_addArg {α β : Type} (f : α → β) (q : α) (c : Cmd α) :
    (c.addArg q).map f = (c.map f).addArg (f q) := by
  induction c with
  | exec argv => simp [Cmd.addArg, Cmd.map]
  | redir cmd file mode fd ih => simp only [Cmd.addArg, Cmd.map, ih]
  | pipe => rfl
  | list => rfl
  | back => rfl

lemma mem_slices_addArg {α : Type} {q p : α} {c : Cmd α} (h : p ∈ (c.addArg q).slices) :
    p = q ∨ p ∈ c.slices := by
  induction c with
  | exec argv =>
    rcases List.mem_append.mp h with h | h
    · exact Or.inr h
    · exact Or.inl (List.mem_singleton.mp h)
  | redir cmd file mode fd ih =>
    rcases List.mem_cons.mp h with rfl | h
    · exact Or.inr List.mem_cons_self
    · exact (ih h).imp id (List.mem_cons_of_mem _)
  | pipe => exact Or.inr h
  | list => exact Or.inr h
  | back => exact Or.inr h

lemma Image.addArg {r : Cmd Slice} {c : Cmd (List Char)} (h : Image buf es r c) {q : Slice}
    (hq : Marked buf es q) : Image buf es (r.addArg q) (c.addArg (slice buf q)) := by
  refine ⟨by rw [map_addArg, h.map], fun p hp => ?_⟩
  rcases mem_slices_addArg hp with rfl | hp
  · exact hq
  · exact h.marked p hp

lemma addArg_wrap {α : Type} (w : α) (rs : List (Arrow × α)) (c : Cmd α) :
    (wrap c rs).addArg w = wrap (c.addArg w) rs := by
  induction rs generalizing c with
  | nil => rfl
  | cons r rs ih => exact ih _

lemma wrap_append {α : Type} (rs rs' : List (Arrow × α)) (c : Cmd α) :
    wrap c (rs ++ rs') = wrap (wrap c rs) rs' := List.foldl_append

/-! ### The loops -/

lemma Here.le {ts : List Tok} (h : Here buf es s ts) : s ≤ es := by
  obtain ⟨l, htext, -⟩ := h
  have := htext.length
  omega

lemma Arrow.redirect (a : Arrow) (c : Cmd Slice) (q : Slice) :
    Sh.redirect a.tok.code c q = .redir c q a.mode a.fd := by
  cases a <;> rfl

/-- The redirections in front of something else. -/
lemma parseredirs_spec (hes : buf es = nul) {us : List Tok}
    (hus : starts ['<', '>'] us = false) : ∀ (rs : List Redir) (n s : ℕ) (r : Cmd Slice)
    (c : Cmd (List Char)), Image buf es r c → Here buf es s (redirToks rs ++ us) → es - s < n →
    ∃ r' s', parseredirs buf es n r s = .ok (r', s') ∧ Image buf es r' (wrap c rs) ∧
      Here buf es s' us ∧ s ≤ s' := by
  intro rs
  induction rs with
  | nil =>
    intro n s r c hr hs hn
    obtain ⟨n, rfl⟩ := Nat.exists_eq_succ_of_ne_zero (show n ≠ 0 by omega)
    obtain ⟨h1, h2, h3⟩ := hs.peek hes (show ['<', '>'] ⊆ symbols by decide)
    refine ⟨r, _, ?_, hr, h2, h3⟩
    rw [parseredirs]
    dsimp only
    rw [h1, show redirToks [] ++ us = us from rfl, hus]
    rfl
  | cons a rs ih =>
    intro n s r c hr hs hn
    obtain ⟨n, rfl⟩ := Nat.exists_eq_succ_of_ne_zero (show n ≠ 0 by omega)
    obtain ⟨arrow, file⟩ := a
    change Here buf es s (arrow.tok :: .word file :: (redirToks rs ++ us)) at hs
    obtain ⟨h1, h2, h3⟩ := hs.peek hes (show ['<', '>'] ⊆ symbols by decide)
    obtain ⟨hcode, h4, h5, -⟩ := h2.gettoken hes fun _ => ⟨file, rfl⟩
    obtain ⟨hcode', h6, h7, hword⟩ := h4.gettoken hes fun h => by cases h
    obtain ⟨hslice, hmark⟩ := hword file rfl
    obtain ⟨r', s', hrun, hr', hs', hle⟩ := ih n _ _ _
      (hslice ▸ hr.redir hmark arrow.mode arrow.fd) h6 (by
        have := h6.le
        omega)
    refine ⟨r', s', ?_, hr', hs', by omega⟩
    rw [parseredirs]
    dsimp only
    have htrue : starts ['<', '>'] (arrow.tok :: .word file :: (redirToks rs ++ us)) = true := by
      cases arrow <;> rfl
    rw [h1, htrue, if_pos rfl, hcode', if_neg (by simp [Tok.code]), hcode, arrow.redirect]
    exact hrun

lemma Follow.arrows {us : List Tok} (h : Follow .exec us) : starts ['<', '>'] us = false :=
  h.not_starts (by decide)

lemma argToks_arrows (args : List Arg) {us : List Tok} (h : Follow .exec us) :
    starts ['<', '>'] (argToks args ++ us) = false := by
  cases args with
  | nil => exact h.arrows
  | cons a args => rfl

/-- The loop over the arguments and their redirections. -/
lemma parseargs_spec (hes : buf es = nul) {us : List Tok} (hus : Follow .exec us) :
    ∀ (args : List Arg) (rs rs' : List Redir) (argv : List (List Char)) (n argc s : ℕ)
    (r : Cmd Slice), Image buf es r (wrap (.exec argv) rs) →
    Here buf es s (redirToks rs' ++ (argToks args ++ us)) → es - s < n →
    argc + args.length ≤ MAXARGS - 1 →
    ∃ r' s', (do
        let q ← parseredirs buf es n r s
        parseargs buf es n q.1 argc q.2) = .ok (r', s') ∧
      Image buf es r' (wrap (.exec (argv ++ args.map (·.1))) (rs ++ (rs' ++ args.flatMap (·.2)))) ∧
      Here buf es s' us ∧ s ≤ s' := by
  intro args
  induction args with
  | nil =>
    intro rs rs' argv n argc s r hr hs hn _
    obtain ⟨r1, s1, hrun, hr1, hs1, hle1⟩ :=
      parseredirs_spec hes (argToks_arrows [] hus) rs' n s r _ hr hs hn
    obtain ⟨n, rfl⟩ := Nat.exists_eq_succ_of_ne_zero (show n ≠ 0 by omega)
    obtain ⟨h1, h2, h3⟩ := hs1.peek hes (show ['|', ')', '&', ';'] ⊆ symbols by decide)
    rw [hrun]
    change ∃ r' s', parseargs buf es (n + 1) r1 argc s1 = _ ∧ _
    rw [parseargs]
    dsimp only
    rw [← wrap_append] at hr1
    rw [List.map_nil, List.append_nil, List.flatMap_nil, List.append_nil]
    rw [show argToks [] ++ us = us from rfl] at h1 h2
    cases us with
    | nil =>
      obtain ⟨h4, h5, h6⟩ := Here.gettoken_nil h2 hes
      refine ⟨r1, _, ?_, hr1, h5, by omega⟩
      rw [h1, starts_nil, if_neg Bool.false_ne_true, h4, if_pos rfl]
    | cons t us =>
      have htrue : starts ['|', ')', '&', ';'] (t :: us) = true := by
        have ht := hus t rfl
        revert ht
        cases t <;> simp [follow, starts, Tok.chars, strchr]
      refine ⟨r1, _, ?_, hr1, h2, by omega⟩
      rw [h1, htrue, if_pos rfl]
  | cons a args ih =>
    intro rs rs' argv n argc s r hr hs hn hargs
    obtain ⟨w, rs2⟩ := a
    rw [List.length_cons] at hargs
    obtain ⟨r1, s1, hrun, hr1, hs1, hle1⟩ :=
      parseredirs_spec hes (argToks_arrows ((w, rs2) :: args) hus) rs' n s r _ hr hs hn
    obtain ⟨n, rfl⟩ := Nat.exists_eq_succ_of_ne_zero (show n ≠ 0 by omega)
    change Here buf es s1 (.word w :: (redirToks rs2 ++ argToks args ++ us)) at hs1
    rw [List.append_assoc] at hs1
    obtain ⟨h1, h2, h3⟩ := hs1.peek hes (show ['|', ')', '&', ';'] ⊆ symbols by decide)
    obtain ⟨hcode, h4, h5, hword⟩ := h2.gettoken hes fun h => by cases h
    obtain ⟨hslice, hmark⟩ := hword w rfl
    have hr2 := hr1.addArg hmark
    rw [hslice, ← wrap_append, addArg_wrap] at hr2
    obtain ⟨r', s', hrun', hr', hs', hle'⟩ := ih (rs ++ rs') rs2 (argv ++ [w]) n (argc + 1) _ _ hr2
      h4 (by
        have := h4.le
        omega) (by omega)
    refine ⟨r', s', ?_, ?_, hs', by omega⟩
    · rw [hrun]
      change parseargs buf es (n + 1) r1 argc s1 = _
      rw [parseargs]
      dsimp only
      have hmax : ¬MAXARGS ≤ argc + 1 := by
        unfold MAXARGS at hargs ⊢
        omega
      have hnul : (Tok.word w).code ≠ nul := (by decide : 'a' ≠ nul)
      rw [h1, starts_word, if_neg Bool.false_ne_true, hcode, if_neg hnul,
        if_neg (by simp [Tok.code]), if_neg hmax]
      exact hrun'
    · simpa only [List.map_cons, List.flatMap_cons, List.append_assoc, List.singleton_append]
        using hr'

/-- The background signs in front of something else. -/
lemma parseback_spec (hes : buf es = nul) {us : List Tok} (hus : starts ['&'] us = false) :
    ∀ (k n s : ℕ) (r : Cmd Slice) (c : Cmd (List Char)), Image buf es r c →
    Here buf es s (List.replicate k .amp ++ us) → es - s < n →
    ∃ r' s', parseback buf es n r s = .ok (r', s') ∧ Image buf es r' (backs k c) ∧
      Here buf es s' us ∧ s ≤ s' := by
  intro k
  induction k with
  | zero =>
    intro n s r c hr hs hn
    obtain ⟨n, rfl⟩ := Nat.exists_eq_succ_of_ne_zero (show n ≠ 0 by omega)
    obtain ⟨h1, h2, h3⟩ := hs.peek hes (show ['&'] ⊆ symbols by decide)
    refine ⟨r, _, ?_, hr, h2, h3⟩
    rw [parseback]
    rw [h1, show List.replicate 0 Tok.amp ++ us = us from rfl, hus]
    rfl
  | succ k ih =>
    intro n s r c hr hs hn
    obtain ⟨n, rfl⟩ := Nat.exists_eq_succ_of_ne_zero (show n ≠ 0 by omega)
    change Here buf es s (.amp :: (List.replicate k .amp ++ us)) at hs
    obtain ⟨h1, h2, h3⟩ := hs.peek hes (show ['&'] ⊆ symbols by decide)
    obtain ⟨-, h4, h5, -⟩ := h2.gettoken hes fun h => by cases h
    obtain ⟨r', s', hrun, hr', hs', hle⟩ := ih n _ _ _ hr.back h4 (by
      have := h4.le
      omega)
    refine ⟨r', s', ?_, hr', hs', by omega⟩
    rw [parseback]
    rw [h1, show starts ['&'] (.amp :: (List.replicate k .amp ++ us)) = true from rfl, if_pos rfl]
    exact hrun

/-! ### The parser -/

/-- The function for a nonterminal. -/
def parse (buf : ℕ → Char) (es : ℕ) : Nt → ℕ → ℕ → Except Panic (Cmd Slice × ℕ)
  | .line => parseline buf es
  | .pipe => parsepipe buf es
  | .exec => parseexec buf es

/-- How much fuel the calls take that read nothing. -/
def need : Nt → ℕ
  | .line => 4
  | .pipe => 3
  | .exec => 2

lemma not_lpar (rs : List Redir) (args : List Arg) {us : List Tok} (hus : Follow .exec us) :
    starts ['('] (redirToks rs ++ argToks args ++ us) = false := by
  cases rs with
  | nil =>
    cases args with
    | nil => exact hus.not_starts (by decide)
    | cons a args => rfl
  | cons r rs =>
    obtain ⟨arrow, file⟩ := r
    cases arrow <;> rfl

/-- **The parser takes what has been printed**: standing at the tokens of a command, with fuel for
the text that is left, it returns the tree and stops behind them. -/
lemma parse_spec (hes : buf es = nul) {nt : Nt} {c : Cmd (List Char)} {ts : List Tok}
    (h : Renders nt c ts) : ∀ (us : List Tok) (n s : ℕ), Follow nt us → Here buf es s (ts ++ us) →
    4 * (es - s) + need nt ≤ n →
    ∃ r s', parse buf es nt n s = .ok (r, s') ∧ Image buf es r c ∧ Here buf es s' us ∧ s ≤ s' := by
  induction h with
  | simple rs args hargs =>
    intro us n s hus hs hn
    dsimp only [need] at hn
    obtain ⟨n, rfl⟩ := Nat.exists_eq_succ_of_ne_zero (show n ≠ 0 by omega)
    obtain ⟨h1, h2, h3⟩ := hs.peek hes (show ['('] ⊆ symbols by decide)
    rw [List.append_assoc] at h2
    obtain ⟨r, s', hrun, hr, hs', hle⟩ := parseargs_spec hes hus args [] rs [] n 0 _ (.exec [])
      ⟨rfl, fun q hq => absurd hq List.not_mem_nil⟩ h2 (by omega) (by omega)
    refine ⟨r, s', ?_, hr, hs', by omega⟩
    change parseexec buf es (n + 1) s = _
    rw [parseexec]
    rw [h1, not_lpar rs args hus, if_neg Bool.false_ne_true]
    exact hrun
  | @block c ts _ rs ih =>
    intro us n s hus hs hn
    dsimp only [need] at hn
    obtain ⟨n, rfl⟩ := Nat.exists_eq_add_of_le' (show 2 ≤ n by omega)
    have htoks : (.lpar :: (ts ++ .rpar :: redirToks rs)) ++ us =
        .lpar :: (ts ++ (.rpar :: (redirToks rs ++ us))) := by simp
    rw [htoks] at hs
    obtain ⟨h1, h2, h3⟩ := hs.peek hes (show ['('] ⊆ symbols by decide)
    obtain ⟨h1', h2', h3'⟩ := h2.peek hes (show ['('] ⊆ symbols by decide)
    obtain ⟨-, h4, h5, -⟩ := h2'.gettoken hes fun h => by cases h
    have hle4 := h4.le
    obtain ⟨r, s1, hrun, hr, hs1, hle1⟩ := ih (.rpar :: (redirToks rs ++ us)) n _
      (Follow.cons (by decide)) h4 (by dsimp only [need]; omega)
    obtain ⟨h6, h7, h8⟩ := hs1.peek hes (show [')'] ⊆ symbols by decide)
    obtain ⟨-, h9, h10, -⟩ := h7.gettoken hes fun h => by cases h
    have hle9 := h9.le
    obtain ⟨r', s', hrun', hr', hs', hle'⟩ :=
      parseredirs_spec hes hus.arrows rs n _ r c hr h9 (by omega)
    refine ⟨r', s', ?_, hr', hs', by omega⟩
    change parseexec buf es (n + 1 + 1) s = _
    have hlpar : starts ['('] (.lpar :: (ts ++ (.rpar :: (redirToks rs ++ us)))) = true := rfl
    rw [parseexec]
    rw [h1, hlpar, if_pos rfl, parseblock]
    rw [h1', hlpar, if_pos rfl]
    change (do
      let r ← parse buf es .line n _
      _) = _
    rw [hrun]
    change (if (peek buf es s1 [')']).1 then _ else _) = _
    rw [h6, show starts [')'] (.rpar :: (redirToks rs ++ us)) = true from rfl, if_pos rfl]
    exact hrun'
  | @one c ts _ ih =>
    intro us n s hus hs hn
    dsimp only [need] at hn
    obtain ⟨n, rfl⟩ := Nat.exists_eq_succ_of_ne_zero (show n ≠ 0 by omega)
    obtain ⟨r, s1, hrun, hr, hs1, hle⟩ := ih us n s (hus.mono (by decide)) hs (by
      dsimp only [need]
      omega)
    obtain ⟨h1, h2, h3⟩ := hs1.peek hes (show ['|'] ⊆ symbols by decide)
    refine ⟨r, _, ?_, hr, h2, by omega⟩
    change parsepipe buf es (n + 1) s = _
    rw [parsepipe]
    change (do
      let r ← parse buf es .exec n s
      _) = _
    rw [hrun]
    change (if (peek buf es s1 ['|']).1 then _ else _) = _
    rw [h1, hus.not_starts (by decide)]
    rfl
  | @pipe c d ts ts' _ _ ih ih' =>
    intro us n s hus hs hn
    dsimp only [need] at hn
    obtain ⟨n, rfl⟩ := Nat.exists_eq_succ_of_ne_zero (show n ≠ 0 by omega)
    rw [List.append_assoc, List.cons_append] at hs
    obtain ⟨r, s1, hrun, hr, hs1, hle⟩ := ih (.bar :: (ts' ++ us)) n s (Follow.cons (by decide)) hs
      (by
        dsimp only [need]
        omega)
    obtain ⟨h1, h2, h3⟩ := hs1.peek hes (show ['|'] ⊆ symbols by decide)
    obtain ⟨-, h4, h5, -⟩ := h2.gettoken hes fun h => by cases h
    have hle4 := h4.le
    obtain ⟨r', s', hrun', hr', hs', hle'⟩ := ih' us n _ hus h4 (by
      dsimp only [need]
      omega)
    refine ⟨.pipe r r', s', ?_, (hr.both hr').1, hs', by omega⟩
    change parsepipe buf es (n + 1) s = _
    rw [parsepipe]
    change (do
      let r ← parse buf es .exec n s
      _) = _
    rw [hrun]
    change (if (peek buf es s1 ['|']).1 then _ else _) = _
    rw [h1, show starts ['|'] (.bar :: (ts' ++ us)) = true from rfl, if_pos rfl]
    change (do
      let r' ← parse buf es .pipe n _
      _) = _
    rw [hrun']
    rfl
  | @last c ts _ k ih =>
    intro us n s hus hs hn
    dsimp only [need] at hn
    obtain ⟨n, rfl⟩ := Nat.exists_eq_succ_of_ne_zero (show n ≠ 0 by omega)
    rw [List.append_assoc] at hs
    obtain ⟨r, s1, hrun, hr, hs1, hle⟩ := ih (List.replicate k .amp ++ us) n s (by
      cases k with
      | zero => exact hus.mono (by decide)
      | succ k => exact Follow.cons (by decide)) hs (by
        dsimp only [need]
        omega)
    obtain ⟨r2, s2, hrun2, hr2, hs2, hle2⟩ := parseback_spec hes
      (hus.not_starts (by decide)) k n s1 r c hr hs1 (by omega)
    obtain ⟨h1, h2, h3⟩ := hs2.peek hes (show [';'] ⊆ symbols by decide)
    refine ⟨r2, _, ?_, hr2, h2, by omega⟩
    change parseline buf es (n + 1) s = _
    rw [parseline]
    change (do
      let r ← parse buf es .pipe n s
      _) = _
    rw [hrun]
    change (do
      let r ← parseback buf es n r s1
      _) = _
    rw [hrun2]
    change (if (peek buf es s2 [';']).1 then _ else _) = _
    rw [h1, hus.not_starts (by decide)]
    rfl
  | @list c d ts ts' _ k _ ih ih' =>
    intro us n s hus hs hn
    dsimp only [need] at hn
    obtain ⟨n, rfl⟩ := Nat.exists_eq_succ_of_ne_zero (show n ≠ 0 by omega)
    rw [List.append_assoc, List.append_assoc, List.cons_append] at hs
    obtain ⟨r, s1, hrun, hr, hs1, hle⟩ := ih (List.replicate k .amp ++ .semi :: (ts' ++ us)) n s (by
      cases k with
      | zero => exact Follow.cons (by decide)
      | succ k => exact Follow.cons (by decide)) hs (by
        dsimp only [need]
        omega)
    obtain ⟨r2, s2, hrun2, hr2, hs2, hle2⟩ := parseback_spec hes
      (show starts ['&'] (.semi :: (ts' ++ us)) = false from rfl) k n s1 r c hr hs1 (by omega)
    obtain ⟨h1, h2, h3⟩ := hs2.peek hes (show [';'] ⊆ symbols by decide)
    obtain ⟨-, h4, h5, -⟩ := h2.gettoken hes fun h => by cases h
    have hle4 := h4.le
    obtain ⟨r', s', hrun', hr', hs', hle'⟩ := ih' us n _ hus h4 (by
      dsimp only [need]
      omega)
    refine ⟨.list r2 r', s', ?_, (hr2.both hr').2, hs', by omega⟩
    change parseline buf es (n + 1) s = _
    rw [parseline]
    change (do
      let r ← parse buf es .pipe n s
      _) = _
    rw [hrun]
    change (do
      let r ← parseback buf es n r s1
      _) = _
    rw [hrun2]
    change (if (peek buf es s2 [';']).1 then _ else _) = _
    rw [h1, show starts [';'] (.semi :: (ts' ++ us)) = true from rfl, if_pos rfl]
    change (do
      let r' ← parse buf es .line n _
      _) = _
    rw [hrun']
    rfl

end Xv6.Sh
