import Mathlib.Data.Set.Function
import Mathlib.Data.List.Basic

/-!
The parser of the shell, `sh.c`.

The command line lies in a buffer of characters that a NUL ends; `es` is the place of the NUL. A
`char *` into the buffer is an offset. The parser passes one cursor along and returns a tree whose
strings are pairs of pointers, to the first character and behind the last; `nulterminate` writes a
NUL behind each string, into the same buffer. The loops and the recursion of the parser carry
fuel; running out of it is the panic `diverge`.
-/

namespace Xv6.Sh

def MAXARGS : ℕ := 10
def O_RDONLY : ℕ := 0x000
def O_WRONLY : ℕ := 0x001
def O_CREATE : ℕ := 0x200
def O_TRUNC : ℕ := 0x400

/-- `struct cmd` and the structures it is cast to, with strings of type `α`. -/
inductive Cmd (α : Type) where
  | exec (argv : List α)
  | redir (cmd : Cmd α) (file : α) (mode fd : ℕ)
  | pipe (left right : Cmd α)
  | list (left right : Cmd α)
  | back (cmd : Cmd α)
deriving DecidableEq, Repr

def Cmd.map {α β : Type} (f : α → β) : Cmd α → Cmd β
  | .exec argv => .exec (argv.map f)
  | .redir cmd file mode fd => .redir (cmd.map f) (f file) mode fd
  | .pipe left right => .pipe (left.map f) (right.map f)
  | .list left right => .list (left.map f) (right.map f)
  | .back cmd => .back (cmd.map f)

inductive Panic where
  | unexpected      -- "syntax"
  | leftovers       -- "syntax", after the leftovers have been printed
  | missing_file    -- "missing file for redirection"
  | parseblock      -- "parseblock"
  | missing_paren   -- "syntax - missing )"
  | too_many_args   -- "too many args"
  | diverge
deriving DecidableEq, Repr

/-! ### Tokens -/

def nul : Char := Char.ofNat 0
def whitespace : List Char := [' ', '\t', '\r', '\n', Char.ofNat 11]
def symbols : List Char := ['<', '|', '>', '&', ';', '(', ')']

/-- Whether `strchr` finds the character; it does not find the NUL. -/
def strchr (s : List Char) (c : Char) : Bool := s.contains c

/-- Pointers to the begin of a string and behind its end. -/
abbrev Slice := ℕ × ℕ

/-- `while(s < es && f(*s)) s++`, where `n` is `es - s`. -/
def scan (f : Char → Bool) (buf : ℕ → Char) : ℕ → ℕ → ℕ
  | 0, s => s
  | n + 1, s => if f (buf s) then scan f buf n (s + 1) else s

variable (buf : ℕ → Char) (es : ℕ)

def skip (s : ℕ) : ℕ := scan (strchr whitespace) buf (es - s) s

/-- The characters of a word. -/
def plain (c : Char) : Bool := !strchr whitespace c && !strchr symbols c

/-- The token at the first character `q` that is no whitespace, and the place behind it. -/
def tokenAt (q : ℕ) : Char × ℕ :=
  if buf q = nul then (nul, q)
  else if buf q ∈ ['|', '(', ')', ';', '&', '<'] then (buf q, q + 1)
  else if buf q = '>' then
    if buf (q + 1) = '>' then ('+', q + 2) else ('>', q + 1)
  else ('a', scan plain buf (es - q) q)

/-- The token, where it lies, and the cursor behind the whitespace that follows. -/
def gettoken (s : ℕ) : Char × Slice × ℕ :=
  let q := skip buf es s
  let t := tokenAt buf es q
  (t.1, (q, t.2), skip buf es t.2)

/-- Whether the next character is one of `toks`, and the cursor at it. -/
def peek (s : ℕ) (toks : List Char) : Bool × ℕ :=
  let s := skip buf es s
  (buf s != nul && strchr toks (buf s), s)

/-! ### The parser -/

/-- The `switch` of `parseredirs`. -/
def redirect (tok : Char) (cmd : Cmd Slice) (file : Slice) : Cmd Slice :=
  if tok = '<' then .redir cmd file O_RDONLY 0
  else if tok = '>' then .redir cmd file (O_WRONLY ||| O_CREATE ||| O_TRUNC) 1
  else if tok = '+' then .redir cmd file (O_WRONLY ||| O_CREATE) 1
  else cmd

def parseredirs : ℕ → Cmd Slice → ℕ → Except Panic (Cmd Slice × ℕ)
  | 0, _, _ => .error .diverge
  | n + 1, cmd, s =>
    let pk := peek buf es s ['<', '>']
    if pk.1 then
      let t := gettoken buf es pk.2
      let u := gettoken buf es t.2.2
      if u.1 ≠ 'a' then .error .missing_file
      else parseredirs n (redirect t.1 cmd u.2.1) u.2.2
    else .ok (cmd, pk.2)

/-- `cmd->argv[argc] = q`, where `cmd` is the `execcmd` that the redirections of `ret` wrap. -/
def Cmd.addArg {α : Type} (q : α) : Cmd α → Cmd α
  | .exec argv => .exec (argv ++ [q])
  | .redir cmd file mode fd => .redir (cmd.addArg q) file mode fd
  | cmd => cmd

/-- The loop of `parseexec`. -/
def parseargs : ℕ → Cmd Slice → ℕ → ℕ → Except Panic (Cmd Slice × ℕ)
  | 0, _, _, _ => .error .diverge
  | n + 1, ret, argc, s =>
    let pk := peek buf es s ['|', ')', '&', ';']
    if pk.1 then .ok (ret, pk.2)
    else
      let t := gettoken buf es pk.2
      if t.1 = nul then .ok (ret, t.2.2)
      else if t.1 ≠ 'a' then .error .unexpected
      else if MAXARGS ≤ argc + 1 then .error .too_many_args
      else do
        let r ← parseredirs buf es n (ret.addArg t.2.1) t.2.2
        parseargs n r.1 (argc + 1) r.2

/-- The loop of `parseline`. -/
def parseback : ℕ → Cmd Slice → ℕ → Except Panic (Cmd Slice × ℕ)
  | 0, _, _ => .error .diverge
  | n + 1, cmd, s =>
    let pk := peek buf es s ['&']
    if pk.1 then parseback n (.back cmd) (gettoken buf es pk.2).2.2
    else .ok (cmd, pk.2)

mutual

def parseline : ℕ → ℕ → Except Panic (Cmd Slice × ℕ)
  | 0, _ => .error .diverge
  | n + 1, s => do
    let r ← parsepipe n s
    let r ← parseback buf es n r.1 r.2
    let pk := peek buf es r.2 [';']
    if pk.1 then do
      let r' ← parseline n (gettoken buf es pk.2).2.2
      .ok (.list r.1 r'.1, r'.2)
    else .ok (r.1, pk.2)

def parsepipe : ℕ → ℕ → Except Panic (Cmd Slice × ℕ)
  | 0, _ => .error .diverge
  | n + 1, s => do
    let r ← parseexec n s
    let pk := peek buf es r.2 ['|']
    if pk.1 then do
      let r' ← parsepipe n (gettoken buf es pk.2).2.2
      .ok (.pipe r.1 r'.1, r'.2)
    else .ok (r.1, pk.2)

def parseexec : ℕ → ℕ → Except Panic (Cmd Slice × ℕ)
  | 0, _ => .error .diverge
  | n + 1, s => do
    let pk := peek buf es s ['(']
    if pk.1 then parseblock n pk.2
    else do
      let r ← parseredirs buf es n (.exec []) pk.2
      parseargs buf es n r.1 0 r.2

def parseblock : ℕ → ℕ → Except Panic (Cmd Slice × ℕ)
  | 0, _ => .error .diverge
  | n + 1, s => do
    let pk := peek buf es s ['(']
    if pk.1 then do
      let r ← parseline n (gettoken buf es pk.2).2.2
      let pk := peek buf es r.2 [')']
      if pk.1 then parseredirs buf es n r.1 (gettoken buf es pk.2).2.2
      else .error .missing_paren
    else .error .parseblock

end

/-- A NUL is written behind every string of the tree. -/
def nulterminate : Cmd Slice → (ℕ → Char) → ℕ → Char
  | .exec argv, buf => argv.foldl (fun b q => Function.update b q.2 nul) buf
  | .redir cmd file _ _, buf => Function.update (nulterminate cmd buf) file.2 nul
  | .pipe left right, buf => nulterminate right (nulterminate left buf)
  | .list left right, buf => nulterminate right (nulterminate left buf)
  | .back cmd, buf => nulterminate cmd buf

/-- The buffer with the text in it. -/
def load (text : List Char) : ℕ → Char := fun i => text.getD i nul

def strlen (text : List Char) : ℕ := (text.takeWhile (· ≠ nul)).length

/-- The tree and the buffer that the shell goes on with. -/
def parsecmd (text : List Char) : Except Panic (Cmd Slice × (ℕ → Char)) := do
  let es := strlen text
  let r ← parseline (load text) es (4 * es + 4) 0
  let pk := peek (load text) es r.2 []
  if pk.2 ≠ es then .error .leftovers else .ok (r.1, nulterminate r.1 (load text))

/-- The string at `q`, of at most `n` characters. -/
def cstr (buf : ℕ → Char) : ℕ → ℕ → List Char
  | 0, _ => []
  | n + 1, q => if buf q = nul then [] else buf q :: cstr buf n (q + 1)

/-- The tree with the strings that its pointers now point to. -/
def strings (text : List Char) (r : Cmd Slice × (ℕ → Char)) : Cmd (List Char) :=
  r.1.map fun q => cstr r.2 (text.length - q.1) q.1

end Xv6.Sh
