import Xv6.ByteMem
import Mathlib.Data.List.OfFn

/-!
The console, `console.c`: the input interrupt handler `consoleintr` and calls of `consoleread` by any
number of processes.

Each process stands at a program counter. A step is one iteration of the reading loop with
`cons.lock` held, one taking or giving back of the lock, or a whole run of the handler, which has to
wait while a reader holds the lock. Copies to user memory succeed; what the handler echoes is left
out.
-/

namespace Xv6.Console

open Xv6.ByteMem

def INPUT_BUF_SIZE : ℕ := 128

/-- `C('@' + k)`, the character typed with the control key. -/
def ctrlP : Byte := 16
def ctrlU : Byte := 21
def ctrlH : Byte := 8
def ctrlD : Byte := 4
def DEL : Byte := 0x7f
/-- `'\n'` and `'\r'`. -/
def NL : Byte := 10
def CR : Byte := 13

/-- `cons` without its lock. -/
structure Cons where
  buf : ℕ → Byte
  r : BitVec 32
  w : BitVec 32
  e : BitVec 32

/-- `cons.buf[i % INPUT_BUF_SIZE]`. -/
def Cons.at (d : Cons) (i : BitVec 32) : Byte := d.buf (i.toNat % INPUT_BUF_SIZE)

/-- `cons.buf[cons.e++ % INPUT_BUF_SIZE] = c`. -/
def Cons.store (d : Cons) (c : Byte) : Cons :=
  { d with
    buf := Function.update d.buf (d.e.toNat % INPUT_BUF_SIZE) c
    e := d.e + 1 }

/-- The loop that kills a line; `k` is the distance from `w` to `e`. -/
def killLine : ℕ → Cons → Cons
  | 0, d => d
  | k + 1, d => if d.e ≠ d.w ∧ d.at (d.e - 1) ≠ NL then killLine k { d with e := d.e - 1 } else d

/-- The handler, and whether it wakes the readers. -/
def consoleintr (d : Cons) (c : Byte) : Cons × Bool :=
  if c = ctrlP then (d, false)
  else if c = ctrlU then (killLine (d.e - d.w).toNat d, false)
  else if c = ctrlH ∨ c = DEL then (if d.e ≠ d.w then { d with e := d.e - 1 } else d, false)
  else if c ≠ 0 ∧ d.e - d.r < 128#32 then
    let c := if c = CR then NL else c
    let d := d.store c
    if c = NL ∨ c = ctrlD ∨ d.e - d.r = 128#32 then ({ d with w := d.e }, true) else (d, false)
  else (d, false)

/-- Program counters of `consoleread`, with the local variables. -/
inductive Pc where
  | user
  | acquire (n target : BitVec 32)
  | loop (n target : BitVec 32)
  | asleep (n target : BitVec 32)
  | done (n target : BitVec 32)

/-- What can be seen from outside: a character that arrives, and for a process that it calls
`consoleread`, is given a byte, meets the end of the file, and gets its result. -/
inductive Event (P : Type) where
  | key (c : Byte)
  | call (p : P) (n : BitVec 32)
  | got (p : P) (c : Byte)
  | eof (p : P)
  | ret (p : P) (v : ℤ)

structure St (P : Type) where
  cons : Cons
  lock : Option P
  killed : P → Bool
  pc : P → Pc
  log : List (Event P)

inductive Act (P : Type) where
  | intr (c : Byte)
  | call (p : P) (n : BitVec 32)
  | go (p : P)
  | kill (p : P)

/-- A sleeper that is woken goes for the lock. -/
def Pc.wake : Pc → Pc
  | .asleep n target => .acquire n target
  | c => c

variable {P : Type} [DecidableEq P]

def St.goto (s : St P) (p : P) (c : Pc) : St P := { s with pc := Function.update s.pc p c }

def St.emit (s : St P) (ev : Event P) : St P := { s with log := s.log ++ [ev] }

/-- An iteration of the loop of `consoleread`. -/
def readStep (s : St P) (p : P) (n target : BitVec 32) : St P :=
  if 0 < n.toInt then
    if s.cons.r = s.cons.w then
      if s.killed p then ({ s with lock := none }.goto p .user).emit (.ret p (-1))
      else { s with lock := none }.goto p (.asleep n target)
    else
      let c := s.cons.at s.cons.r
      let d := { s.cons with r := s.cons.r + 1 }
      if c = ctrlD then
        -- kept for the next read, which then gets no bytes
        let d := if n < target then { d with r := d.r - 1 } else d
        ({ s with cons := d }.goto p (.done n target)).emit (.eof p)
      else
        let s := ({ s with cons := d }).emit (.got p c)
        if c = NL then s.goto p (.done (n - 1) target) else s.goto p (.loop (n - 1) target)
  else s.goto p (.done n target)

/-- A step of process `p`. -/
def go (s : St P) (p : P) : St P :=
  match s.pc p with
  | .user => s
  | .acquire n target =>
    match s.lock with
    | none => { s with lock := some p }.goto p (.loop n target)
    | some _ => s
  | .loop n target => readStep s p n target
  | .asleep _ _ => s
  | .done n target =>
    ({ s with lock := none }.goto p .user).emit (.ret p (target - n).toInt)

def step (s : St P) : Act P → St P
  | .intr c =>
    match s.lock with
    | none =>
      let r := consoleintr s.cons c
      { s with
        cons := r.1
        pc := if r.2 then fun p => (s.pc p).wake else s.pc }.emit (.key c)
    | some _ => s
  | .call p n =>
    match s.pc p with
    | .user => (s.goto p (.acquire n n)).emit (.call p n)
    | _ => s
  | .go p => go s p
  | .kill p =>
    { s with killed := Function.update s.killed p true }.goto p (s.pc p).wake

/-- The console after `consoleinit`; what the buffer and the `killed` flags hold is left open. -/
def init (buf : ℕ → Byte) (killed : P → Bool) : St P where
  cons := ⟨buf, 0, 0, 0⟩
  lock := none
  killed := killed
  pc := fun _ => .user
  log := []

def run (s : St P) (acts : List (Act P)) : St P := acts.foldl step s

end Xv6.Console
