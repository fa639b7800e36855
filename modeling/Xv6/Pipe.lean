import Xv6.ByteMem
import Mathlib.Data.List.OfFn

/-!
Pipes, `pipe.c`: `pipewrite`, `piperead` and `pipeclose` on one pipe by any number of processes,
with the parts of `sleep`, `wakeup` and `kill` they meet.

Each process stands at a program counter. A step is one section under a lock, one look at the
pipe or one byte under `pi->lock`, one process of a `wakeup` scan, or one of the phases of
`sleep`: taking `p->lock`, releasing `pi->lock`, falling asleep. Calls that return at once on an
error give `pi->lock` back in the same step.
-/

namespace Xv6.Pipe

open Xv6.ByteMem

def PIPESIZE : ℕ := 512

/-- `struct pipe` without its lock. -/
structure PipeData where
  data : ℕ → Byte
  nread : BitVec 32
  nwrite : BitVec 32
  readopen : Bool
  writeopen : Bool

/-- The two sleep channels, `&pi->nread` and `&pi->nwrite`. -/
inductive Chan where
  | nread
  | nwrite
deriving DecidableEq

/-- Where a sleeper goes on: with the bytes of a write and how many are stored, or with the size
of a read. -/
inductive Resume where
  | write (buf : List Byte) (i : ℕ)
  | read (n : ℕ)
deriving DecidableEq

/-- Program counters. A writer carries the bytes to write, the number `i` stored so far and the
number `i0` that were stored when it last took the lock; a scan carries the processes it has yet to
visit. -/
inductive Pc (P : Type) where
  | user
  | wAcquire (buf : List Byte) (i : ℕ)
  | wTest (buf : List Byte) (i i0 : ℕ)
  | wKilled (buf : List Byte) (i i0 : ℕ)
  | wByte (buf : List Byte) (i i0 : ℕ)
  | wFull (buf : List Byte) (i : ℕ) (todo : List P)
  | wDone (i : ℕ) (todo : List P)
  | rAcquire (n : ℕ)
  | rTest (n : ℕ)
  | rKilled (n : ℕ)
  | rCopy (n i : ℕ)
  | rDone (n i : ℕ) (todo : List P)
  | cAcquire (writable : Bool)
  | cDone (writable : Bool) (todo : List P)
  | sLock (c : Chan) (k : Resume)
  | sRelease (c : Chan) (k : Resume)
  | sSched (c : Chan) (k : Resume)
  | asleep (c : Chan) (k : Resume)
deriving DecidableEq

/-- The scheduling states that matter here. -/
inductive Status where
  | RUNNING
  | RUNNABLE
  | SLEEPING
deriving DecidableEq

/-- The pipe and its processes, with the bytes stored and delivered so far. -/
structure St (P : Type) where
  pi : PipeData
  lock : Option P
  killed : P → Bool
  state : P → Status
  chan : P → Option Chan
  pc : P → Pc P
  stored : List Byte
  delivered : List Byte

/-- What a process asks for. -/
inductive Call where
  | write (buf : List Byte)
  | read (n : ℕ)
  | close (writable : Bool)

/-- Who moves next. `fault` is a step of the process in which the copy to or from its memory
fails, where it makes one. -/
inductive Act (P : Type) where
  | call (p : P) (c : Call)
  | go (p : P)
  | fault (p : P)
  | kill (p : P)

def PipeData.empty (d : PipeData) : Prop := d.nread = d.nwrite

def PipeData.full (d : PipeData) : Prop := d.nwrite = d.nread + 512#32

instance (d : PipeData) : Decidable d.empty := inferInstanceAs (Decidable (_ = _))

instance (d : PipeData) : Decidable d.full := inferInstanceAs (Decidable (_ = _))

/-- `pi->data[pi->nwrite++ % PIPESIZE] = ch`. -/
def PipeData.push (d : PipeData) (ch : Byte) : PipeData :=
  { d with
    data := Function.update d.data (d.nwrite.toNat % PIPESIZE) ch
    nwrite := d.nwrite + 1 }

/-- `ch = pi->data[pi->nread++ % PIPESIZE]`. -/
def PipeData.front (d : PipeData) : Byte := d.data (d.nread.toNat % PIPESIZE)

def PipeData.pop (d : PipeData) : PipeData := { d with nread := d.nread + 1 }

def PipeData.close (d : PipeData) (writable : Bool) : PipeData :=
  if writable then { d with writeopen := false } else { d with readopen := false }

/-- The channel `pipeclose` wakes. -/
def closeChan (writable : Bool) : Chan := if writable then .nread else .nwrite

variable {P : Type} [DecidableEq P]

def St.goto (s : St P) (p : P) (c : Pc P) : St P := { s with pc := Function.update s.pc p c }

/-- `acquire(&pi->lock)`, then on to `c`; spins while the lock is taken. -/
def St.acquire (s : St P) (p : P) (c : Pc P) : St P :=
  match s.lock with
  | none => { s.goto p c with lock := some p }
  | some _ => s

/-- `release(&pi->lock)`, then on to `c`. -/
def St.release (s : St P) (p : P) (c : Pc P) : St P := { s.goto p c with lock := none }

/-- The process holds its own `p->lock` between steps: it is on its way to sleep. -/
def Pc.holdsOwn : Pc P → Bool
  | .sRelease _ _ | .sSched _ _ => true
  | _ => false

/-- `wakeup(c)` by `me` comes to process `q`. -/
def St.wake (s : St P) (me q : P) (c : Chan) : St P :=
  if q ≠ me ∧ s.state q = .SLEEPING ∧ s.chan q = some c then
    { s with state := Function.update s.state q .RUNNABLE }
  else s

/-- One process of a scan: it has to wait while that process holds its own lock. -/
def St.scan (s : St P) (me q : P) (c : Chan) (next : Pc P) : St P :=
  if q ≠ me ∧ (s.pc q).holdsOwn = true then s else (s.wake me q c).goto me next

def Resume.pc : Resume → Pc P
  | .write buf i => .wAcquire buf i
  | .read n => .rAcquire n

/-- A step of process `p`; `ok` says whether a copy to or from its memory succeeds, `procs` is the
process table. -/
def go (procs : List P) (p : P) (ok : Bool) (s : St P) : St P :=
  match s.pc p with
  | .user => s
  -- pipewrite
  | .wAcquire buf i => s.acquire p (.wTest buf i i)
  | .wTest buf i i0 =>
    if i < buf.length then
      if s.pi.readopen then s.goto p (.wKilled buf i i0) else s.release p .user
    else s.goto p (.wDone i procs)
  | .wKilled buf i i0 => if s.killed p then s.release p .user else s.goto p (.wByte buf i i0)
  | .wByte buf i i0 =>
    if s.pi.full then s.goto p (.wFull buf i procs)
    else if ok then
      { s.goto p (.wTest buf (i + 1) i0) with
        pi := s.pi.push (buf.getD i 0)
        stored := s.stored ++ [buf.getD i 0] }
    else s.goto p (.wDone i procs)
  | .wFull buf i [] => s.goto p (.sLock .nwrite (.write buf i))
  | .wFull buf i (q :: todo) => s.scan p q .nread (.wFull buf i todo)
  | .wDone _ [] => s.release p .user
  | .wDone i (q :: todo) => s.scan p q .nread (.wDone i todo)
  -- piperead
  | .rAcquire n => s.acquire p (.rTest n)
  | .rTest n =>
    if s.pi.empty ∧ s.pi.writeopen = true then s.goto p (.rKilled n) else s.goto p (.rCopy n 0)
  | .rKilled n => if s.killed p then s.release p .user else s.goto p (.sLock .nread (.read n))
  | .rCopy n i =>
    if i < n ∧ ¬ s.pi.empty then
      if ok then
        { s.goto p (.rCopy n (i + 1)) with
          pi := s.pi.pop
          delivered := s.delivered ++ [s.pi.front] }
      else { s.goto p (.rDone n i procs) with pi := s.pi.pop }
    else s.goto p (.rDone n i procs)
  | .rDone _ _ [] => s.release p .user
  | .rDone n i (q :: todo) => s.scan p q .nwrite (.rDone n i todo)
  -- pipeclose
  | .cAcquire w =>
    match s.lock with
    | none => { s.goto p (.cDone w procs) with lock := some p, pi := s.pi.close w }
    | some _ => s
  | .cDone _ [] => s.release p .user
  | .cDone w (q :: todo) => s.scan p q (closeChan w) (.cDone w todo)
  -- sleep
  | .sLock c k => s.goto p (.sRelease c k)
  | .sRelease c k => s.release p (.sSched c k)
  | .sSched c k =>
    { s.goto p (.asleep c k) with
      chan := Function.update s.chan p (some c)
      state := Function.update s.state p .SLEEPING }
  | .asleep _ k =>
    if s.state p = .SLEEPING then s
    else
      { s.goto p k.pc with
        chan := Function.update s.chan p none
        state := Function.update s.state p .RUNNING }

def Call.pc : Call → Pc P
  | .write buf => .wAcquire buf 0
  | .read n => .rAcquire n
  | .close w => .cAcquire w

def step (procs : List P) (s : St P) : Act P → St P
  | .call p c => if s.pc p = .user then s.goto p c.pc else s
  | .go p => go procs p true s
  | .fault p => go procs p false s
  | .kill p =>
    if (s.pc p).holdsOwn then s
    else
      { s with
        killed := Function.update s.killed p true
        state := if s.state p = .SLEEPING then Function.update s.state p .RUNNABLE else s.state }

/-- The pipe `pipealloc` makes, with no call under way; what `data` and the `killed` flags hold is
left open. -/
def init (data : ℕ → Byte) (killed : P → Bool) : St P where
  pi := ⟨data, 0, 0, true, true⟩
  lock := none
  killed := killed
  state := fun _ => .RUNNING
  chan := fun _ => none
  pc := fun _ => .user
  stored := []
  delivered := []

def run (procs : List P) (s : St P) (acts : List (Act P)) : St P := acts.foldl (step procs) s

/-! ### Small facts about the steps -/

@[simp] lemma goto_pc_self (s : St P) (p : P) (c : Pc P) : (s.goto p c).pc p = c :=
  Function.update_self ..

lemma goto_pc_ne (s : St P) {p q : P} (c : Pc P) (h : q ≠ p) : (s.goto p c).pc q = s.pc q :=
  Function.update_of_ne h _ _

@[simp] lemma goto_pi (s : St P) (p : P) (c : Pc P) : (s.goto p c).pi = s.pi := rfl
@[simp] lemma goto_lock (s : St P) (p : P) (c : Pc P) : (s.goto p c).lock = s.lock := rfl
@[simp] lemma goto_stored (s : St P) (p : P) (c : Pc P) : (s.goto p c).stored = s.stored := rfl
@[simp] lemma goto_delivered (s : St P) (p : P) (c : Pc P) :
    (s.goto p c).delivered = s.delivered := rfl

@[simp] lemma wake_pi (s : St P) (me q : P) (c : Chan) : (s.wake me q c).pi = s.pi := by
  unfold St.wake; split_ifs <;> rfl

@[simp] lemma wake_pc (s : St P) (me q : P) (c : Chan) : (s.wake me q c).pc = s.pc := by
  unfold St.wake; split_ifs <;> rfl

@[simp] lemma wake_lock (s : St P) (me q : P) (c : Chan) : (s.wake me q c).lock = s.lock := by
  unfold St.wake; split_ifs <;> rfl

@[simp] lemma wake_chan (s : St P) (me q : P) (c : Chan) : (s.wake me q c).chan = s.chan := by
  unfold St.wake; split_ifs <;> rfl

@[simp] lemma wake_stored (s : St P) (me q : P) (c : Chan) :
    (s.wake me q c).stored = s.stored := by
  unfold St.wake; split_ifs <;> rfl

@[simp] lemma wake_delivered (s : St P) (me q : P) (c : Chan) :
    (s.wake me q c).delivered = s.delivered := by
  unfold St.wake; split_ifs <;> rfl

end Xv6.Pipe
