import Xv6.Dlist
import Xv6.LogCrash
import Mathlib.Algebra.Order.Ring.Nat
import Mathlib.Data.Fintype.Basic
import Mathlib.Data.List.FinRange

/-!
The buffer cache, `bio.c`, under the log: processes that read, change and log blocks through
`NBUF` buffers, and the thread that commits, which goes through the same buffers.

A step is a section under `bcache.lock`, under `log.lock` or under the spinlock of a sleeplock, or
a transfer of a block by a process that holds its buffer. The fields of `struct buf` and those of
a process are one map each. What a C function keeps in its local variables is in `call`, what is
left of the `bread` or `brelse` under way, and in `held`, the buffers `bread` has returned, the
latest first.
-/

namespace Xv6.Bio

open Log (Block Layout MAXOPBLOCKS LOGSIZE writeHeader)
open Dlist (Links seek insertAfter unlink)

def NBUF : ℕ := MAXOPBLOCKS * 3

instance : NeZero NBUF := ⟨by decide⟩

/-- The log and the device it is on. -/
structure LogDev extends Layout where
  dev : ℕ

/-- What is left of a `bread` or a `brelse`: waiting for the buffer's sleeplock, with the lock but
before the data is there, or before the buffer is given back. -/
inductive Call (N : ℕ) where
  | lock (i : Fin N) (dev b : ℕ)
  | fill (i : Fin N) (dev b : ℕ)
  | drop (i : Fin N)
deriving DecidableEq

/-- The next statement of `commit`. The two uses of `write_head` differ in what follows: the first
commits, the second erases the log. -/
inductive Pc where
  | writeLog (tail : ℕ)
  | readSrc (tail : ℕ)
  | copyLog (tail : ℕ)
  | bwriteLog (tail : ℕ)
  | brelseSrc (tail : ℕ)
  | brelseLog (tail : ℕ)
  | writeHead (erase : Bool)
  | fillHead (erase : Bool)
  | bwriteHead (erase : Bool)
  | brelseHead (erase : Bool)
  | install (tail : ℕ)
  | readDst (tail : ℕ)
  | copyDst (tail : ℕ)
  | bwriteDst (tail : ℕ)
  | unpin (tail : ℕ)
  | brelseLbuf (tail : ℕ)
  | brelseDst (tail : ℕ)
  | finish
deriving DecidableEq

/-- A process is outside of operations, between `begin_op` and `end_op`, or commits. -/
inductive Job where
  | idle
  | op
  | commit (c : Pc)
deriving DecidableEq

/-- `bcache`, the log, the disk and the processes. The last four fields only record what has
happened: the block array as the operations see it, the buffers whose data has changed since they
were last logged or written, and how many blocks of the header are installed and unpinned. -/
structure St (N P : ℕ) where
  valid : Fin N → Bool
  dev : Fin N → ℕ
  blockno : Fin N → ℕ
  locked : Fin N → Option (Fin P)
  refcnt : Fin N → ℕ
  data : Fin N → Block
  links : Links (Option (Fin N))
  disk : ℕ → Block
  lh : List ℕ
  outstanding : ℕ
  committing : Bool
  call : Fin P → Option (Call N)
  held : Fin P → List (Fin N)
  job : Fin P → Job
  panicked : Bool
  mem : ℕ → Block
  dirty : Finset (Fin N)
  installed : ℕ
  unpinned : ℕ

variable {N P : ℕ}

/-! ### bio.c -/

/-- The links `binit` makes; `none` is the head. -/
def binit (N : ℕ) : Links (Option (Fin N)) :=
  (List.finRange N).foldl (fun k i => insertAfter k none (some i)) ⟨fun _ => none, fun _ => none⟩

def panic (s : St N P) : St N P := { s with panicked := true }

/-- The buffer that holds the block, if there is one. -/
def cached (s : St N P) (dev b : ℕ) : Option (Option (Fin N)) :=
  seek s.links.next none
    (fun x => x.any fun i => s.dev i = dev ∧ s.blockno i = b) (N + 1) (s.links.next none)

/-- The least recently used buffer that nobody uses. -/
def unused (s : St N P) : Option (Option (Fin N)) :=
  seek s.links.prev none (fun x => x.any fun i => s.refcnt i = 0) (N + 1) (s.links.prev none)

/-- `bget` up to `acquiresleep`. -/
def bget (s : St N P) (p : Fin P) (dev b : ℕ) : St N P :=
  match cached s dev b with
  | some (some i) =>
    { s with
      refcnt := Function.update s.refcnt i (s.refcnt i + 1)
      call := Function.update s.call p (some (.lock i dev b)) }
  | _ =>
    match unused s with
    | some (some i) =>
      { s with
        dev := Function.update s.dev i dev
        blockno := Function.update s.blockno i b
        valid := Function.update s.valid i false
        refcnt := Function.update s.refcnt i 1
        call := Function.update s.call p (some (.lock i dev b)) }
    | _ => panic s

/-- `acquiresleep`, for a process that finds the lock free. -/
def acquiresleep (s : St N P) (p : Fin P) (i : Fin N) (dev b : ℕ) : St N P :=
  if s.locked i = none then
    { s with
      locked := Function.update s.locked i (some p)
      call := Function.update s.call p (some (.fill i dev b)) }
  else s

/-- The rest of `bread`: the block is read unless the buffer has it. -/
def fill (s : St N P) (p : Fin P) (i : Fin N) : St N P :=
  { s with
    data := if s.valid i then s.data else Function.update s.data i (s.disk (s.blockno i))
    valid := Function.update s.valid i true
    call := Function.update s.call p none
    held := Function.update s.held p (i :: s.held p) }

/-- `bwrite` of a buffer the process has. -/
def bwrite (s : St N P) (p : Fin P) (i : Fin N) : St N P :=
  if s.locked i = some p then
    { s with
      disk := Function.update s.disk (s.blockno i) (s.data i)
      dirty := s.dirty.erase i }
  else panic s

/-- `brelse` up to the end of `releasesleep`. -/
def brelse (s : St N P) (p : Fin P) (i : Fin N) : St N P :=
  if s.locked i = some p then
    { s with
      locked := Function.update s.locked i none
      held := Function.update s.held p ((s.held p).erase i)
      call := Function.update s.call p (some (.drop i)) }
  else panic s

/-- The rest of `brelse`, under `bcache.lock`. -/
def drop (s : St N P) (p : Fin P) (i : Fin N) : St N P :=
  { s with
    refcnt := Function.update s.refcnt i (s.refcnt i - 1)
    links := if s.refcnt i - 1 = 0 then insertAfter (unlink s.links (some i)) none (some i)
      else s.links
    call := Function.update s.call p none }

def bunpin (s : St N P) (i : Fin N) : St N P :=
  { s with refcnt := Function.update s.refcnt i (s.refcnt i - 1) }

/-- The data of a buffer is changed. -/
def modify (s : St N P) (i : Fin N) (d : Block) : St N P :=
  { s with data := Function.update s.data i d, dirty := insert i s.dirty }

/-! ### log.c -/

def goto (s : St N P) (p : Fin P) (c : Pc) : St N P :=
  { s with job := Function.update s.job p (.commit c) }

def begin_op (s : St N P) (p : Fin P) : St N P :=
  if s.committing then s
  else if LOGSIZE < s.lh.length + (s.outstanding + 1) * MAXOPBLOCKS then s
  else { s with outstanding := s.outstanding + 1, job := Function.update s.job p .op }

/-- `log_write`, with the `bpin` of a block that was not there yet. -/
def log_write (D : LogDev) (s : St N P) (i : Fin N) : St N P :=
  if LOGSIZE ≤ s.lh.length ∨ D.size ≤ s.lh.length + 1 then panic s
  else if s.outstanding < 1 then panic s
  else
    let s := { s with
      mem := Function.update s.mem (s.blockno i) (s.data i)
      dirty := s.dirty.erase i }
    if s.blockno i ∈ s.lh then s
    else
      { s with
        lh := s.lh ++ [s.blockno i]
        refcnt := Function.update s.refcnt i (s.refcnt i + 1) }

def end_op (s : St N P) (p : Fin P) : St N P :=
  let s := { s with outstanding := s.outstanding - 1 }
  if s.committing then panic s
  else if s.outstanding = 0 then
    goto { s with committing := true } p (if 0 < s.lh.length then .writeLog 0 else .finish)
  else { s with job := Function.update s.job p .idle }

/-- One statement of `commit`, that is of `write_log`, `write_head` and `install_trans`. -/
def commit (D : LogDev) (s : St N P) (p : Fin P) : Pc → St N P
  | .writeLog t =>
    if t < s.lh.length then bget (goto s p (.readSrc t)) p D.dev (D.start + t + 1)
    else goto s p (.writeHead false)
  | .readSrc t => bget (goto s p (.copyLog t)) p D.dev (s.lh.getD t 0)
  | .copyLog t =>
    match s.held p with
    | [src, log] => modify (goto s p (.bwriteLog t)) log (s.data src)
    | _ => s
  | .bwriteLog t =>
    match s.held p with
    | [_, log] => bwrite (goto s p (.brelseSrc t)) p log
    | _ => s
  | .brelseSrc t =>
    match s.held p with
    | [src, _] => brelse (goto s p (.brelseLog t)) p src
    | _ => s
  | .brelseLog t =>
    match s.held p with
    | [log] => brelse (goto s p (.writeLog (t + 1))) p log
    | _ => s
  | .writeHead erase => bget (goto s p (.fillHead erase)) p D.dev D.start
  | .fillHead erase =>
    match s.held p with
    | [head] => modify (goto s p (.bwriteHead erase)) head (writeHeader (s.data head) s.lh)
    | _ => s
  | .bwriteHead erase =>
    match s.held p with
    | [head] => bwrite (goto s p (.brelseHead erase)) p head
    | _ => s
  | .brelseHead erase =>
    match s.held p with
    | [head] => brelse (goto s p (if erase then .finish else .install 0)) p head
    | _ => s
  | .install t =>
    if t < s.lh.length then bget (goto s p (.readDst t)) p D.dev (D.start + t + 1)
    else { goto s p (.writeHead true) with lh := [], installed := 0, unpinned := 0 }
  | .readDst t => bget (goto s p (.copyDst t)) p D.dev (s.lh.getD t 0)
  | .copyDst t =>
    match s.held p with
    | [dst, lbuf] => modify (goto s p (.bwriteDst t)) dst (s.data lbuf)
    | _ => s
  | .bwriteDst t =>
    match s.held p with
    | [dst, _] => { bwrite (goto s p (.unpin t)) p dst with installed := t + 1 }
    | _ => s
  | .unpin t =>
    match s.held p with
    | [dst, _] => { bunpin (goto s p (.brelseLbuf t)) dst with unpinned := t + 1 }
    | _ => s
  | .brelseLbuf t =>
    match s.held p with
    | [_, lbuf] => brelse (goto s p (.brelseDst t)) p lbuf
    | _ => s
  | .brelseDst t =>
    match s.held p with
    | [dst] => brelse (goto s p (.install (t + 1))) p dst
    | _ => s
  | .finish => { s with committing := false, job := Function.update s.job p .idle }

/-! ### Runs -/

inductive Act (N P : ℕ) where
  | begin_op (p : Fin P)
  | bread (p : Fin P) (dev b : ℕ)
  | modify (p : Fin P) (i : Fin N) (d : Block)
  | log_write (p : Fin P) (i : Fin N)
  | brelse (p : Fin P) (i : Fin N)
  | end_op (p : Fin P)
  | go (p : Fin P)

/-- The process goes on with the call it is in, or with `commit`. -/
def go (D : LogDev) (s : St N P) (p : Fin P) : St N P :=
  match s.call p with
  | some (.lock i dev b) => acquiresleep s p i dev b
  | some (.fill i _ _) => fill s p i
  | some (.drop i) => drop s p i
  | none =>
    match s.job p with
    | .commit c => commit D s p c
    | _ => s

/-- The process is not in `commit`. -/
def Job.free : Job → Bool
  | .commit _ => false
  | _ => true

/-- A process that is in no call may make one. Blocks are changed and logged inside operations
only, by a process that has their buffer, and a buffer that was changed is logged before it is
released. -/
def step (D : LogDev) (s : St N P) (a : Act N P) : St N P :=
  if s.panicked then s
  else match a with
    | .begin_op p => if s.call p = none ∧ s.job p = .idle then begin_op s p else s
    | .bread p dev b => if s.call p = none ∧ (s.job p).free then bget s p dev b else s
    | .modify p i d => if s.call p = none ∧ s.job p = .op ∧ i ∈ s.held p then modify s i d else s
    | .log_write p i =>
      if s.call p = none ∧ s.job p = .op ∧ i ∈ s.held p then log_write D s i else s
    | .brelse p i =>
      if s.call p = none ∧ (s.job p).free ∧ i ∈ s.held p ∧ i ∉ s.dirty then brelse s p i else s
    | .end_op p => if s.call p = none ∧ s.job p = .op ∧ s.held p = [] then end_op s p else s
    | .go p => go D s p

def run (D : LogDev) (s : St N P) (acts : List (Act N P)) : St N P := acts.foldl (step D) s

/-- The cache after `binit`, and an empty log. -/
def init (N P : ℕ) (disk : ℕ → Block) : St N P where
  valid := fun _ => false
  dev := fun _ => 0
  blockno := fun _ => 0
  locked := fun _ => none
  refcnt := fun _ => 0
  data := fun _ _ => 0
  links := binit N
  disk := disk
  lh := []
  outstanding := 0
  committing := false
  call := fun _ => none
  held := fun _ => []
  job := fun _ => .idle
  panicked := false
  mem := disk
  dirty := ∅
  installed := 0
  unpinned := 0

end Xv6.Bio
