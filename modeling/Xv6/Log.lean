import Mathlib.Data.Finset.Basic
import Mathlib.Data.List.Dedup
import Mathlib.Logic.Function.Basic
import Mathlib.Tactic.Common

/-!
The file system's log, `log.c`: operations that run concurrently between `begin_op` and `end_op`,
the commit of a group of them, crashes and recovery.

A step is a section under `log.lock`, or one write of a block to the disk by the thread that
commits or recovers. `cache` is what `bread` returns; it is lost in a crash together with the rest
of the memory. An operation that has to wait in `begin_op` tries again later.
-/

namespace Xv6.Log

def MAXOPBLOCKS : ℕ := 10

def LOGSIZE : ℕ := MAXOPBLOCKS * 3

/-- A disk block, as its 32-bit words. -/
abbrev Block := ℕ → BitVec 32

abbrev Disk := ℕ → Block

/-- Where the superblock says the log is: `size` blocks from `start` on, the first of them the
header. -/
structure Layout where
  start : ℕ
  size : ℕ

/-- The layout `mkfs` writes: `sb.nlog = LOGSIZE`. -/
def mkfsLayout : Layout := ⟨2, LOGSIZE⟩

/-! ### The header block -/

/-- The data of the header buffer after `write_head` has put the list of blocks into it. -/
def writeHeader (blk : Block) (bs : List ℕ) : Block := fun w =>
  if w = 0 then BitVec.ofNat 32 bs.length
  else if w ≤ bs.length then BitVec.ofNat 32 (bs.getD (w - 1) 0)
  else blk w

/-- What `read_head` reads. -/
def readHeader (blk : Block) : List ℕ :=
  (List.range (blk 0).toNat).map fun i => (blk (i + 1)).toNat

/-! ### The state -/

inductive Panic where
  | tooBig
  | outside
  | committing
deriving DecidableEq

/-- What the thread that commits or recovers does next. -/
inductive Pc where
  | run
  | writeLog (tail : ℕ)
  | writeHead
  | install (tail : ℕ)
  | clear
  | finish
  | readHead
  | reinstall (tail : ℕ)
  | reclear
  | panic (p : Panic)
deriving DecidableEq

/-- `log`, the disk and the cache. The last four fields only record what has happened: the
operations under way and the blocks each has logged, the writes of the current group, and the
groups whose header has reached the disk. -/
structure St where
  disk : Disk
  cache : Disk
  lh : List ℕ
  outstanding : ℕ
  committing : Bool
  pc : Pc
  active : Finset ℕ
  used : ℕ → List ℕ
  group : List (ℕ × Block)
  committed : List (List (ℕ × Block))

inductive Act where
  | begin_op (o : ℕ)
  | log_write (o b : ℕ) (d : Block)
  | end_op (o : ℕ)
  | go
  | crash

/-- The system is up: operations may run. -/
def Pc.up : Pc → Bool
  | .run | .writeLog _ | .writeHead | .install _ | .clear | .finish => true
  | _ => false

/-! ### The operations -/

def begin_op (o : ℕ) (s : St) : St :=
  if s.committing then s
  else if LOGSIZE < s.lh.length + (s.outstanding + 1) * MAXOPBLOCKS then s
  else
    { s with
      outstanding := s.outstanding + 1
      active := insert o s.active
      used := Function.update s.used o [] }

/-- The buffer of block `b` holds `d`; it is recorded unless it is already. -/
def log_write (L : Layout) (o b : ℕ) (d : Block) (s : St) : St :=
  let s := { s with cache := Function.update s.cache b d }
  if LOGSIZE ≤ s.lh.length ∨ L.size ≤ s.lh.length + 1 then { s with pc := .panic .tooBig }
  else if s.outstanding < 1 then { s with pc := .panic .outside }
  else
    { s with
      lh := if b ∈ s.lh then s.lh else s.lh ++ [b]
      used := Function.update s.used o (if b ∈ s.used o then s.used o else s.used o ++ [b])
      group := s.group ++ [(b, d)] }

def end_op (o : ℕ) (s : St) : St :=
  let s := { s with outstanding := s.outstanding - 1, active := s.active.erase o }
  if s.committing then { s with pc := .panic .committing }
  else if s.outstanding = 0 then
    { s with committing := true, pc := if 0 < s.lh.length then .writeLog 0 else .finish }
  else s

/-- `install_trans`: the next block goes from the log to its home. -/
def installBlock (L : Layout) (tail : ℕ) (s : St) : St :=
  let d := s.disk (L.start + tail + 1)
  { s with
    disk := Function.update s.disk (s.lh.getD tail 0) d
    cache := Function.update s.cache (s.lh.getD tail 0) d }

/-- The header block is written with the blocks `bs`. -/
def putHeader (L : Layout) (bs : List ℕ) (s : St) : St :=
  { s with disk := Function.update s.disk L.start (writeHeader (s.disk L.start) bs) }

/-- The next step of `commit` and of the end of `end_op`, or of `recover_from_log`. -/
def go (L : Layout) (s : St) : St :=
  match s.pc with
  | .writeLog tail =>
    if tail < s.lh.length then
      { s with
        disk := Function.update s.disk (L.start + tail + 1) (s.cache (s.lh.getD tail 0))
        pc := .writeLog (tail + 1) }
    else { s with pc := .writeHead }
  | .writeHead =>
    { putHeader L s.lh s with
      pc := .install 0
      group := []
      committed := s.committed ++ [s.group] }
  | .install tail =>
    if tail < s.lh.length then { installBlock L tail s with pc := .install (tail + 1) }
    else { s with pc := .clear }
  | .clear => { putHeader L [] s with lh := [], pc := .finish }
  | .finish => { s with committing := false, pc := .run }
  | .readHead => { s with lh := readHeader (s.disk L.start), pc := .reinstall 0 }
  | .reinstall tail =>
    if tail < s.lh.length then { installBlock L tail s with pc := .reinstall (tail + 1) }
    else { s with pc := .reclear }
  | .reclear => { putHeader L [] s with lh := [], pc := .run }
  | .run | .panic _ => s

/-- The memory is lost; the machine starts again with an empty cache and goes to recover. -/
def crash (s : St) : St :=
  { s with
    cache := s.disk
    lh := []
    outstanding := 0
    committing := false
    pc := .readHead
    active := ∅
    used := fun _ => []
    group := [] }

def step (L : Layout) (s : St) : Act → St
  | .begin_op o => if s.pc.up ∧ o ∉ s.active then begin_op o s else s
  | .log_write o b d => if s.pc.up ∧ o ∈ s.active then log_write L o b d s else s
  | .end_op o => if s.pc.up ∧ o ∈ s.active then end_op o s else s
  | .go => go L s
  | .crash => crash s

def run (L : Layout) (s : St) (acts : List Act) : St := acts.foldl (step L) s

@[simp] lemma run_nil (L : Layout) (s : St) : run L s [] = s := rfl

@[simp] lemma run_cons (L : Layout) (s : St) (a : Act) (acts : List Act) :
    run L s (a :: acts) = run L (step L s a) acts := rfl

/-- The machine is switched on. -/
def boot (disk : Disk) : St where
  disk := disk
  cache := disk
  lh := []
  outstanding := 0
  committing := false
  pc := .readHead
  active := ∅
  used := fun _ => []
  group := []
  committed := []

/-- Every step of the run meets `C`. -/
def Along (L : Layout) (C : St → Act → Prop) : St → List Act → Prop
  | _, [] => True
  | s, a :: acts => C s a ∧ Along L C (step L s a) acts

end Xv6.Log
