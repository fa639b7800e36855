import Xv6.FsBlocks
import Xv6.Forget
import Mathlib.Data.Finset.Basic

/-!
Which blocks a write logs: the functions of `fs.c` that `writei` calls, with their calls of
`log_write`. The blocks on the log are a set, for logging a block again does nothing. Without the
record of them the functions are those of the file system.
-/

namespace Xv6.Fs.Logged

open Xv6.ByteMem Xv6.Wp

/-- The file system, and the blocks that the transaction has logged. -/
structure Traced where
  disk : Disk
  logged : Finset ℕ

abbrev T := StateT Traced (Except Panic)

variable {α β : Type}

/-- A function that logs nothing. -/
def fs (m : F α) : T α := zoom Traced.disk (fun s d => { s with disk := d }) m

def log_write (b : ℕ) : T Unit := modify fun s => { s with logged := insert b s.logged }

/-- Inodes per block: `BSIZE / sizeof(struct dinode)`. -/
def IPB : ℕ := BSIZE / 64

variable (sb : Superblock)

def IBLOCK (inum : ℕ) : ℕ := inum / IPB + sb.inodestart

def BBLOCK (b : ℕ) : ℕ := b / BPB + sb.bmapstart

def bzero (b : ℕ) : T Unit := do
  fs (setBlock b fun _ => 0)
  log_write b

def balloc : T ℕ := do
  let s ← get
  match (List.range sb.size).find? fun b => !s.disk.bits b with
  | some b => do
    fs (set { s.disk with bits := Function.update s.disk.bits b true })
    log_write (BBLOCK sb b)
    bzero b
    pure b
  | none => pure 0

/-- The block that `ip->addrs[k]` names, allocated if there is none. -/
def bmapAddr (i k : ℕ) : T ℕ := do
  let s ← get
  let addr := (s.disk.inodes i).copy.addrs k
  if addr = 0 then do
    let addr ← balloc sb
    if addr = 0 then pure 0
    else do
      fs (setAddr i k addr)
      pure addr
  else pure addr

def bmap (i bn : ℕ) : T ℕ :=
  if bn < NDIRECT then bmapAddr sb i bn
  else if bn - NDIRECT < NINDIRECT then do
    let ind ← bmapAddr sb i NDIRECT
    if ind = 0 then pure 0
    else do
      let s ← get
      let addr := entry (s.disk.blocks ind) (bn - NDIRECT)
      if addr = 0 then do
        let addr ← balloc sb
        if addr = 0 then pure 0
        else do
          let s ← get
          fs (setBlock ind (setEntry (s.disk.blocks ind) (bn - NDIRECT) addr))
          log_write ind
          pure addr
      else pure addr
  else throw .bmap

/-- The loop of `writei`. A block is logged only if all of its bytes could be copied. -/
def writeiLoop (i : ℕ) (src : ℕ → Option Byte) (n : ℕ) : ℕ → ℕ → ℕ → T (ℕ × ℕ)
  | 0, _, _ => throw .diverge
  | fuel + 1, tot, off =>
    if tot < n then do
      let addr ← bmap sb i (off / BSIZE)
      if addr = 0 then pure (tot, off)
      else do
        let s ← get
        let m := min (n - tot) (BSIZE - off % BSIZE)
        let bs := mapped src tot m
        fs (setBlock addr (put (s.disk.blocks addr) (off % BSIZE) bs))
        if bs.length = m then do
          log_write addr
          writeiLoop i src n fuel (tot + m) (off + m)
        else pure (tot, off)
    else pure (tot, off)

def iupdate (i : ℕ) : T Unit := do
  let s ← get
  fs (Fs.iupdate i)
  log_write (IBLOCK sb (s.disk.inodes i).inum)

def writei (i : ℕ) (src : ℕ → Option Byte) (off n : ℕ) : T ℤ := do
  let s ← get
  if (s.disk.inodes i).copy.size < off ∨ (off + n) % 2 ^ 32 < off then pure (-1)
  else if MAXFILE * BSIZE < (off + n) % 2 ^ 32 then pure (-1)
  else do
    let (tot, off) ← writeiLoop sb i src n (n + 1) 0 off
    fs (setCopy i fun d => { d with size := max d.size off })
    iupdate sb i
    pure tot

/-! ### Without the record -/

variable {sb} {i : ℕ}

lemma forgets_fs (m : F α) : Forgets Traced.disk (fs m) m := by
  intro s
  unfold Logged.fs zoom
  cases m s.disk <;> rfl

lemma forgets_log_write {b : ℕ} {k' : T α} {k : F α} (hk : Forgets Traced.disk k' k) :
    Forgets Traced.disk (log_write b >>= fun _ => k') k :=
  Forgets.record (fun _ => rfl) hk

lemma forgets_balloc : Forgets Traced.disk (balloc sb) (Fs.balloc sb) := by
  refine Forgets.get fun s => ?_
  cases (List.range sb.size).find? fun b => !s.disk.bits b with
  | none => exact Forgets.pure 0
  | some b => exact fun _ => rfl

lemma forgets_bmapAddr (k : ℕ) : Forgets Traced.disk (bmapAddr sb i k) (Fs.bmapAddr sb i k) := by
  refine Forgets.get fun s => Forgets.ite ?_ (Forgets.pure _)
  refine Forgets.bind forgets_balloc fun b => Forgets.ite (Forgets.pure _) ?_
  exact Forgets.bind (forgets_fs _) fun _ => Forgets.pure _

lemma forgets_bmap (bn : ℕ) : Forgets Traced.disk (bmap sb i bn) (Fs.bmap sb i bn) := by
  refine Forgets.ite (forgets_bmapAddr bn) (Forgets.ite ?_ (Forgets.throw _))
  refine Forgets.bind (forgets_bmapAddr NDIRECT) fun ind => Forgets.ite (Forgets.pure _) ?_
  refine Forgets.get fun s => Forgets.ite ?_ (Forgets.pure _)
  refine Forgets.bind forgets_balloc fun b => Forgets.ite (Forgets.pure _) ?_
  refine Forgets.get fun s => Forgets.bind (forgets_fs _) fun _ => ?_
  exact forgets_log_write (Forgets.pure _)

lemma forgets_writeiLoop (src : ℕ → Option Byte) (n fuel tot off : ℕ) :
    Forgets Traced.disk (writeiLoop sb i src n fuel tot off)
      (Fs.writeiLoop sb i src n fuel tot off) := by
  induction fuel generalizing tot off with
  | zero => exact Forgets.throw _
  | succ fuel ih =>
    refine Forgets.ite ?_ (Forgets.pure _)
    refine Forgets.bind (forgets_bmap _) fun addr => Forgets.ite (Forgets.pure _) ?_
    refine Forgets.get fun s => Forgets.bind (forgets_fs _) fun _ => ?_
    exact Forgets.ite (forgets_log_write (ih _ _)) (Forgets.pure _)

/-- **The record is only a record**: without it, `writei` is that of the file system. -/
theorem forgets_writei (src : ℕ → Option Byte) (off n : ℕ) :
    Forgets Traced.disk (writei sb i src off n) (Fs.writei sb i src off n) := by
  refine Forgets.get fun s => Forgets.ite (Forgets.pure _) (Forgets.ite (Forgets.pure _) ?_)
  refine Forgets.bind (forgets_writeiLoop _ _ _ _ _) fun r => ?_
  refine Forgets.bind (forgets_fs _) fun _ => Forgets.bind ?_ fun _ => Forgets.pure _
  exact fun _ => rfl

end Xv6.Fs.Logged
