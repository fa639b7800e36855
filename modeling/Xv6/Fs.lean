import Xv6.ByteMem
import Xv6.Wp
import Mathlib.Data.Int.Order.Basic
import Mathlib.Logic.Function.Basic

/-!
The file system of `fs.c`: block allocation, inodes, file contents, directories and paths.

A call runs to its end before the next begins, and a block is read as it was last logged. The inode
blocks are the array of `struct dinode` they hold and the free map is an array of bits; the data
blocks are bytes. A `struct inode *` is an index into `itable.inode`, a null pointer is `none`. A
loop without a constant bound carries fuel for every iteration its guard admits; running out of it
is the panic `diverge`.
-/

namespace Xv6.Fs

open Xv6.ByteMem Xv6.Wp

def BSIZE : ℕ := 1024
def NDIRECT : ℕ := 12
def NINDIRECT : ℕ := 256
def MAXFILE : ℕ := NDIRECT + NINDIRECT
def BPB : ℕ := BSIZE * 8
def DIRSIZ : ℕ := 14
def NINODE : ℕ := 50
def NDEV : ℕ := 10
def ROOTDEV : ℕ := 1
def ROOTINO : ℕ := 1

/-- `dip->type`: 0, `T_DIR`, `T_FILE` or `T_DEVICE`. -/
inductive Ftype where
  | free
  | dir
  | file
  | device
deriving DecidableEq, Repr

/-- A value stored in a `short`. -/
def short (n : ℤ) : ℤ := n.bmod (2 ^ 16)

/-- The fields of `struct superblock` that the kernel uses, each a `uint`. -/
structure Superblock where
  size : ℕ
  ninodes : ℕ
  nlog : ℕ
  logstart : ℕ
  inodestart : ℕ
  bmapstart : ℕ
  size_lt : size < 2 ^ 32

/-- Boot block, super block, log, inodes and free map come before the data blocks. -/
def Superblock.nmeta (sb : Superblock) : ℕ := sb.bmapstart + sb.size / BPB + 1

structure Dinode where
  type : Ftype
  major : ℤ
  minor : ℤ
  nlink : ℤ
  size : ℕ
  addrs : ℕ → ℕ

def Dinode.zero : Dinode := ⟨.free, 0, 0, 0, 0, fun _ => 0⟩

/-- `copy` are the fields of `struct inode` that are a copy of the disk inode. -/
structure Inode where
  dev : ℕ
  inum : ℕ
  ref : ℕ
  valid : Bool
  copy : Dinode

inductive Panic where
  | bfree              -- "freeing free block"
  | iget               -- "iget: no inodes"
  | ilock              -- "ilock"
  | ilock_no_type      -- "ilock: no type"
  | iunlock            -- "iunlock"
  | bmap               -- "bmap: out of range"
  | dirlookup_not_dir  -- "dirlookup not DIR"
  | dirlookup_read     -- "dirlookup read"
  | dirlink_read       -- "dirlink read"
  | isdirempty         -- "isdirempty: readi"
  | unlink_nlink       -- "unlink: nlink < 1"
  | unlink_writei      -- "unlink: writei"
  | filedup            -- "filedup"
  | fileclose          -- "fileclose"
  | init_exiting       -- "init exiting"
  | increment          -- "Increment problem"
  | kfree              -- "Error"
  | diverge
deriving DecidableEq, Repr

/-- The disk, as the logged blocks leave it, and `itable`. -/
structure Disk where
  bits : ℕ → Bool
  dinodes : ℕ → Dinode
  blocks : ℕ → Mem
  inodes : ℕ → Inode

abbrev F := StateT Disk (Except Panic)

variable (sb : Superblock)

/-! ### Blocks -/

def setBlock (b : ℕ) (m : Mem) : F Unit :=
  modify fun s => { s with blocks := Function.update s.blocks b m }

/-- The first free block of the map, zeroed; 0 if there is none. -/
def balloc : F ℕ := do
  let s ← get
  match (List.range sb.size).find? fun b => !s.bits b with
  | some b => do
    set { s with bits := Function.update s.bits b true }
    setBlock b fun _ => 0
    pure b
  | none => pure 0

def bfree (b : ℕ) : F Unit := do
  let s ← get
  if s.bits b = false then throw .bfree
  else set { s with bits := Function.update s.bits b false }

/-- Entry `j` of an indirect block, a little-endian 32-bit number. -/
def entry (m : Mem) (j : ℕ) : ℕ :=
  (m (4 * j)).toNat + 256 * (m (4 * j + 1)).toNat + 65536 * (m (4 * j + 2)).toNat +
    16777216 * (m (4 * j + 3)).toNat

def setEntry (m : Mem) (j v : ℕ) : Mem :=
  put m (4 * j) [BitVec.ofNat 8 v, BitVec.ofNat 8 (v / 256), BitVec.ofNat 8 (v / 65536),
    BitVec.ofNat 8 (v / 16777216)]

/-! ### The inode table -/

def setInode (i : ℕ) (f : Inode → Inode) : F Unit :=
  modify fun s => { s with inodes := Function.update s.inodes i (f (s.inodes i)) }

def setCopy (i : ℕ) (f : Dinode → Dinode) : F Unit :=
  setInode i fun ip => { ip with copy := f ip.copy }

def setAddr (i k b : ℕ) : F Unit :=
  setCopy i fun d => { d with addrs := Function.update d.addrs k b }

def iupdate (i : ℕ) : F Unit :=
  modify fun s =>
    { s with dinodes := Function.update s.dinodes (s.inodes i).inum (s.inodes i).copy }

def iget (dev inum : ℕ) : F ℕ := do
  let s ← get
  match (List.range NINODE).find? fun i =>
      decide (0 < (s.inodes i).ref ∧ (s.inodes i).dev = dev ∧ (s.inodes i).inum = inum) with
  | some i => do
    setInode i fun ip => { ip with ref := ip.ref + 1 }
    pure i
  | none =>
    match (List.range NINODE).find? fun i => decide ((s.inodes i).ref = 0) with
    | some i => do
      setInode i fun ip => { ip with dev := dev, inum := inum, ref := 1, valid := false }
      pure i
    | none => throw .iget

def ialloc (dev : ℕ) (type : Ftype) : F (Option ℕ) := do
  let s ← get
  match (List.range sb.ninodes).find? fun inum =>
      decide (inum ≠ 0 ∧ (s.dinodes inum).type = .free) with
  | some inum => do
    set { s with
      dinodes := Function.update s.dinodes inum { Dinode.zero with type := type } }
    let i ← iget dev inum
    pure (some i)
  | none => pure none

def idup (i : ℕ) : F ℕ := do
  setInode i fun ip => { ip with ref := ip.ref + 1 }
  pure i

def ilock (i : ℕ) : F Unit := do
  let s ← get
  if (s.inodes i).ref < 1 then throw .ilock
  else if (s.inodes i).valid then pure ()
  else do
    setInode i fun ip => { ip with copy := s.dinodes ip.inum, valid := true }
    if (s.dinodes (s.inodes i).inum).type = .free then throw .ilock_no_type else pure ()

def iunlock (i : ℕ) : F Unit := do
  let s ← get
  if (s.inodes i).ref < 1 then throw .iunlock else pure ()

/-! ### Inode content -/

/-- The first part of `itrunc`: the direct blocks of the list are freed. -/
def truncDirect (i : ℕ) : List ℕ → F Unit
  | [] => pure ()
  | k :: ks => do
    let s ← get
    if (s.inodes i).copy.addrs k ≠ 0 then do
      bfree ((s.inodes i).copy.addrs k)
      setAddr i k 0
      truncDirect i ks
    else truncDirect i ks

/-- The blocks that the entries of an indirect block name are freed. -/
def truncIndirect (m : Mem) : List ℕ → F Unit
  | [] => pure ()
  | j :: js => do
    if entry m j ≠ 0 then do
      bfree (entry m j)
      truncIndirect m js
    else truncIndirect m js

def itrunc (i : ℕ) : F Unit := do
  truncDirect i (List.range NDIRECT)
  let s ← get
  let b := (s.inodes i).copy.addrs NDIRECT
  if b ≠ 0 then do
    truncIndirect (s.blocks b) (List.range NINDIRECT)
    bfree b
    setAddr i NDIRECT 0
  else pure ()
  setCopy i fun d => { d with size := 0 }
  iupdate i

def iput (i : ℕ) : F Unit := do
  let s ← get
  if (s.inodes i).ref = 1 ∧ (s.inodes i).valid = true ∧ (s.inodes i).copy.nlink = 0 then do
    itrunc i
    setCopy i fun d => { d with type := .free }
    iupdate i
    setInode i fun ip => { ip with valid := false }
  else pure ()
  setInode i fun ip => { ip with ref := ip.ref - 1 }

def iunlockput (i : ℕ) : F Unit := do
  iunlock i
  iput i

/-- The block that `ip->addrs[k]` names, allocated if there is none. -/
def bmapAddr (i k : ℕ) : F ℕ := do
  let s ← get
  let addr := (s.inodes i).copy.addrs k
  if addr = 0 then do
    let addr ← balloc sb
    if addr = 0 then pure 0
    else do
      setAddr i k addr
      pure addr
  else pure addr

def bmap (i bn : ℕ) : F ℕ :=
  if bn < NDIRECT then bmapAddr sb i bn
  else if bn - NDIRECT < NINDIRECT then do
    let ind ← bmapAddr sb i NDIRECT
    if ind = 0 then pure 0
    else do
      let s ← get
      let addr := entry (s.blocks ind) (bn - NDIRECT)
      if addr = 0 then do
        let addr ← balloc sb
        if addr = 0 then pure 0
        else do
          let s ← get
          setBlock ind (setEntry (s.blocks ind) (bn - NDIRECT) addr)
          pure addr
      else pure addr
  else throw .bmap

/-- The loop of `readi`; `ok` tells whether `either_copyout` can store the next bytes. -/
def readiLoop (i : ℕ) (ok : ℕ → ℕ → Bool) (n : ℕ) : ℕ → ℕ → ℕ → List Byte → F (ℤ × List Byte)
  | 0, _, _, _ => throw .diverge
  | fuel + 1, tot, off, acc =>
    if tot < n then do
      let addr ← bmap sb i (off / BSIZE)
      if addr = 0 then pure (tot, acc)
      else do
        let s ← get
        let m := min (n - tot) (BSIZE - off % BSIZE)
        if ok tot m then
          readiLoop i ok n fuel (tot + m) (off + m) (acc ++ bytes (s.blocks addr) (off % BSIZE) m)
        else pure (-1, acc)
    else pure (tot, acc)

def readi (i : ℕ) (ok : ℕ → ℕ → Bool) (off n : ℕ) : F (ℤ × List Byte) := do
  let s ← get
  let size := (s.inodes i).copy.size
  if size < off ∨ (off + n) % 2 ^ 32 < off then pure (0, [])
  else
    let n := if size < (off + n) % 2 ^ 32 then size - off else n
    readiLoop sb i ok n (n + 1) 0 off []

/-- The bytes of the source from `tot` on up to the first that is not mapped, at most `m`. -/
def mapped (src : ℕ → Option Byte) (tot m : ℕ) : List Byte :=
  ((List.range m).takeWhile fun k => (src (tot + k)).isSome).map fun k => (src (tot + k)).getD 0

/-- The loop of `writei`. What `either_copyin` can copy is in the buffer even if it fails. -/
def writeiLoop (i : ℕ) (src : ℕ → Option Byte) (n : ℕ) : ℕ → ℕ → ℕ → F (ℕ × ℕ)
  | 0, _, _ => throw .diverge
  | fuel + 1, tot, off =>
    if tot < n then do
      let addr ← bmap sb i (off / BSIZE)
      if addr = 0 then pure (tot, off)
      else do
        let s ← get
        let m := min (n - tot) (BSIZE - off % BSIZE)
        let bs := mapped src tot m
        setBlock addr (put (s.blocks addr) (off % BSIZE) bs)
        if bs.length = m then writeiLoop i src n fuel (tot + m) (off + m)
        else pure (tot, off)
    else pure (tot, off)

def writei (i : ℕ) (src : ℕ → Option Byte) (off n : ℕ) : F ℤ := do
  let s ← get
  if (s.inodes i).copy.size < off ∨ (off + n) % 2 ^ 32 < off then pure (-1)
  else if MAXFILE * BSIZE < (off + n) % 2 ^ 32 then pure (-1)
  else do
    let (tot, off) ← writeiLoop sb i src n (n + 1) 0 off
    setCopy i fun d => { d with size := max d.size off }
    iupdate i
    pure tot

/-- A source or destination in the kernel. -/
def kernelSrc (bs : List Byte) : ℕ → Option Byte := fun k => some (bs.getD k 0)

def kernelDst : ℕ → ℕ → Bool := fun _ _ => true

/-! ### Directories -/

def strncmp : ℕ → List Byte → List Byte → ℤ
  | 0, _, _ => 0
  | n + 1, p, q =>
    if p.headD 0 ≠ 0 ∧ p.headD 0 = q.headD 0 then strncmp n p.tail q.tail
    else (p.headD 0).toNat - (q.headD 0).toNat

def strncpy : ℕ → List Byte → List Byte
  | 0, _ => []
  | n + 1, t => if t.headD 0 = 0 then List.replicate (n + 1) 0 else t.headD 0 :: strncpy n t.tail

def namecmp (s t : List Byte) : ℤ := strncmp DIRSIZ s t

structure Dirent where
  inum : ℕ
  name : List Byte
deriving DecidableEq

/-- `sizeof(struct dirent)`. -/
def DESIZE : ℕ := 2 + DIRSIZ

def Dirent.ofBytes (bs : List Byte) : Dirent :=
  ⟨(bs.getD 0 0).toNat + 256 * (bs.getD 1 0).toNat, bs.drop 2⟩

def Dirent.toBytes (de : Dirent) : List Byte :=
  BitVec.ofNat 8 de.inum :: BitVec.ofNat 8 (de.inum / 256) :: de.name

/-- The loop of `dirlookup` from `off` on. -/
def dirlookupLoop (dp : ℕ) (name : List Byte) : ℕ → ℕ → F (Option (ℕ × ℕ))
  | 0, _ => throw .diverge
  | fuel + 1, off => do
    let s ← get
    if off < (s.inodes dp).copy.size then do
      let (r, bs) ← readi sb dp kernelDst off DESIZE
      if r ≠ DESIZE then throw .dirlookup_read
      else
        let de := Dirent.ofBytes bs
        if de.inum = 0 then dirlookupLoop dp name fuel (off + DESIZE)
        else if namecmp name de.name = 0 then do
          let i ← iget (s.inodes dp).dev de.inum
          pure (some (i, off))
        else dirlookupLoop dp name fuel (off + DESIZE)
    else pure none

/-- The inode the directory has under the name, and the offset of the entry. -/
def dirlookup (dp : ℕ) (name : List Byte) : F (Option (ℕ × ℕ)) := do
  let s ← get
  if (s.inodes dp).copy.type ≠ .dir then throw .dirlookup_not_dir
  else dirlookupLoop sb dp name ((s.inodes dp).copy.size / DESIZE + 2) 0

/-- The loop of `dirlink` that looks for an empty entry. -/
def dirlinkLoop (dp : ℕ) : ℕ → ℕ → F ℕ
  | 0, _ => throw .diverge
  | fuel + 1, off => do
    let s ← get
    if off < (s.inodes dp).copy.size then do
      let (r, bs) ← readi sb dp kernelDst off DESIZE
      if r ≠ DESIZE then throw .dirlink_read
      else if (Dirent.ofBytes bs).inum = 0 then pure off
      else dirlinkLoop dp fuel (off + DESIZE)
    else pure off

def dirlink (dp : ℕ) (name : List Byte) (inum : ℕ) : F ℤ := do
  match ← dirlookup sb dp name with
  | some (i, _) => do
    iput i
    pure (-1)
  | none => do
    let s ← get
    let off ← dirlinkLoop sb dp ((s.inodes dp).copy.size / DESIZE + 2) 0
    let de : Dirent := ⟨inum % 2 ^ 16, strncpy DIRSIZ name⟩
    let r ← writei sb dp (kernelSrc de.toBytes) off DESIZE
    if r ≠ DESIZE then pure (-1) else pure 0

/-! ### Paths -/

def slash : Byte := 47

/-- The next path element and what follows it, without leading slashes. -/
def skipelem (path : List Byte) : Option (List Byte × List Byte) :=
  let path := path.dropWhile (· = slash)
  if path = [] then none
  else
    some ((path.takeWhile (· ≠ slash)).take DIRSIZ,
      (path.dropWhile (· ≠ slash)).dropWhile (· = slash))

/-- The loop of `namex`, at inode `ip`. -/
def namexLoop (nameiparent : Bool) : ℕ → ℕ → List Byte → F (Option (ℕ × List Byte))
  | 0, _, _ => throw .diverge
  | fuel + 1, ip, path =>
    match skipelem path with
    | none =>
      if nameiparent then do
        iput ip
        pure none
      else pure (some (ip, []))
    | some (name, path) => do
      ilock ip
      let s ← get
      if (s.inodes ip).copy.type ≠ .dir then do
        iunlockput ip
        pure none
      else if nameiparent ∧ path = [] then do
        iunlock ip
        pure (some (ip, name))
      else do
        match ← dirlookup sb ip name with
        | none => do
          iunlockput ip
          pure none
        | some (next, _) => do
          iunlockput ip
          namexLoop nameiparent fuel next path

/-- `cwd` is the current directory of the calling process. -/
def namex (cwd : ℕ) (path : List Byte) (nameiparent : Bool) : F (Option (ℕ × List Byte)) := do
  let ip ← if path.head? = some slash then iget ROOTDEV ROOTINO else idup cwd
  namexLoop sb nameiparent (path.length + 1) ip path

def namei (cwd : ℕ) (path : List Byte) : F (Option ℕ) := do
  match ← namex sb cwd path false with
  | some (ip, _) => pure (some ip)
  | none => pure none

def nameiparent (cwd : ℕ) (path : List Byte) : F (Option (ℕ × List Byte)) :=
  namex sb cwd path true

end Xv6.Fs
