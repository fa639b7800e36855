import Xv6.FsBlocks

/-!
`mkfs`, the host program that writes the first file system image.

The image file is a sequence of sectors of `BSIZE` bytes. A `struct dinode` is the 64 bytes it
takes in an inode block, on a little-endian host, where `xshort` and `xint` do nothing; its fields
are read and written in place. What `read` delivers of an input file is a list of chunks, as long
as it likes up to `BSIZE`. Failing to open or write a file of the host is not modelled.
-/

namespace Xv6.Mkfs

open Xv6.ByteMem Xv6.Wp
open Xv6.Fs (BSIZE NDIRECT NINDIRECT MAXFILE BPB DIRSIZ ROOTDEV ROOTINO Superblock Dinode Disk
  Dirent DESIZE Ftype entry setEntry strncmp strncpy slash)

def FSSIZE : ℕ := 2000
def LOGSIZE : ℕ := 30
def NINODES : ℕ := 200
def FSMAGIC : ℕ := 0x10203040

/-- `sizeof(struct dinode)`. -/
def DISIZE : ℕ := 64

/-- Inodes per block. -/
def IPB : ℕ := BSIZE / DISIZE

def nbitmap : ℕ := FSSIZE / (BSIZE * 8) + 1
def ninodeblocks : ℕ := NINODES / IPB + 1
def nlog : ℕ := LOGSIZE
def nmeta : ℕ := 2 + nlog + ninodeblocks + nbitmap
def nblocks : ℕ := FSSIZE - nmeta

def sb : Superblock where
  size := FSSIZE
  ninodes := NINODES
  nlog := nlog
  logstart := 2
  inodestart := 2 + nlog
  bmapstart := 2 + nlog + ninodeblocks
  size_lt := by decide

/-- `IBLOCK(i, sb)`. -/
def IBLOCK (i : ℕ) : ℕ := i / IPB + sb.inodestart

/-- `BBLOCK(b, sb)`. -/
def BBLOCK (b : ℕ) : ℕ := b / BPB + sb.bmapstart

/-- The image file, its length in sectors, and the two allocation marks. -/
structure St where
  sect : ℕ → Mem
  nsect : ℕ
  freeinode : ℕ
  freeblock : ℕ

inductive Fail where
  | read               -- die("read")
  | rootino            -- assert(rootino == ROOTINO)
  | shortname          -- assert(index(shortname, '/') == 0)
  | fbn                -- assert(fbn < MAXFILE)
  | used               -- assert(used < BSIZE*8)
  | diverge
deriving DecidableEq, Repr

abbrev M := StateT St (Except Fail)

/-- An input file: its name in `argv` and what the calls of `read` return. -/
structure File where
  path : List Byte
  chunks : List (List Byte)
  chunk : ∀ c ∈ chunks, c ≠ [] ∧ c.length ≤ BSIZE

def File.content (f : File) : List Byte := f.chunks.flatten

/-! ### Sectors and inodes -/

def wsect (sec : ℕ) (buf : Mem) : M Unit :=
  modify fun s =>
    { s with sect := Function.update s.sect sec buf, nsect := max s.nsect (sec + 1) }

def rsect (sec : ℕ) : M Mem := do
  let s ← get
  if sec < s.nsect then pure (s.sect sec) else throw .read

def winode (inum : ℕ) (din : Mem) : M Unit := do
  let buf ← rsect (IBLOCK inum)
  wsect (IBLOCK inum) (put buf (inum % IPB * DISIZE) (bytes din 0 DISIZE))

def rinode (inum : ℕ) : M Mem := do
  let buf ← rsect (IBLOCK inum)
  pure fun o => buf (inum % IPB * DISIZE + o)

/-- A number in two bytes, least significant first. -/
def le16 (v : ℕ) : List Byte := [BitVec.ofNat 8 v, BitVec.ofNat 8 (v / 256)]

def le32 (v : ℕ) : List Byte := le16 v ++ le16 (v / 65536)

/-- `din.size`, at offset 8. -/
def dsize (din : Mem) : ℕ := entry din 2

def setDsize (din : Mem) (n : ℕ) : Mem := setEntry din 2 n

/-- `din.addrs[k]`, from offset 12 on. -/
def daddr (din : Mem) (k : ℕ) : ℕ := entry din (3 + k)

def setDaddr (din : Mem) (k b : ℕ) : Mem := setEntry din (3 + k) b

/-- The codes of `stat.h`. -/
def T_DIR : ℕ := 1
def T_FILE : ℕ := 2

/-- A zeroed inode with a type at offset 0 and one link at offset 6. -/
def newDinode (type : ℕ) : Mem :=
  setDsize (put (put (fun _ => 0) 0 (le16 type)) 6 (le16 1)) 0

def ialloc (type : ℕ) : M ℕ := do
  let s ← get
  set { s with freeinode := s.freeinode + 1 }
  winode s.freeinode (newDinode type)
  pure s.freeinode

/-- `freeblock++`. -/
def takeBlock : M ℕ := do
  let s ← get
  set { s with freeblock := s.freeblock + 1 }
  pure s.freeblock

/-- The loop of `balloc` over the blocks in use, on a zeroed buffer. -/
def bitmap (used : ℕ) : Mem :=
  (List.range used).foldl
    (fun buf i => Function.update buf (i / 8) (buf (i / 8) ||| (1#8 <<< (i % 8)))) fun _ => 0

def balloc (used : ℕ) : M Unit :=
  if used < BSIZE * 8 then wsect sb.bmapstart (bitmap used) else throw .used

/-! ### iappend -/

/-- `din.addrs[k]` gets a block if it has none. -/
def iappendAddr (din : Mem) (k : ℕ) : M Mem :=
  if daddr din k = 0 then do
    let b ← takeBlock
    pure (setDaddr din k b)
  else pure din

/-- The block for block number `fbn` of the file, and the inode with it. -/
def iappendBlock (din : Mem) (fbn : ℕ) : M (Mem × ℕ) :=
  if fbn < NDIRECT then do
    let din ← iappendAddr din fbn
    pure (din, daddr din fbn)
  else do
    let din ← iappendAddr din NDIRECT
    let ind ← rsect (daddr din NDIRECT)
    if entry ind (fbn - NDIRECT) = 0 then do
      let b ← takeBlock
      let ind := setEntry ind (fbn - NDIRECT) b
      wsect (daddr din NDIRECT) ind
      pure (din, entry ind (fbn - NDIRECT))
    else pure (din, entry ind (fbn - NDIRECT))

/-- The loop of `iappend`, with fuel for every iteration. -/
def iappendLoop : ℕ → Mem → ℕ → List Byte → M (Mem × ℕ)
  | 0, _, _, _ => throw .diverge
  | fuel + 1, din, off, p =>
    if p = [] then pure (din, off)
    else
      let fbn := off / BSIZE
      if fbn < MAXFILE then do
        let r ← iappendBlock din fbn
        let n1 := min p.length ((fbn + 1) * BSIZE - off)
        let buf ← rsect r.2
        wsect r.2 (put buf (off - fbn * BSIZE) (p.take n1))
        iappendLoop fuel r.1 (off + n1) (p.drop n1)
      else throw .fbn

def iappend (inum : ℕ) (p : List Byte) : M Unit := do
  let din ← rinode inum
  let r ← iappendLoop (p.length + 1) din (dsize din) p
  winode inum (setDsize r.1 r.2)

/-! ### main -/

/-- `user/`. -/
def userSlash : List Byte := [117, 115, 101, 114, 47]

/-- The name without the directory of the user programs. -/
def basename (path : List Byte) : List Byte :=
  if strncmp 5 path userSlash = 0 then path.drop 5 else path

/-- The binaries are named `_rm`, `_cat` and so on. -/
def shortname (path : List Byte) : List Byte :=
  let name := basename path
  if name.head? = some 95 then name.tail else name

def dot : List Byte := [46]
def dotdot : List Byte := [46, 46]

/-- A directory entry with the name, as `strncpy` leaves it in a zeroed entry. -/
def dirent (inum : ℕ) (name : List Byte) : List Byte :=
  (Dirent.mk (inum % 2 ^ 16) (strncpy DIRSIZ name)).toBytes

def appendAll (inum : ℕ) : List (List Byte) → M Unit
  | [] => pure ()
  | c :: cs => do
    iappend inum c
    appendAll inum cs

def addFile (rootino : ℕ) (f : File) : M Unit :=
  if slash ∈ basename f.path then throw .shortname
  else do
    let inum ← ialloc T_FILE
    iappend rootino (dirent inum (shortname f.path))
    appendAll inum f.chunks

def addFiles (rootino : ℕ) : List File → M Unit
  | [] => pure ()
  | f :: fs => do
    addFile rootino f
    addFiles rootino fs

/-- The super block as its fields lie in the sector. -/
def sbBytes : List Byte :=
  le32 FSMAGIC ++ le32 sb.size ++ le32 nblocks ++ le32 sb.ninodes ++ le32 sb.nlog ++
    le32 sb.logstart ++ le32 sb.inodestart ++ le32 sb.bmapstart

def zeroAll : List ℕ → M Unit
  | [] => pure ()
  | i :: is => do
    wsect i fun _ => 0
    zeroAll is

/-- The size of the root directory is made a multiple of the block size. -/
def fixRoot (rootino : ℕ) : M Unit := do
  let din ← rinode rootino
  winode rootino (setDsize din ((dsize din / BSIZE + 1) * BSIZE))

def main (files : List File) : M Unit := do
  zeroAll (List.range FSSIZE)
  wsect 1 (put (fun _ => 0) 0 sbBytes)
  let rootino ← ialloc T_DIR
  if rootino = ROOTINO then do
    iappend rootino (dirent rootino dot)
    iappend rootino (dirent rootino dotdot)
    addFiles rootino files
    fixRoot rootino
    let s ← get
    balloc s.freeblock
  else throw .rootino

/-- The image file before `main` writes to it. -/
def start : St := ⟨fun _ _ => 0, 0, 1, nmeta⟩

/-- The sectors that a run leaves. -/
def image (p : M Unit) : Except Fail (ℕ → Mem) :=
  match p start with
  | .ok (_, s) => .ok s.sect
  | .error e => .error e

/-- The image that `mkfs` leaves. -/
def mkfs (files : List File) : Except Fail (ℕ → Mem) := image (main files)

/-! ### What the kernel sees -/

/-- `dip->type` as a number. -/
def ftype : ℕ → Ftype
  | 0 => .free
  | 1 => .dir
  | 2 => .file
  | _ => .device

/-- The `short` at an offset. -/
def shortAt (w : Mem) (o : ℕ) : ℤ := Fs.short ((w o).toNat + 256 * (w (o + 1)).toNat : ℕ)

/-- The 64 bytes of a `struct dinode`, as the kernel reads them. -/
def dinode (w : Mem) : Dinode where
  type := ftype ((w 0).toNat + 256 * (w 1).toNat)
  major := shortAt w 2
  minor := shortAt w 4
  nlink := shortAt w 6
  size := dsize w
  addrs := fun k => if k ≤ NDIRECT then daddr w k else 0

/-- The bytes of inode `x` in the image. -/
def window (sect : ℕ → Mem) (x : ℕ) : Mem := fun o => sect (IBLOCK x) (x % IPB * DISIZE + o)

/-- The inodes of the image. -/
def dinodes (sect : ℕ → Mem) (x : ℕ) : Dinode :=
  if x < sb.ninodes then dinode (window sect x) else Dinode.zero

/-- The bit of the free map for block `b`. -/
def bit (sect : ℕ → Mem) (b : ℕ) : Bool := (sect (BBLOCK b) (b % BPB / 8)).getLsbD (b % 8)

/-- The disk of a kernel that boots from the image, with an empty inode table. -/
def mount (sect : ℕ → Mem) : Disk where
  bits := bit sect
  dinodes := dinodes sect
  blocks := sect
  inodes := fun _ => ⟨0, 0, 0, false, Dinode.zero⟩

/-- The kernel reads inode `x` from its first to its last byte. -/
def readFile (x : ℕ) : Fs.F (ℤ × List Byte) := do
  let i ← Fs.iget ROOTDEV x
  Fs.ilock i
  let s ← get
  Fs.readi sb i Fs.kernelDst 0 (s.inodes i).copy.size

end Xv6.Mkfs
