import Xv6.Fs

/-!
The system calls of `sysfile.c` on files and directories, with `file.c`, the parts of `pipe.c` and
`proc.c` that hold references to files and inodes, and the system as a whole: processes that make
these calls one after the other.

A path is what `argstr` fetches, `none` if it fails. Reading and writing a pipe or a device is left
out: it touches neither a reference nor the disk. The free pages are a list; the rest of the kernel
takes, shares and gives back pages of its own.
-/

namespace Xv6.Fs

open Xv6.ByteMem Xv6.Wp

def NOFILE : ℕ := 16
def NFILE : ℕ := 100
def NPROC : ℕ := 64
def MAXPATH : ℕ := 128

/-- A C string that fits into `MAXPATH` bytes. -/
structure Path where
  bytes : List Byte
  noNul : (0 : Byte) ∉ bytes
  fits : bytes.length < MAXPATH

variable (sb : Superblock)

/-! ### Calls that change directories -/

def dot : List Byte := [46]
def dotdot : List Byte := [46, 46]

def isdiremptyLoop (dp : ℕ) : ℕ → ℕ → F Bool
  | 0, _ => throw .diverge
  | fuel + 1, off => do
    let s ← get
    if off < (s.inodes dp).copy.size then do
      let (r, bs) ← readi sb dp kernelDst off DESIZE
      if r ≠ DESIZE then throw .isdirempty
      else if (Dirent.ofBytes bs).inum ≠ 0 then pure false
      else isdiremptyLoop dp fuel (off + DESIZE)
    else pure true

def isdirempty (dp : ℕ) : F Bool := do
  let s ← get
  isdiremptyLoop sb dp ((s.inodes dp).copy.size / DESIZE + 2) (2 * DESIZE)

/-- The label `bad` of `sys_link`. -/
def linkBad (ip : ℕ) : F ℤ := do
  ilock ip
  setCopy ip fun d => { d with nlink := short (d.nlink - 1) }
  iupdate ip
  iunlockput ip
  pure (-1)

def link (cwd : ℕ) (old new : List Byte) : F ℤ := do
  match ← namei sb cwd old with
  | none => pure (-1)
  | some ip => do
    ilock ip
    let s ← get
    if (s.inodes ip).copy.type = .dir then do
      iunlockput ip
      pure (-1)
    else do
      setCopy ip fun d => { d with nlink := short (d.nlink + 1) }
      iupdate ip
      iunlock ip
      match ← nameiparent sb cwd new with
      | none => linkBad ip
      | some (dp, name) => do
        ilock dp
        let s ← get
        if (s.inodes dp).dev ≠ (s.inodes ip).dev then do
          iunlockput dp
          linkBad ip
        else do
          let r ← dirlink sb dp name (s.inodes ip).inum
          if r < 0 then do
            iunlockput dp
            linkBad ip
          else do
            iunlockput dp
            iput ip
            pure 0

/-- A directory counts the `..` of its children: its count goes up or down with one of them. -/
def parentLink (dp : ℕ) (type : Ftype) (δ : ℤ) : F Unit :=
  if type = .dir then do
    setCopy dp fun d => { d with nlink := short (d.nlink + δ) }
    iupdate dp
  else pure ()

/-- `sys_unlink` does not remove a directory that has entries. -/
def removable (ip : ℕ) (type : Ftype) : F Bool :=
  if type = .dir then isdirempty sb ip else pure true

/-- `sys_unlink` once the entry at `off` has been found to name `ip`. -/
def unlinkEntry (dp ip off : ℕ) : F ℤ := do
  ilock ip
  let s ← get
  if (s.inodes ip).copy.nlink < 1 then throw .unlink_nlink
  else do
    let empty ← removable sb ip (s.inodes ip).copy.type
    if empty = false then do
      iunlockput ip
      iunlockput dp
      pure (-1)
    else do
      let r ← writei sb dp (kernelSrc (List.replicate DESIZE 0)) off DESIZE
      if r ≠ DESIZE then throw .unlink_writei
      else do
        parentLink dp (s.inodes ip).copy.type (-1)
        iunlockput dp
        setCopy ip fun d => { d with nlink := short (d.nlink - 1) }
        iupdate ip
        iunlockput ip
        pure 0

def unlink (cwd : ℕ) (path : List Byte) : F ℤ := do
  match ← nameiparent sb cwd path with
  | none => pure (-1)
  | some (dp, name) => do
    ilock dp
    if namecmp name dot = 0 ∨ namecmp name dotdot = 0 then do
      iunlockput dp
      pure (-1)
    else do
      match ← dirlookup sb dp name with
      | none => do
        iunlockput dp
        pure (-1)
      | some (ip, off) => unlinkEntry sb dp ip off

/-- The label `fail` of `create`. -/
def createFail (dp ip : ℕ) : F (Option ℕ) := do
  setCopy ip fun d => { d with nlink := 0 }
  iupdate ip
  iunlockput ip
  iunlockput dp
  pure none

/-- The entries `.` and `..` of a new directory. -/
def createDots (dp ip : ℕ) (type : Ftype) : F Bool :=
  if type = .dir then do
    let s ← get
    let r ← dirlink sb ip dot (s.inodes ip).inum
    if r < 0 then pure false
    else do
      let s ← get
      let r ← dirlink sb ip dotdot (s.inodes dp).inum
      if r < 0 then pure false else pure true
  else pure true

/-- `create` once the name is known to be new. -/
def createNew (dp : ℕ) (name : List Byte) (type : Ftype) (major minor : ℤ) : F (Option ℕ) := do
  let s ← get
  match ← ialloc sb (s.inodes dp).dev type with
  | none => do
    iunlockput dp
    pure none
  | some ip => do
    ilock ip
    setCopy ip fun d => { d with major := short major, minor := short minor, nlink := 1 }
    iupdate ip
    let ok ← createDots sb dp ip type
    if ok = false then createFail dp ip
    else do
      let s ← get
      let r ← dirlink sb dp name (s.inodes ip).inum
      if r < 0 then createFail dp ip
      else do
        parentLink dp type 1
        iunlockput dp
        pure (some ip)

def create (cwd : ℕ) (path : List Byte) (type : Ftype) (major minor : ℤ) : F (Option ℕ) := do
  match ← nameiparent sb cwd path with
  | none => pure none
  | some (dp, name) => do
    ilock dp
    match ← dirlookup sb dp name with
    | some (ip, _) => do
      iunlockput dp
      ilock ip
      let s ← get
      if type = .file ∧ ((s.inodes ip).copy.type = .file ∨ (s.inodes ip).copy.type = .device) then
        pure (some ip)
      else do
        iunlockput ip
        pure none
    | none => createNew sb dp name type major minor

/-! ### Files, pipes and processes -/

inductive FdType where
  | none
  | pipe
  | inode
  | device
deriving DecidableEq

structure File where
  type : FdType
  ref : ℕ
  readable : Bool
  writable : Bool
  pipe : ℕ
  ip : ℕ
  off : ℕ
  major : ℤ

/-- The ends of a pipe that are open; its data are left out. -/
structure PipeEnds where
  readopen : Bool
  writeopen : Bool

inductive PState where
  | unused
  | alive
  | zombie
deriving DecidableEq

structure Proc where
  state : PState
  ofile : ℕ → Option ℕ
  cwd : Option ℕ

/-- `kmem.freelist` is `freelist`; `taken` are the references the rest of the kernel has to pages. -/
structure Sys where
  disk : Disk
  files : ℕ → File
  procs : ℕ → Proc
  pipes : ℕ → PipeEnds
  freelist : List ℕ
  temp : ℕ → ℤ
  taken : List ℕ

abbrev G := StateT Sys (Except Panic)

/-- A function of `fs.c`. -/
def fs {α : Type} (m : F α) : G α := zoom Sys.disk (fun s d => { s with disk := d }) m

def setFile (f : ℕ) (g : File → File) : G Unit :=
  modify fun s => { s with files := Function.update s.files f (g (s.files f)) }

def setProc (p : ℕ) (g : Proc → Proc) : G Unit :=
  modify fun s => { s with procs := Function.update s.procs p (g (s.procs p)) }

def setOfile (p fd : ℕ) (f : Option ℕ) : G Unit :=
  setProc p fun pr => { pr with ofile := Function.update pr.ofile fd f }

def filealloc : G (Option ℕ) := do
  let s ← get
  match (List.range NFILE).find? fun f => decide ((s.files f).ref = 0) with
  | some f => do
    setFile f fun x => { x with ref := 1 }
    pure (some f)
  | none => pure none

def filedup (f : ℕ) : G ℕ := do
  let s ← get
  if (s.files f).ref < 1 then throw .filedup
  else do
    setFile f fun x => { x with ref := x.ref + 1 }
    pure f

def check_and_increment (pa : ℕ) : G Unit := do
  let s ← get
  if s.temp pa < 0 then throw .increment
  else set { s with temp := Function.update s.temp pa (s.temp pa + 1) }

def kalloc : G (Option ℕ) := do
  let s ← get
  match s.freelist with
  | [] => pure none
  | pa :: rest => do
    set { s with freelist := rest }
    check_and_increment pa
    pure (some pa)

def kfree (pa : ℕ) : G Unit := do
  let s ← get
  let flag := s.temp pa
  if 0 < flag then do
    set { s with temp := Function.update s.temp pa (flag - 1) }
    if 1 < flag then pure () else modify fun s => { s with freelist := pa :: s.freelist }
  else throw .kfree

def pipeclose (pi : ℕ) (writable : Bool) : G Unit := do
  modify fun s => { s with
    pipes := Function.update s.pipes pi
      (if writable then { s.pipes pi with writeopen := false }
        else { s.pipes pi with readopen := false }) }
  let s ← get
  if (s.pipes pi).readopen = false ∧ (s.pipes pi).writeopen = false then kfree pi else pure ()

def fileclose (f : ℕ) : G Unit := do
  let s ← get
  if (s.files f).ref < 1 then throw .fileclose
  else if 0 < (s.files f).ref - 1 then setFile f fun x => { x with ref := x.ref - 1 }
  else do
    let ff := s.files f
    setFile f fun x => { x with ref := 0, type := .none }
    if ff.type = .pipe then pipeclose ff.pipe ff.writable
    else if ff.type = .inode ∨ ff.type = .device then fs (iput ff.ip)
    else pure ()

/-- The label `bad` of `pipealloc`, where no page has been taken. -/
def pipeallocBad (f0 f1 : Option ℕ) : G (Option (ℕ × ℕ)) := do
  match f0 with
  | some f => fileclose f
  | none => pure ()
  match f1 with
  | some f => fileclose f
  | none => pure ()
  pure none

def pipealloc : G (Option (ℕ × ℕ)) := do
  match ← filealloc with
  | none => pipeallocBad none none
  | some f0 => do
    match ← filealloc with
    | none => pipeallocBad (some f0) none
    | some f1 => do
      match ← kalloc with
      | none => pipeallocBad (some f0) (some f1)
      | some pi => do
        modify fun s => { s with pipes := Function.update s.pipes pi ⟨true, true⟩ }
        setFile f0 fun x => { x with type := .pipe, readable := true, writable := false, pipe := pi }
        setFile f1 fun x => { x with type := .pipe, readable := false, writable := true, pipe := pi }
        pure (some (f0, f1))

/-- The file of descriptor `fd`, an `int`. -/
def argfd (p : ℕ) (fd : ℤ) : G (Option ℕ) := do
  let s ← get
  if fd < 0 ∨ (NOFILE : ℤ) ≤ fd then pure none else pure ((s.procs p).ofile fd.toNat)

def fdalloc (p f : ℕ) : G (Option ℕ) := do
  let s ← get
  match (List.range NOFILE).find? fun fd => decide ((s.procs p).ofile fd = none) with
  | some fd => do
    setOfile p fd (some f)
    pure (some fd)
  | none => pure none

/-! ### System calls -/

def sys_dup (p : ℕ) (fd : ℤ) : G ℤ := do
  match ← argfd p fd with
  | none => pure (-1)
  | some f => do
    match ← fdalloc p f with
    | none => pure (-1)
    | some fd => do
      let _ ← filedup f
      pure fd

def sys_close (p : ℕ) (fd : ℤ) : G ℤ := do
  match ← argfd p fd with
  | none => pure (-1)
  | some f => do
    setOfile p fd.toNat none
    fileclose f
    pure 0

def O_WRONLY : BitVec 32 := 0x001
def O_RDWR : BitVec 32 := 0x002
def O_CREATE : BitVec 32 := 0x200
def O_TRUNC : BitVec 32 := 0x400

def flag (omode o : BitVec 32) : Bool := omode &&& o != 0

/-- `O_TRUNC` empties a file. -/
def openTrunc (ip : ℕ) (type : Ftype) (omode : BitVec 32) : G Unit :=
  if flag omode O_TRUNC ∧ type = .file then fs (itrunc ip) else pure ()

/-- The file that `sys_open` makes for an inode. -/
def opened (x : File) (ip : ℕ) (d : Dinode) (omode : BitVec 32) : File :=
  let x := if d.type = .device then { x with type := .device, major := d.major }
    else { x with type := .inode, off := 0 }
  { x with
    ip := ip
    readable := !flag omode O_WRONLY
    writable := flag omode O_WRONLY || flag omode O_RDWR }

/-- `sys_open` from the point where the inode is there and locked. -/
def openInode (p ip : ℕ) (omode : BitVec 32) : G ℤ := do
  let s ← get
  let d := (s.disk.inodes ip).copy
  if d.type = .device ∧ (d.major < 0 ∨ (NDEV : ℤ) ≤ d.major) then do
    fs (iunlockput ip)
    pure (-1)
  else do
    match ← filealloc with
    | none => do
      fs (iunlockput ip)
      pure (-1)
    | some f => do
      match ← fdalloc p f with
      | none => do
        fileclose f
        fs (iunlockput ip)
        pure (-1)
      | some fd => do
        setFile f fun x => opened x ip d omode
        openTrunc ip d.type omode
        fs (iunlock ip)
        pure fd

/-- The current directory of a process. -/
def cwd (p : ℕ) : G ℕ := do
  let s ← get
  pure ((s.procs p).cwd.getD 0)

def sys_open (p : ℕ) (path : Option Path) (omode : BitVec 32) : G ℤ := do
  match path with
  | none => pure (-1)
  | some path => do
    let cw ← cwd p
    if flag omode O_CREATE then do
      match ← fs (create sb cw path.bytes .file 0 0) with
      | none => pure (-1)
      | some ip => openInode p ip omode
    else do
      match ← fs (namei sb cw path.bytes) with
      | none => pure (-1)
      | some ip => do
        fs (ilock ip)
        let s ← get
        if (s.disk.inodes ip).copy.type = .dir ∧ omode ≠ 0 then do
          fs (iunlockput ip)
          pure (-1)
        else openInode p ip omode

/-- `sys_mkdir` and `sys_mknod`. -/
def sysCreate (p : ℕ) (path : Option Path) (type : Ftype) (major minor : ℤ) : G ℤ := do
  match path with
  | none => pure (-1)
  | some path => do
    let cw ← cwd p
    match ← fs (create sb cw path.bytes type major minor) with
    | none => pure (-1)
    | some ip => do
      fs (iunlockput ip)
      pure 0

def sys_mkdir (p : ℕ) (path : Option Path) : G ℤ := sysCreate sb p path .dir 0 0

def sys_mknod (p : ℕ) (path : Option Path) (major minor : ℤ) : G ℤ :=
  sysCreate sb p path .device major minor

def sys_link (p : ℕ) (old new : Option Path) : G ℤ := do
  match old, new with
  | some old, some new => do
    let cw ← cwd p
    fs (link sb cw old.bytes new.bytes)
  | _, _ => pure (-1)

def sys_unlink (p : ℕ) (path : Option Path) : G ℤ := do
  match path with
  | none => pure (-1)
  | some path => do
    let cw ← cwd p
    fs (unlink sb cw path.bytes)

def sys_chdir (p : ℕ) (path : Option Path) : G ℤ := do
  match path with
  | none => pure (-1)
  | some path => do
    let cw ← cwd p
    match ← fs (namei sb cw path.bytes) with
    | none => pure (-1)
    | some ip => do
      fs (ilock ip)
      let s ← get
      if (s.disk.inodes ip).copy.type ≠ .dir then do
        fs (iunlockput ip)
        pure (-1)
      else do
        fs (iunlock ip)
        fs (iput cw)
        setProc p fun pr => { pr with cwd := some ip }
        pure 0

/-- `sys_pipe`; `ok` tells whether both `copyout`s of the descriptors succeed. -/
def sys_pipe (p : ℕ) (ok : Bool) : G ℤ := do
  match ← pipealloc with
  | none => pure (-1)
  | some (rf, wf) => do
    match ← fdalloc p rf with
    | none => do
      fileclose rf
      fileclose wf
      pure (-1)
    | some fd0 => do
      match ← fdalloc p wf with
      | none => do
        setOfile p fd0 none
        fileclose rf
        fileclose wf
        pure (-1)
      | some fd1 =>
        if ok then pure 0
        else do
          setOfile p fd0 none
          setOfile p fd1 none
          fileclose rf
          fileclose wf
          pure (-1)

/-- The offset of a file moves on by what was transferred. -/
def advance (f : ℕ) (r : ℤ) : G Unit :=
  if 0 < r then setFile f fun x => { x with off := (x.off + r.toNat) % 2 ^ 32 } else pure ()

/-- `fileread` of a file on disk; `ok` tells what `either_copyout` can store. -/
def sys_read (p : ℕ) (fd : ℤ) (ok : ℕ → ℕ → Bool) (n : ℤ) : G ℤ := do
  match ← argfd p fd with
  | none => pure (-1)
  | some f => do
    let s ← get
    let x := s.files f
    if x.readable = false then pure (-1)
    else if x.type = .inode then do
      fs (ilock x.ip)
      let (r, _) ← fs (readi sb x.ip ok x.off (n % 2 ^ 32).toNat)
      advance f r
      fs (iunlock x.ip)
      pure r
    else pure 0

/-- The loop of `filewrite` of a file on disk, from byte `i` of `n` on. -/
def filewriteLoop (f : ℕ) (src : ℕ → Option Byte) (n : ℕ) : ℕ → ℕ → G ℕ
  | 0, _ => throw .diverge
  | fuel + 1, i =>
    if i < n then do
      let n1 := min (n - i) (3 * BSIZE)
      let s ← get
      let x := s.files f
      fs (ilock x.ip)
      let r ← fs (writei sb x.ip (fun k => src (i + k)) x.off n1)
      advance f r
      fs (iunlock x.ip)
      if r ≠ n1 then pure i else filewriteLoop f src n fuel (i + n1)
    else pure i

def sys_write (p : ℕ) (fd : ℤ) (src : ℕ → Option Byte) (n : ℤ) : G ℤ := do
  match ← argfd p fd with
  | none => pure (-1)
  | some f => do
    let s ← get
    let x := s.files f
    if x.writable = false then pure (-1)
    else if x.type = .inode then do
      let i ← filewriteLoop sb f src n.toNat (n.toNat + 1) 0
      pure (if i = n then n else -1)
    else pure 0

/-! ### Processes -/

/-- The loop of `fork` over the open files. -/
def forkFiles (p q : ℕ) : List ℕ → G Unit
  | [] => pure ()
  | fd :: fds => do
    let s ← get
    match (s.procs p).ofile fd with
    | some f => do
      let _ ← filedup f
      setOfile q fd (some f)
      forkFiles p q fds
    | none => forkFiles p q fds

/-- `fork`; `ok` tells whether there is memory for the child. -/
def fork (p : ℕ) (ok : Bool) : G ℤ := do
  let s ← get
  match (List.range NPROC).find? fun q => decide ((s.procs q).state = .unused) with
  | none => pure (-1)
  | some q =>
    if ok = false then pure (-1)
    else do
      forkFiles p q (List.range NOFILE)
      let s ← get
      let ip ← fs (idup ((s.procs p).cwd.getD 0))
      setProc q fun pr => { pr with cwd := some ip, state := .alive }
      pure q

/-- The loop of `exit` over the open files. -/
def exitFiles (p : ℕ) : List ℕ → G Unit
  | [] => pure ()
  | fd :: fds => do
    let s ← get
    match (s.procs p).ofile fd with
    | some f => do
      fileclose f
      setOfile p fd none
      exitFiles p fds
    | none => exitFiles p fds

/-- `exit`; process 0 is `init`. -/
def exit (p : ℕ) : G ℤ := do
  if p = 0 then throw .init_exiting
  else do
    exitFiles p (List.range NOFILE)
    let cw ← cwd p
    fs (iput cw)
    setProc p fun pr => { pr with cwd := none, state := .zombie }
    pure 0

/-- `wait` finds zombie `q` and frees its slot. -/
def reap (q : ℕ) : G ℤ := do
  let s ← get
  if (s.procs q).state = .zombie then do
    setProc q fun pr => { pr with state := .unused }
    pure q
  else pure (-1)

/-! ### Runs -/

inductive Call where
  | open (path : Option Path) (omode : BitVec 32)
  | mkdir (path : Option Path)
  | mknod (path : Option Path) (major minor : ℤ)
  | link (old new : Option Path)
  | unlink (path : Option Path)
  | chdir (path : Option Path)
  | dup (fd : ℤ)
  | close (fd : ℤ)
  | pipe (ok : Bool)
  | read (fd : ℤ) (ok : ℕ → ℕ → Bool) (n : ℤ)
  | write (fd : ℤ) (src : ℕ → Option Byte) (n : ℤ)
  | fork (ok : Bool)
  | exit

inductive Act where
  | call (p : ℕ) (c : Call)
  | reap (q : ℕ)
  | take
  | share (pa : ℕ)
  | give (pa : ℕ)

def syscall (p : ℕ) : Call → G ℤ
  | .open path omode => sys_open sb p path omode
  | .mkdir path => sys_mkdir sb p path
  | .mknod path major minor => sys_mknod sb p path major minor
  | .link old new => sys_link sb p old new
  | .unlink path => sys_unlink sb p path
  | .chdir path => sys_chdir sb p path
  | .dup fd => sys_dup p fd
  | .close fd => sys_close p fd
  | .pipe ok => sys_pipe p ok
  | .read fd ok n => sys_read sb p fd ok n
  | .write fd src n => sys_write sb p fd src n
  | .fork ok => fork p ok
  | .exit => exit p

/-- A live process makes a call, `wait` frees a slot, or the rest of the kernel takes a page, shares
one that it has, or gives one back. -/
def step : Act → G Unit
  | .call p c => do
    let s ← get
    if p < NPROC ∧ (s.procs p).state = .alive then do
      let _ ← syscall sb p c
      pure ()
    else pure ()
  | .reap q => do
    if q < NPROC then do
      let _ ← reap q
      pure ()
    else pure ()
  | .take => do
    match ← kalloc with
    | some pa => modify fun s => { s with taken := pa :: s.taken }
    | none => pure ()
  | .share pa => do
    let s ← get
    if pa ∈ s.taken then do
      set { s with taken := pa :: s.taken }
      check_and_increment pa
    else pure ()
  | .give pa => do
    let s ← get
    if pa ∈ s.taken then do
      set { s with taken := s.taken.erase pa }
      kfree pa
    else pure ()

def run : List Act → G Unit
  | [] => pure ()
  | a :: as => do
    step sb a
    run as

/-- After `userinit`: `init` alone, in the root directory, with the given disk and free pages. -/
def boot (bits : ℕ → Bool) (dinodes : ℕ → Dinode) (blocks : ℕ → Mem) (pages : List ℕ) : Sys where
  disk :=
    { bits := bits
      dinodes := dinodes
      blocks := blocks
      inodes := Function.update (fun _ => ⟨0, 0, 0, false, Dinode.zero⟩) 0
        ⟨ROOTDEV, ROOTINO, 1, false, Dinode.zero⟩ }
  files := fun _ => ⟨.none, 0, false, false, 0, 0, 0, 0⟩
  procs := Function.update (fun _ => ⟨.unused, fun _ => none, none⟩) 0
    ⟨.alive, fun _ => none, some 0⟩
  pipes := fun _ => ⟨false, false⟩
  freelist := pages
  temp := fun _ => 0
  taken := []

end Xv6.Fs
