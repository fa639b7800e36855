import Xv6.Process

/-!
`exec.c`: building the memory image of a program from an ELF file.

The file system is seen through one inode: what `readi` delivers for an offset and a length.
`execImage` is the part of `exec` from the first `readi` to the point of commitment, with every
path to `bad`; it returns the new page table, size, stack pointer and argument count.
-/

namespace Xv6.Exec

open Xv6.ByteMem Xv6.Riscv Xv6.Kalloc Xv6.Vm Xv6.Wp Xv6.Process

/-- A locked inode: the bytes `readi` copies for an offset and a length, never more than asked
for. -/
structure Inode where
  readi : ℕ → ℕ → List Byte
  length_le : ∀ off n, (readi off n).length ≤ n

/-- A regular file with the given contents. -/
def Inode.ofBytes (data : List Byte) : Inode where
  readi off n := if data.length < off ∨ u32 (off + n) < off then [] else (data.drop off).take n
  length_le off n := by
    split_ifs
    · exact Nat.zero_le _
    · rw [List.length_take]; omega

/-- The little-endian number in `n` bytes at `off`. -/
def field (bs : List Byte) (off n : ℕ) : ℕ :=
  ((List.range n).map fun k => (bs.getD (off + k) 0).toNat * 256 ^ k).sum

def ELF_MAGIC : ℕ := 0x464C457F
def ELF_PROG_LOAD : ℕ := 1

structure Elfhdr where
  magic : ℕ
  entry : ℕ
  phoff : ℕ
  phnum : ℕ

def sizeofElfhdr : ℕ := 64
def elfhdr (b : List Byte) : Elfhdr := ⟨field b 0 4, field b 24 8, field b 32 8, field b 56 2⟩

structure Proghdr where
  type : ℕ
  flags : ℕ
  off : ℕ
  vaddr : ℕ
  filesz : ℕ
  memsz : ℕ

def sizeofProghdr : ℕ := 56
def proghdr (b : List Byte) : Proghdr :=
  ⟨field b 0 4, field b 4 4, field b 8 8, field b 16 8, field b 32 8, field b 40 8⟩

def flags2perm (flags : ℕ) : Word :=
  (if flags.testBit 0 then PTE_X else 0) ||| (if flags.testBit 1 then PTE_W else 0)

/-- The bytes read go to the page even when there are too few. -/
def loadsegLoop (ip : Inode) (pagetable va offset sz : ℕ) : ℕ → ℕ → K ℤ
  | 0, _ => throw .diverge
  | k + 1, i =>
    if i < sz then do
      let pa ← walkaddr pagetable (u64 (va + i))
      if pa = 0 then throw .loadseg
      else do
        let n := if sz - i < PGSIZE then sz - i else PGSIZE
        let bs := ip.readi (u32 (offset + i)) n
        modify fun s : KState => { s with mem := put s.mem pa bs }
        if bs.length ≠ n then pure (-1)
        else loadsegLoop ip pagetable va offset sz k (u32 (i + PGSIZE))
    else pure 0

def loadseg (ip : Inode) (pagetable va offset sz : ℕ) : K ℤ :=
  loadsegLoop ip pagetable va offset sz (sz / PGSIZE + 2) 0

/-- One program header: `false` for `goto bad`, with the size reached. -/
def execSegment (ip : Inode) (pagetable : ℕ) (ph : Proghdr) (sz : ℕ) : K (Bool × ℕ) :=
  if ph.type ≠ ELF_PROG_LOAD then pure (true, sz)
  else if ph.memsz < ph.filesz then pure (false, sz)
  else if u64 (ph.vaddr + ph.memsz) < ph.vaddr then pure (false, sz)
  else if ph.vaddr % PGSIZE ≠ 0 then pure (false, sz)
  else do
    let sz1 ← uvmalloc pagetable sz (u64 (ph.vaddr + ph.memsz)) (flags2perm ph.flags)
    if sz1 = 0 then pure (false, sz)
    else do
      let r ← loadseg ip pagetable ph.vaddr (u32 ph.off) (u32 ph.filesz)
      pure (decide (0 ≤ r), sz1)

/-- The loop over the program headers that are left. -/
def execLoad (ip : Inode) (pagetable : ℕ) : ℕ → ℕ → ℕ → K (Bool × ℕ)
  | 0, _, sz => pure (true, sz)
  | k + 1, off, sz =>
    let b := ip.readi off sizeofProghdr
    if b.length ≠ sizeofProghdr then pure (false, sz)
    else do
      let r ← execSegment ip pagetable (proghdr b) sz
      if r.1 then execLoad ip pagetable k (u32 (off + sizeofProghdr)) r.2
      else pure (false, r.2)

/-- Pushing the argument strings: the stack pointer and `ustack`, or `none` for `goto bad`. -/
def pushArgs (pagetable stackbase : ℕ) : List (List Byte) → ℕ → List ℕ → K (Option (ℕ × List ℕ))
  | [], sp, ustack => pure (some (sp, ustack))
  | arg :: argv, sp, ustack =>
    if MAXARG ≤ ustack.length then pure none
    else
      let sp := sub64 sp (arg.length + 1)
      let sp := sp - sp % 16
      if sp < stackbase then pure none
      else do
        let r ← copyout pagetable sp (arg ++ [0])
        if r < 0 then pure none else pushArgs pagetable stackbase argv sp (ustack ++ [sp])

/-- The array of argument pointers: the final stack pointer, or `none`. -/
def pushUstack (pagetable stackbase sp : ℕ) (ustack : List ℕ) : K (Option ℕ) :=
  let words := ustack ++ [0]
  let sp := sub64 sp (words.length * 8)
  let sp := sp - sp % 16
  if sp < stackbase then pure none
  else do
    let r ← copyout pagetable sp (words.flatMap (leBytes 8))
    if r < 0 then pure none else pure (some sp)

/-- Guard page, stack page and arguments: the size reached, and the stack pointer or `none`. -/
def execStack (pagetable sz : ℕ) (argv : List (List Byte)) : K (Option ℕ × ℕ) := do
  let sz := PGROUNDUP sz
  let sz1 ← uvmalloc pagetable sz (u64 (sz + 2 * PGSIZE)) PTE_W
  if sz1 = 0 then pure (none, sz)
  else do
    uvmclear pagetable (sub64 sz1 (2 * PGSIZE))
    let r ← pushArgs pagetable (sub64 sz1 PGSIZE) argv sz1 []
    match r with
    | none => pure (none, sz1)
    | some (sp, ustack) => do
      let r ← pushUstack pagetable (sub64 sz1 PGSIZE) sp ustack
      pure (r, sz1)

/-- A new image: page table, size, entry point, stack pointer. -/
structure Image where
  pagetable : ℕ
  sz : ℕ
  entry : ℕ
  sp : ℕ

variable (L : Layout)

def execImage (ip : Inode) (trapframe : ℕ) (argv : List (List Byte)) : K (Option Image) := do
  let b := ip.readi 0 sizeofElfhdr
  let elf := elfhdr b
  if b.length ≠ sizeofElfhdr ∨ elf.magic ≠ ELF_MAGIC then pure none
  else do
    let pagetable ← proc_pagetable L trapframe
    if pagetable = 0 then pure none
    else do
      let r ← execLoad ip pagetable elf.phnum (u32 elf.phoff) 0
      if !r.1 then do
        proc_freepagetable pagetable r.2
        pure none
      else do
        let r ← execStack pagetable r.2 argv
        match r.1 with
        | none => do
          proc_freepagetable pagetable r.2
          pure none
        | some sp => pure (some ⟨pagetable, r.2, elf.entry, sp⟩)

/-- `exec` by process `i`; `ip` is what `namei` finds. -/
def exec (i : Fin NPROC) (ip : Option Inode) (argv : List (List Byte)) : S ℤ :=
  match ip with
  | none => pure (-1)
  | some ip => do
    let t ← get
    let p := t.proc i
    let r ← vm (execImage L ip p.trapframe argv)
    match r with
    | none => pure (-1)
    | some im => do
      vm (st (p.trapframe + TF_A1) (BitVec.ofNat 64 im.sp))
      setProc i { p with pagetable := im.pagetable, sz := im.sz }
      vm (st (p.trapframe + TF_EPC) (BitVec.ofNat 64 im.entry))
      vm (st (p.trapframe + TF_SP) (BitVec.ofNat 64 im.sp))
      vm (proc_freepagetable p.pagetable p.sz)
      pure argv.length

end Xv6.Exec
