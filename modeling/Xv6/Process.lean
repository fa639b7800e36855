import Xv6.CInt
import Xv6.Vm

/-!
The process table and the functions of `proc.c` and `trap.c` that create, change and free
address spaces.

The kernel state here is physical memory with its allocator, the process table, and the pages
that single owners outside the process table hold: the kernel page table, kernel stacks, disk
rings, pipes and the argument pages of `exec`. Open files, the current directory, scheduling
fields and the fields `vm.c` never reads are left out; a process that may run is `RUNNABLE`.
-/

namespace Xv6.Process

open Xv6.ByteMem Xv6.Riscv Xv6.CInt Xv6.Kalloc Xv6.Vm Xv6.Wp

inductive ProcState
  | UNUSED | USED | SLEEPING | RUNNABLE | RUNNING | ZOMBIE
  deriving DecidableEq

/-- `struct proc`; a null `pagetable` or `trapframe` is `0`. -/
structure Proc where
  state : ProcState
  killed : ℤ
  xstate : ℤ
  pid : ℤ
  parent : Option (Fin NPROC)
  sz : ℕ
  pagetable : ℕ
  trapframe : ℕ

structure Kern where
  k : KState
  proc : Fin NPROC → Proc
  nextpid : ℤ
  initproc : Option (Fin NPROC)
  /-- Pages held by single owners outside the process table. -/
  own : List ℕ

abbrev S := StateT Kern (Except Panic)

/-- Run a function of `vm.c` on the memory. -/
def vm {α : Type} (m : K α) : S α := zoom Kern.k (fun t k => { t with k := k }) m

def setProc (i : Fin NPROC) (p : Proc) : S Unit :=
  modify fun t => { t with proc := Function.update t.proc i p }

/-- The `n` bytes of a number, least significant first. -/
def leBytes (n x : ℕ) : List Byte := (List.range n).map fun k => BitVec.ofNat 8 (x / 256 ^ k)

variable (L : Layout)

/-! ### Page tables of processes -/

def proc_pagetable (trapframe : ℕ) : K ℕ := do
  let pagetable ← uvmcreate
  if pagetable = 0 then pure 0
  else do
    let r ← mappages pagetable TRAMPOLINE PGSIZE L.trampoline (PTE_R ||| PTE_X)
    if r < 0 then do
      uvmfree pagetable 0
      pure 0
    else do
      let r ← mappages pagetable TRAPFRAME PGSIZE trapframe (PTE_R ||| PTE_W)
      if r < 0 then do
        uvmunmap pagetable TRAMPOLINE 1 false
        uvmfree pagetable 0
        pure 0
      else pure pagetable

def proc_freepagetable (pagetable sz : ℕ) : K Unit := do
  uvmunmap pagetable TRAMPOLINE 1 false
  uvmunmap pagetable TRAPFRAME 1 false
  uvmfree pagetable sz

/-! ### Allocating and freeing processes -/

/-- A slot after `freeproc`. -/
def unusedProc : Proc := ⟨.UNUSED, 0, 0, 0, none, 0, 0, 0⟩

def freeproc (i : Fin NPROC) : S Unit := do
  let t ← get
  if (t.proc i).trapframe ≠ 0 then vm (kfree (t.proc i).trapframe) else pure ()
  if (t.proc i).pagetable ≠ 0 then
    vm (proc_freepagetable (t.proc i).pagetable (t.proc i).sz)
  else pure ()
  setProc i unusedProc

/-- The first slot that is `UNUSED`. -/
def freeSlot (t : Kern) : Option (Fin NPROC) :=
  (List.finRange NPROC).find? fun i => decide ((t.proc i).state = .UNUSED)

/-- The slot of the new process, or `none`. -/
def allocproc : S (Option (Fin NPROC)) := do
  let t ← get
  match freeSlot t with
  | none => pure none
  | some i => do
    let p := { t.proc i with pid := t.nextpid, state := .USED }
    set { t with nextpid := int (t.nextpid + 1) }
    let tf ← vm kalloc
    if tf = 0 then do
      setProc i { p with trapframe := 0 }
      freeproc i
      pure none
    else do
      let pt ← vm (proc_pagetable L tf)
      setProc i { p with trapframe := tf, pagetable := pt }
      if pt = 0 then do
        freeproc i
        pure none
      else pure (some i)

/-- Offsets in the trapframe of the saved registers the kernel writes. -/
def TF_EPC : ℕ := 24
def TF_SP : ℕ := 48
def TF_A0 : ℕ := 112
def TF_A1 : ℕ := 120
def TF_SIZE : ℕ := 288

/-- The first process; a failed allocation is a store through a null pointer. -/
def userinit (initcode : List Byte) : S Unit := do
  let r ← allocproc L
  match r with
  | none => throw .kerneltrap
  | some i => do
    let t ← get
    set { t with initproc := some i }
    vm (uvmfirst (t.proc i).pagetable initcode)
    vm (st ((t.proc i).trapframe + TF_EPC) 0)
    vm (st ((t.proc i).trapframe + TF_SP) (BitVec.ofNat 64 PGSIZE))
    setProc i { t.proc i with sz := PGSIZE, state := .RUNNABLE }

def growproc (i : Fin NPROC) (n : ℤ) : S ℤ := do
  let t ← get
  let p := t.proc i
  if 0 < n then do
    let sz ← vm (uvmalloc p.pagetable p.sz (u64 (p.sz + intU64 n)) PTE_W)
    if sz = 0 then pure (-1)
    else do
      setProc i { p with sz := sz }
      pure 0
  else if n < 0 then do
    let sz ← vm (uvmdealloc p.pagetable p.sz (u64 (p.sz + intU64 n)))
    setProc i { p with sz := sz }
    pure 0
  else pure 0

/-- The `pid` of the child; `none` where the source returns `-1`, since a `pid` that has wrapped may
be `-1`, too. -/
def fork (i : Fin NPROC) : S (Option ℤ) := do
  let r ← allocproc L
  match r with
  | none => pure none
  | some np => do
    let t ← get
    let p := t.proc i
    let c := t.proc np
    let r ← vm (uvmcopy p.pagetable c.pagetable p.sz)
    if r < 0 then do
      freeproc np
      pure none
    else do
      vm (memmove c.trapframe p.trapframe TF_SIZE)
      vm (st (c.trapframe + TF_A0) 0)
      setProc np { c with sz := p.sz, parent := some i, state := .RUNNABLE }
      pure (some c.pid)

/-- `exit` with the `reparent` it calls. -/
def exit (i : Fin NPROC) (status : ℤ) : S Unit := do
  let t ← get
  if t.initproc = some i then throw .init_exiting
  else
    set { t with proc := fun j =>
      if j = i then { t.proc i with xstate := status, state := .ZOMBIE }
      else if (t.proc j).parent = some i then { t.proc j with parent := t.initproc }
      else t.proc j }

/-- The first exited child of process `i`. -/
def zombieChild (t : Kern) (i : Fin NPROC) : Option (Fin NPROC) :=
  (List.finRange NPROC).find? fun j =>
    decide ((t.proc j).parent = some i ∧ (t.proc j).state = .ZOMBIE)

/-- One scan of `wait`'s loop; `none` when the caller goes to sleep. -/
def wait (i : Fin NPROC) (addr : ℕ) : S (Option ℤ) := do
  let t ← get
  match zombieChild t i with
  | some j => do
    let bytes := leBytes 4 (intU64 (t.proc j).xstate)
    let r ← if addr ≠ 0 then vm (copyout (t.proc i).pagetable addr bytes) else pure 0
    if r < 0 then pure (some (-1))
    else do
      freeproc j
      pure (some (t.proc j).pid)
  | none =>
    if (∀ j, (t.proc j).parent ≠ some i) ∨ (t.proc i).killed ≠ 0 then pure (some (-1)) else pure none

/-- `sys_waitx`: a scan of `waitx`'s loop, and the two counters, whatever they are, copied to
the caller. -/
def sys_waitx (i : Fin NPROC) (addr addr1 addr2 wtime rtime : ℕ) : S (Option ℤ) := do
  let r ← wait i addr
  match r with
  | none => pure none
  | some ret => do
    let t ← get
    let r1 ← vm (copyout (t.proc i).pagetable addr1 (leBytes 4 wtime))
    if r1 < 0 then pure (some (-1))
    else do
      let r2 ← vm (copyout (t.proc i).pagetable addr2 (leBytes 4 rtime))
      if r2 < 0 then pure (some (-1)) else pure (some ret)

/-- The branch of `usertrap` for a store page fault at `stval`. -/
def usertrap_store (i : Fin NPROC) (stval : ℕ) : S Unit := do
  let t ← get
  let p := t.proc i
  let sp := (ld64 t.k.mem (p.trapframe + TF_SP)).toNat
  if MAXVA ≤ stval ∨
      (sub64 (PGROUNDDOWN sp) PGSIZE ≤ stval ∧ stval ≤ PGROUNDDOWN sp) then
    setProc i { p with killed := 1 }
  else do
    let r ← vm (custom_cow p.pagetable stval)
    setProc i { p with killed := r }

end Xv6.Process
