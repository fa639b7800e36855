import Xv6.Exec

/-!
The kernel as a system: what user programs, traps and drivers can make it do to memory, one
operation after another, from boot on.

An operation of a process is possible while the process is `RUNNABLE`. `own_alloc`, `own_free`
and `own_write` are the single owners outside the process table: the kernel page table, kernel
stacks and disk rings at boot, later pipes and the argument pages of `sys_exec`.
-/

namespace Xv6.Kernel

open Xv6.ByteMem Xv6.Riscv Xv6.Kalloc Xv6.Vm Xv6.Wp Xv6.Process Xv6.Exec

/-! ### Page tables as the hardware reads them -/

/-- The table reached from the root by `d` indices, most significant first in `x`. -/
def tableBelow (m : Mem) (root : ℕ) : ℕ → ℕ → Option ℕ
  | 0, x => if x = 0 then some root else none
  | d + 1, x =>
    (tableBelow m root d (x / 512)).bind fun q =>
      let e := ld64 m (q + 8 * (x % 512))
      if has e PTE_V then some (PTE2PA e) else none

/-- The table of the given level and index. -/
def tableAt (m : Mem) (root l x : ℕ) : Option ℕ := if l ≤ 2 then tableBelow m root (2 - l) x else none

/-- The leaf entry of virtual page `v`, `0` when there is no table for it. -/
def leafAt (m : Mem) (root v : ℕ) : Word :=
  match tableAt m root 0 (v / 512) with
  | some q => ld64 m (q + 8 * (v % 512))
  | none => 0

/-! ### Operations -/

/-- A store instruction of process `i`, which goes through if the entry allows it. -/
def user_store (i : Fin NPROC) (va : ℕ) (b : Byte) : S Unit := do
  let t ← get
  let e := leafAt t.k.mem (t.proc i).pagetable (va / PGSIZE)
  if va < MAXVA ∧ has e PTE_V = true ∧ has e PTE_U = true ∧ has e PTE_W = true then
    vm (modify fun s => { s with mem := put s.mem (PTE2PA e + va % PGSIZE) [b] })
  else pure ()

/-- `uservec` saves the user registers, whatever they are, in the trapframe. -/
def save_regs (i : Fin NPROC) (regs : List Byte) : S Unit := do
  let t ← get
  vm (modify fun s => { s with mem := put s.mem (t.proc i).trapframe (regs.take TF_SIZE) })

def own_alloc : S Unit := do
  let p ← vm kalloc
  if p = 0 then pure () else modify fun t => { t with own := p :: t.own }

def own_free (p : ℕ) : S Unit := do
  let t ← get
  if p ∈ t.own then do
    vm (kfree p)
    modify fun t => { t with own := t.own.erase p }
  else pure ()

def own_write (p off : ℕ) (bs : List Byte) : S Unit := do
  let t ← get
  if p ∈ t.own ∧ off + bs.length ≤ PGSIZE then
    vm (modify fun s => { s with mem := put s.mem (p + off) bs })
  else pure ()

inductive Op
  | fork (i : Fin NPROC)
  | growproc (i : Fin NPROC) (n : BitVec 32)
  | exec (i : Fin NPROC) (ip : Option Inode) (argv : List (List Byte))
  | store_fault (i : Fin NPROC) (stval : ℕ)
  | exit (i : Fin NPROC) (status : ℤ)
  | wait (i : Fin NPROC) (addr : ℕ)
  | waitx (i : Fin NPROC) (addr addr1 addr2 wtime rtime : ℕ)
  | copyout (i : Fin NPROC) (dstva : ℕ) (src : List Byte)
  | user_store (i : Fin NPROC) (va : ℕ) (b : Byte)
  | save_regs (i : Fin NPROC) (regs : List Byte)
  | own_alloc
  | own_free (p : ℕ)
  | own_write (p off : ℕ) (bs : List Byte)

/-- An operation of a process that may run. -/
def running (i : Fin NPROC) {α : Type} (m : S α) : S Unit := do
  let t ← get
  if (t.proc i).state = .RUNNABLE then do
    let _ ← m
    pure ()
  else pure ()

variable (L : Layout)

def step : Op → S Unit
  | .fork i => running i (fork L i)
  | .growproc i n => running i (growproc i n.toInt)
  | .exec i ip argv => running i (exec L i ip argv)
  | .store_fault i stval => running i (usertrap_store i stval)
  | .exit i status => running i (exit i status)
  | .wait i addr => running i (wait i addr)
  | .waitx i addr addr1 addr2 wtime rtime => running i (sys_waitx i addr addr1 addr2 wtime rtime)
  | .copyout i dstva src => running i do
      let t ← get
      vm (copyout (t.proc i).pagetable dstva src)
  | .user_store i va b => running i (user_store i va b)
  | .save_regs i regs => running i (save_regs i regs)
  | .own_alloc => own_alloc
  | .own_free p => own_free p
  | .own_write p off bs => own_write p off bs

def run : List Op → S Unit
  | [] => pure ()
  | op :: ops => do
    step L op
    run ops

/-! ### Boot -/

def ownLoop : ℕ → S Unit
  | 0 => pure ()
  | n + 1 => do
    own_alloc
    ownLoop n

/-- The machine code of `user/initcode.S`. -/
def initcode : List Byte :=
  [0x17, 0x05, 0x00, 0x00, 0x13, 0x05, 0x45, 0x02, 0x97, 0x05, 0x00, 0x00, 0x93, 0x85, 0x35, 0x02,
    0x93, 0x08, 0x70, 0x00, 0x73, 0x00, 0x00, 0x00, 0x93, 0x08, 0x20, 0x00, 0x73, 0x00, 0x00, 0x00,
    0xef, 0xf0, 0x9f, 0xff, 0x2f, 0x69, 0x6e, 0x69, 0x74, 0x00, 0x00, 0x24, 0x00, 0x00, 0x00, 0x00,
    0x00, 0x00, 0x00, 0x00]

/-- Memory at power-on; the allocator and the process table are zeroed. -/
def powerOn (m : Mem) : Kern where
  k := ⟨m, [], fun _ => 0⟩
  proc := fun _ => unusedProc
  nextpid := 1
  initproc := none
  own := []

def boot : S Unit := do
  vm (kinit L)
  ownLoop L.nkern
  userinit L initcode

/-- The state after booting and then `ops`. -/
def system (ops : List Op) : S Unit := do
  boot L
  run L ops

end Xv6.Kernel
