import Xv6.Dlist
import Xv6.Riscv

/-!
The user allocator of `umalloc.c`.

Memory is made of headers, 16 bytes each, and a pointer is the address of one. User addresses lie far
below `2 ^ 64`, so pointer arithmetic does not wrap. The kernel answers a call of `sbrk` by what was
called before and the amount; every call is recorded with its answer.
-/

namespace Xv6.Umalloc

open Xv6.Riscv

/-- `s.ptr` and `s.size`, in units of headers. -/
structure Header where
  ptr : ℕ
  size : ℕ
  deriving DecidableEq

abbrev Mem := ℕ → Header

def Mem.setPtr (m : Mem) (a p : ℕ) : Mem := Function.update m a { m a with ptr := p }

def Mem.setSize (m : Mem) (a n : ℕ) : Mem := Function.update m a { m a with size := n }

/-- A call of `sbrk`: the units `morecore` asks for, the `int` it passes, and the address returned. -/
structure Call where
  units : ℕ
  amount : ℤ
  answer : Option ℕ
  deriving DecidableEq

structure State where
  mem : Mem
  /-- `freep`, a null pointer at first. -/
  freep : ℕ
  calls : List Call

/-! ### `free` -/

/-- The loop of `free`: the free block after which `bp` belongs. -/
def scan (m : Mem) (bp : ℕ) : ℕ → ℕ → Option ℕ
  | 0, _ => none
  | fuel + 1, p =>
    if p < bp ∧ bp < (m p).ptr then some p
    else if (m p).ptr ≤ p ∧ (p < bp ∨ bp < (m p).ptr) then some p
    else scan m bp fuel (m p).ptr

/-- The block `bp` is linked to what follows `p`, or joined to it. -/
def joinAbove (m : Mem) (bp p : ℕ) : Mem :=
  if bp + 16 * (m bp).size = (m p).ptr then
    let m := m.setSize bp (u32 ((m bp).size + (m (m p).ptr).size))
    m.setPtr bp (m (m p).ptr).ptr
  else m.setPtr bp (m p).ptr

/-- The block `p` is linked to `bp`, or joined to it. -/
def joinBelow (m : Mem) (bp p : ℕ) : Mem :=
  if p + 16 * (m p).size = bp then
    let m := m.setSize p (u32 ((m p).size + (m bp).size))
    m.setPtr p (m bp).ptr
  else m.setPtr p bp

def free (fuel : ℕ) (s : State) (ap : ℕ) : Option State :=
  let bp := ap - 16
  match scan s.mem bp fuel s.freep with
  | none => none
  | some p => some { s with mem := joinBelow (joinAbove s.mem bp p) bp p, freep := p }

/-! ### `malloc` -/

section

variable (sbrk : List Call → ℤ → Option ℕ)

/-- The new state and the pointer returned, null if there is no more memory. -/
def morecore (fuel : ℕ) (s : State) (nu : ℕ) : Option (State × ℕ) :=
  let nu := if nu < 4096 then 4096 else nu
  let amount := toInt (nu * 16)
  let answer := sbrk s.calls amount
  let s := { s with calls := s.calls ++ [⟨nu, amount, answer⟩] }
  match answer with
  | none => some (s, 0)
  | some p =>
    match free fuel { s with mem := s.mem.setSize p nu } (p + 16) with
    | none => none
    | some s => some (s, s.freep)

/-- The block `p`, big enough, is taken off the list or gives its tail. -/
def take (s : State) (nunits prevp p : ℕ) : State × ℕ :=
  if (s.mem p).size = nunits then
    ({ s with mem := s.mem.setPtr prevp (s.mem p).ptr, freep := prevp }, p + 16)
  else
    let m := s.mem.setSize p ((s.mem p).size - nunits)
    let p := p + 16 * (m p).size
    ({ s with mem := m.setSize p nunits, freep := prevp }, p + 16)

/-- The loop of `malloc`. -/
def loop (fuel nunits : ℕ) : ℕ → State → ℕ → ℕ → Option (State × ℕ)
  | 0, _, _, _ => none
  | n + 1, s, prevp, p =>
    if nunits ≤ (s.mem p).size then some (take s nunits prevp p)
    else if p = s.freep then
      match morecore sbrk fuel s nunits with
      | none => none
      | some (s, p) => if p = 0 then some (s, 0) else loop fuel nunits n s p (s.mem p).ptr
    else loop fuel nunits n s p (s.mem p).ptr

/-- The units of headers for `nbytes`, one of them for the header. -/
def units (nbytes : ℕ) : ℕ := u32 ((nbytes + 16 - 1) / 16 + 1)

variable (base : ℕ)

/-- The list with `base` alone, made by the first call of `malloc`. -/
def init (s : State) : State :=
  if s.freep = 0 then { s with mem := Function.update s.mem base ⟨base, 0⟩, freep := base } else s

def malloc (fuel : ℕ) (s : State) (nbytes : ℕ) : Option (State × ℕ) :=
  let s := init base s
  loop sbrk fuel (units nbytes) fuel s s.freep (s.mem s.freep).ptr

end

end Xv6.Umalloc
