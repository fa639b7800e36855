import Xv6.CInt
import Mathlib.Logic.Function.Basic
import Mathlib.Data.List.Basic

/-!
The disk driver, `virtio_disk.c`, and the device.

A caller of `virtio_disk_rw` is named by the buffer that it has locked. Its code is cut where the
device may come in between, and where it sleeps, which gives `vdisk_lock` up until it is awake
again. It may be awake at any time, as `wakeup` and `kill` wake it, and tests what it waits for
again.

The device takes heads of chains off the avail ring. It carries out the requests in any order, each
with status 0, then enters their heads in the used ring, and then counts the entries. What has been
published, done and entered is recorded in the order in which it happened, for no one to read.
-/

namespace Xv6.Virtio

open Xv6.CInt (uint)

def NUM : ℕ := 8
def BSIZE : ℕ := 1024

def VRING_DESC_F_NEXT : BitVec 16 := 1
def VRING_DESC_F_WRITE : BitVec 16 := 2
def VIRTIO_BLK_T_IN : ℕ := 0
def VIRTIO_BLK_T_OUT : ℕ := 1

/-- The addresses that a descriptor may hold. -/
inductive Addr (β : Type) where
  | null
  | op (i : ℕ)
  | data (b : β)
  | status (i : ℕ)
deriving DecidableEq

/-- `struct virtq_desc` -/
structure Desc (β : Type) where
  addr : Addr β
  len : ℕ
  flags : BitVec 16
  next : ℕ

/-- `struct virtio_blk_req`, of 16 bytes -/
structure Op where
  type : ℕ
  reserved : ℕ
  sector : ℕ

structure Info (β : Type) where
  b : Option β
  status : BitVec 8

/-- One of the two rings. -/
structure Vring where
  idx : BitVec 16
  ring : ℕ → ℕ

/-- The three descriptors of a request. -/
structure Idx where
  i0 : ℕ
  i1 : ℕ
  i2 : ℕ
deriving DecidableEq

/-- What a caller asks for. -/
structure Request where
  write : Bool
  blockno : ℕ
deriving DecidableEq

/-- Where a caller is; `n` is the number of requests that were published before its own. -/
inductive Pc where
  | outside
  /-- before the allocation of descriptors, or asleep on `disk.free[0]` -/
  | alloc (r : Request)
  | format (r : Request) (x : Idx)
  /-- before the write to the avail ring -/
  | offer (r : Request) (x : Idx)
  /-- before the increment of its index -/
  | publish (r : Request) (x : Idx)
  /-- before the test of `b->disk` -/
  | check (r : Request) (x : Idx) (n : ℕ)
  /-- asleep on the buffer -/
  | sleep (r : Request) (x : Idx) (n : ℕ)

/-- Who has `vdisk_lock`. -/
inductive Holder (β : Type) where
  | rw (b : β)
  | intr
deriving DecidableEq

inductive Panic where
  | free_desc_1     -- "free_desc 1"
  | free_desc_2     -- "free_desc 2"
  | status          -- "virtio_disk_intr status"
  | null            -- a store through a null pointer
  | diverge
deriving DecidableEq

/-- A request that the device has taken. -/
structure Item where
  n : ℕ
  head : ℕ
deriving DecidableEq

/-- What the device reads in a chain of descriptors. -/
structure Command (β : Type) where
  type : ℕ
  sector : ℕ
  data : Addr β
deriving DecidableEq

structure State (β : Type) where
  desc : ℕ → Desc β
  avail : Vring
  used : Vring
  free : ℕ → Bool
  used_idx : BitVec 16
  info : ℕ → Info β
  ops : ℕ → Op
  /-- `b->disk` -/
  disk : β → Bool
  vdisk_lock : Option (Holder β)
  pc : β → Pc
  /-- the avail entry that the device takes next -/
  last : BitVec 16
  /-- the used entry that it writes next -/
  next : BitVec 16
  pending : List Item
  served : List Item
  /-- the requests by caller and head -/
  published : List (β × ℕ)
  taken : ℕ
  done : List (ℕ × Command β)
  filled : List ℕ
  flushed : ℕ
  handled : ℕ

variable {β : Type} [DecidableEq β]

/-- After `virtio_disk_init`. -/
def boot : State β where
  desc := fun _ => ⟨.null, 0, 0, 0⟩
  avail := ⟨0, fun _ => 0⟩
  used := ⟨0, fun _ => 0⟩
  free := fun _ => true
  used_idx := 0
  info := fun _ => ⟨none, 0⟩
  ops := fun _ => ⟨0, 0, 0⟩
  disk := fun _ => false
  vdisk_lock := none
  pc := fun _ => .outside
  last := 0
  next := 0
  pending := []
  served := []
  published := []
  taken := 0
  done := []
  filled := []
  flushed := 0
  handled := 0

def State.goto (s : State β) (b : β) (k : Pc) : State β :=
  { s with pc := Function.update s.pc b k }

/-! ### The descriptors -/

/-- Find a free descriptor, mark it non-free, return its index. -/
def alloc_desc (s : State β) : State β × Option ℕ :=
  match (List.range NUM).find? s.free with
  | some i => ({ s with free := Function.update s.free i false }, some i)
  | none => (s, none)

/-- Mark a descriptor as free. -/
def free_desc (i : ℕ) (s : State β) : Except Panic (State β) :=
  if NUM ≤ i then throw .free_desc_1
  else if s.free i then throw .free_desc_2
  else pure { s with
    desc := Function.update s.desc i ⟨.null, 0, 0, 0⟩
    free := Function.update s.free i true }

/-- Free a chain of descriptors. -/
def free_chain : ℕ → ℕ → State β → Except Panic (State β)
  | 0, _, _ => throw .diverge
  | k + 1, i, s => do
    let flag := (s.desc i).flags
    let nxt := (s.desc i).next
    let s ← free_desc i s
    if flag &&& VRING_DESC_F_NEXT ≠ 0 then free_chain k nxt s else pure s

/-- Allocate three descriptors, or none. -/
def alloc3_desc (s : State β) : Except Panic (State β × Option Idx) :=
  match alloc_desc s with
  | (s, none) => pure (s, none)
  | (s, some i0) =>
    match alloc_desc s with
    | (s, none) => do
      let s ← free_desc i0 s
      pure (s, none)
    | (s, some i1) =>
      match alloc_desc s with
      | (s, none) => do
        let s ← free_desc i0 s
        let s ← free_desc i1 s
        pure (s, none)
      | (s, some i2) => pure (s, some ⟨i0, i1, i2⟩)

/-! ### The callers -/

/-- The command of a request. -/
def Request.command (r : Request) (b : β) : Command β where
  type := if r.write then VIRTIO_BLK_T_OUT else VIRTIO_BLK_T_IN
  sector := uint (r.blockno * (BSIZE / 512))
  data := .data b

/-- The three descriptors are formatted and the buffer is recorded. -/
def format (b : β) (r : Request) (x : Idx) (s : State β) : State β :=
  { s with
    ops := Function.update s.ops x.i0
      ⟨if r.write then VIRTIO_BLK_T_OUT else VIRTIO_BLK_T_IN, 0, uint (r.blockno * (BSIZE / 512))⟩
    desc := Function.update (Function.update (Function.update s.desc
      x.i0 ⟨.op x.i0, 16, VRING_DESC_F_NEXT, x.i1⟩)
      x.i1 ⟨.data b, BSIZE, (if r.write then 0 else VRING_DESC_F_WRITE) ||| VRING_DESC_F_NEXT, x.i2⟩)
      x.i2 ⟨.status x.i0, 1, VRING_DESC_F_WRITE, 0⟩
    info := Function.update s.info x.i0 ⟨some b, 0xff⟩
    disk := Function.update s.disk b true }

/-- The caller goes on. -/
def go (b : β) (s : State β) : Except Panic (State β) :=
  match s.pc b with
  | .outside => pure s
  | .alloc r =>
    if s.vdisk_lock = none then do
      let (s, idx) ← alloc3_desc s
      match idx with
      | some x => pure ({ s with vdisk_lock := some (.rw b) }.goto b (.format r x))
      | none => pure s
    else pure s
  | .format r x => pure ((format b r x s).goto b (.offer r x))
  | .offer r x =>
    pure ({ s with
      avail.ring := Function.update s.avail.ring (s.avail.idx.toNat % NUM) x.i0 }.goto b
        (.publish r x))
  | .publish r x =>
    pure ({ s with
      avail.idx := s.avail.idx + 1
      published := s.published ++ [(b, x.i0)] }.goto b (.check r x s.published.length))
  | .check r x n =>
    if s.disk b then pure ({ s with vdisk_lock := none }.goto b (.sleep r x n))
    else do
      let s ← free_chain (NUM + 1) x.i0
        { s with info := Function.update s.info x.i0 { s.info x.i0 with b := none } }
      pure ({ s with vdisk_lock := none }.goto b .outside)
  | .sleep r x n =>
    pure (if s.vdisk_lock = none then
      { s with vdisk_lock := some (.rw b) }.goto b (.check r x n) else s)

/-! ### The interrupt handler -/

/-- A pass of the loop of `virtio_disk_intr`. -/
def handle (s : State β) : Except Panic (State β) :=
  if s.vdisk_lock = some .intr then
    if s.used_idx = s.used.idx then pure { s with vdisk_lock := none }
    else
      let id := s.used.ring (s.used_idx.toNat % NUM)
      if (s.info id).status ≠ 0 then throw .status
      else
        match (s.info id).b with
        | none => throw .null
        | some b => pure { s with
          disk := Function.update s.disk b false
          used_idx := s.used_idx + 1
          handled := s.handled + 1 }
  else pure s

/-! ### The device -/

/-- The device takes the next entry of the avail ring. -/
def take (s : State β) : State β :=
  if s.last = s.avail.idx then s
  else { s with
    last := s.last + 1
    pending := s.pending ++ [⟨s.taken, s.avail.ring (s.last.toNat % NUM)⟩]
    taken := s.taken + 1 }

/-- It carries out a request that it has taken, and writes the status. -/
def serve (it : Item) (s : State β) : State β :=
  if it ∈ s.pending then
    let d0 := s.desc it.head
    let d1 := s.desc d0.next
    let d2 := s.desc d1.next
    match d0.addr, d2.addr with
    | .op k, .status j => { s with
        info := Function.update s.info j { s.info j with status := 0 }
        done := s.done ++ [(it.n, ⟨(s.ops k).type, (s.ops k).sector, d1.addr⟩)]
        pending := s.pending.erase it
        served := it :: s.served }
    | _, _ => s
  else s

/-- It enters the head in the used ring. -/
def fill (it : Item) (s : State β) : State β :=
  if it ∈ s.served then
    { s with
      used.ring := Function.update s.used.ring (s.next.toNat % NUM) it.head
      next := s.next + 1
      served := s.served.erase it
      filled := s.filled ++ [it.n] }
  else s

/-- It counts an entry. -/
def flush (s : State β) : State β :=
  if s.used.idx = s.next then s
  else { s with used.idx := s.used.idx + 1, flushed := s.flushed + 1 }

/-! ### Runs -/

inductive Act (β : Type) where
  | call (b : β) (r : Request)
  | go (b : β)
  /-- an interrupt handler acquires the lock -/
  | intr
  | handle
  | take
  | serve (it : Item)
  | fill (it : Item)
  | flush

def step (s : State β) : Act β → Except Panic (State β)
  | .call b r => pure (match s.pc b with
    | .outside => s.goto b (.alloc r)
    | _ => s)
  | .go b => go b s
  | .intr => pure (if s.vdisk_lock = none then { s with vdisk_lock := some .intr } else s)
  | .handle => handle s
  | .take => pure (take s)
  | .serve it => pure (serve it s)
  | .fill it => pure (fill it s)
  | .flush => pure (flush s)

def run (s : State β) (as : List (Act β)) : Except Panic (State β) := as.foldlM step s

end Xv6.Virtio
