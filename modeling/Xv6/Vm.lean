import Xv6.Kalloc

/-!
The virtual-memory functions of `vm.c`.

Pointers are physical addresses, a null pointer is `0`. A `for` or `while` loop whose bound is
not a constant carries fuel that covers every iteration its guard admits; running out of it is
the panic `diverge`.
-/

namespace Xv6.Vm

open Xv6.ByteMem Xv6.Riscv Xv6.Kalloc

/-- The loop of `walk`, from table `pagetable` of the given level down to level 0. -/
def walkLoop (va : ℕ) (alloc : Bool) : ℕ → ℕ → K ℕ
  | 0, pagetable => pure (pagetable + 8 * PX 0 va)
  | level + 1, pagetable => do
    let pte := pagetable + 8 * PX (level + 1) va
    let e ← ld pte
    if has e PTE_V then walkLoop va alloc level (PTE2PA e)
    else if alloc then do
      let q ← kalloc
      if q = 0 then pure 0
      else do
        memset q 0 PGSIZE
        st pte (PA2PTE q ||| PTE_V)
        walkLoop va alloc level q
    else pure 0

/-- The address of the level-0 entry for `va`, or `0`. -/
def walk (pagetable va : ℕ) (alloc : Bool) : K ℕ :=
  if MAXVA ≤ va then throw .walk else walkLoop va alloc 2 pagetable

def walkaddr (pagetable va : ℕ) : K ℕ :=
  if MAXVA ≤ va then pure 0
  else do
    let pte ← walk pagetable va false
    if pte = 0 then pure 0
    else do
      let e ← ld pte
      if !has e PTE_V then pure 0
      else if !has e PTE_U then pure 0
      else pure (PTE2PA e)

def mappagesLoop (pagetable last : ℕ) (perm : Word) : ℕ → ℕ → ℕ → K ℤ
  | 0, _, _ => throw .diverge
  | n + 1, a, pa => do
    let pte ← walk pagetable a true
    if pte = 0 then pure (-1)
    else do
      let e ← ld pte
      if has e PTE_V then throw .mappages_remap
      else do
        st pte (PA2PTE pa ||| perm ||| PTE_V)
        if a = last then pure 0
        else mappagesLoop pagetable last perm n (u64 (a + PGSIZE)) (u64 (pa + PGSIZE))

def mappages (pagetable va size pa : ℕ) (perm : Word) : K ℤ :=
  if size = 0 then throw .mappages_size
  else
    let a := PGROUNDDOWN va
    let last := PGROUNDDOWN (u64 (va + size - 1))
    mappagesLoop pagetable last perm (sub64 last a / PGSIZE + 1) a pa

/-- One iteration of `uvmunmap`. -/
def uvmunmapPage (pagetable a : ℕ) (do_free : Bool) : K Unit := do
  let pte ← walk pagetable a false
  if pte = 0 then throw .uvmunmap_walk
  else do
    let e ← ld pte
    if !has e PTE_V then throw .uvmunmap_not_mapped
    else if PTE_FLAGS e = PTE_V then throw .uvmunmap_not_a_leaf
    else do
      if do_free then kfree (PTE2PA e) else pure ()
      st pte 0

def uvmunmapLoop (pagetable bound : ℕ) (do_free : Bool) : ℕ → ℕ → K Unit
  | 0, _ => throw .diverge
  | n + 1, a =>
    if a < bound then do
      uvmunmapPage pagetable a do_free
      uvmunmapLoop pagetable bound do_free n (u64 (a + PGSIZE))
    else pure ()

def uvmunmap (pagetable va npages : ℕ) (do_free : Bool) : K Unit :=
  if va % PGSIZE ≠ 0 then throw .uvmunmap_not_aligned
  else
    let bound := u64 (va + u64 (npages * PGSIZE))
    uvmunmapLoop pagetable bound do_free (bound / PGSIZE + 1) va

def uvmcreate : K ℕ := do
  let pagetable ← kalloc
  if pagetable = 0 then pure 0
  else do
    memset pagetable 0 PGSIZE
    pure pagetable

/-- The result of `kalloc` is not tested: a null page is a store through a null pointer. -/
def uvmfirst (pagetable : ℕ) (src : List Byte) : K Unit :=
  if PGSIZE ≤ src.length then throw .uvmfirst
  else do
    let mem ← kalloc
    if mem = 0 then throw .kerneltrap
    else do
      memset mem 0 PGSIZE
      let _ ← mappages pagetable 0 PGSIZE mem (PTE_W ||| PTE_R ||| PTE_X ||| PTE_U)
      modify fun s => { s with mem := put s.mem mem src }

def uvmdealloc (pagetable oldsz newsz : ℕ) : K ℕ :=
  if oldsz ≤ newsz then pure oldsz
  else do
    if PGROUNDUP newsz < PGROUNDUP oldsz then
      let npages := toInt ((PGROUNDUP oldsz - PGROUNDUP newsz) / PGSIZE)
      uvmunmap pagetable (PGROUNDUP newsz) (intU64 npages) true
    else pure ()
    pure newsz

def uvmallocLoop (pagetable oldsz newsz : ℕ) (xperm : Word) : ℕ → ℕ → K ℕ
  | 0, _ => throw .diverge
  | n + 1, a =>
    if a < newsz then do
      let mem ← kalloc
      if mem = 0 then do
        let _ ← uvmdealloc pagetable a oldsz
        pure 0
      else do
        memset mem 0 PGSIZE
        let r ← mappages pagetable a PGSIZE mem (PTE_R ||| PTE_U ||| xperm)
        if r ≠ 0 then do
          kfree mem
          let _ ← uvmdealloc pagetable a oldsz
          pure 0
        else uvmallocLoop pagetable oldsz newsz xperm n (u64 (a + PGSIZE))
    else pure newsz

def uvmalloc (pagetable oldsz newsz : ℕ) (xperm : Word) : K ℕ :=
  if newsz < oldsz then pure oldsz
  else
    let oldsz := PGROUNDUP oldsz
    uvmallocLoop pagetable oldsz newsz xperm (newsz / PGSIZE + 2) oldsz

/-- The loop of `freewalk` over the entries from `i` on, with the recursive call `rec`. -/
def freewalkLoop (rec : ℕ → K Unit) (pagetable : ℕ) : ℕ → ℕ → K Unit
  | 0, _ => pure ()
  | n + 1, i => do
    let pte ← ld (pagetable + 8 * i)
    if has pte PTE_V && !has pte (PTE_R ||| PTE_W ||| PTE_X) then do
      rec (PTE2PA pte)
      st (pagetable + 8 * i) 0
      freewalkLoop rec pagetable n (i + 1)
    else if has pte PTE_V then throw .freewalk_leaf
    else freewalkLoop rec pagetable n (i + 1)

def freewalkAux : ℕ → ℕ → K Unit
  | 0, _ => throw .diverge
  | depth + 1, pagetable => do
    freewalkLoop (freewalkAux depth) pagetable 512 0
    kfree pagetable

/-- A page table has three levels. -/
def freewalk (pagetable : ℕ) : K Unit := freewalkAux 3 pagetable

def uvmfree (pagetable sz : ℕ) : K Unit := do
  if 0 < sz then uvmunmap pagetable 0 (PGROUNDUP sz / PGSIZE) true else pure ()
  freewalk pagetable

def uvmcopyLoop (old new sz : ℕ) : ℕ → ℕ → K ℤ
  | 0, _ => throw .diverge
  | n + 1, i =>
    if i < sz then do
      let pte ← walk old i false
      if pte = 0 then throw .uvmcopy_pte
      else do
        let e ← ld pte
        if !has e PTE_V then throw .uvmcopy_not_present
        else do
          let pa := PTE2PA e
          let flags := if has (PTE_FLAGS e) PTE_W then (PTE_FLAGS e &&& ~~~PTE_W) ||| PTE_COW
            else PTE_FLAGS e
          if has (PTE_FLAGS e) PTE_W then st pte (PA2PTE pa ||| flags) else pure ()
          let r ← mappages new i PGSIZE pa flags
          if r ≠ 0 then do
            uvmunmap new 0 (i / PGSIZE) true
            pure (-1)
          else do
            check_and_increment (pa / PGSIZE)
            uvmcopyLoop old new sz n (u64 (i + PGSIZE))
    else pure 0

def uvmcopy (old new sz : ℕ) : K ℤ := uvmcopyLoop old new sz (sz / PGSIZE + 2) 0

def custom_cow (pt va : ℕ) : K ℤ := do
  let va := PGROUNDDOWN va
  if MAXVA < va then pure 1
  else do
    let pte ← walk pt va false
    if pte = 0 then throw .cow_pte
    else do
      let e ← ld pte
      if !has e PTE_V then throw .cow_not_present
      else if !has e PTE_COW then pure 1
      else do
        let pa := PTE2PA e
        let flags := (PTE_FLAGS e &&& ~~~PTE_COW) ||| PTE_W
        let mem ← kalloc
        if mem = 0 then pure 1
        else do
          memmove mem pa PGSIZE
          st pte (PA2PTE mem ||| flags)
          kfree pa
          pure 0

def uvmclear (pagetable va : ℕ) : K Unit := do
  let pte ← walk pagetable va false
  if pte = 0 then throw .uvmclear
  else do
    let e ← ld pte
    st pte (e &&& ~~~PTE_U)

/-- The part of an iteration of `copyout` after `walkaddr` has found the page `pa0`: the bytes
`bs` go to that page, or to its copy. -/
def copyoutPage (pagetable dstva pa0 : ℕ) (bs : List Byte) : K Unit := do
  let va0 := PGROUNDDOWN dstva
  let write := fun pa => modify fun s : KState => { s with mem := put s.mem (pa + (dstva - va0)) bs }
  let pte ← walk pagetable va0 false
  let e ← ld pte
  if has e PTE_COW then do
    -- the result of `custom_cow` is not looked at
    let _ ← custom_cow pagetable va0
    let pa0 ← walkaddr pagetable va0
    write pa0
  else write pa0

/-- The source bytes are the list `src`; `len` is its length. -/
def copyoutLoop (pagetable : ℕ) : ℕ → ℕ → List Byte → K ℤ
  | 0, _, _ => throw .diverge
  | k + 1, dstva, src =>
    if src.length = 0 then pure 0
    else do
      let va0 := PGROUNDDOWN dstva
      let pa0 ← walkaddr pagetable va0
      if pa0 = 0 then pure (-1)
      else do
        let n := min (PGSIZE - (dstva - va0)) src.length
        copyoutPage pagetable dstva pa0 (src.take n)
        copyoutLoop pagetable k (u64 (va0 + PGSIZE)) (src.drop n)

def copyout (pagetable dstva : ℕ) (src : List Byte) : K ℤ :=
  copyoutLoop pagetable (src.length + 1) dstva src

end Xv6.Vm
