import Xv6.Riscv
import Xv6.Wp

/-!
The physical page allocator (`kalloc.c`) with its copy-on-write reference counts.

The free list is kept as a list of page addresses; the source threads it through the first
word of each free page, which nothing else reads. `temp` is the array of reference counts,
indexed by page number.

`Acct L s U` is the accounting every later proof is about: `U p` references to page `p` are
outstanding, `temp` records exactly that number, and the free list holds exactly the pages
without a reference, each once. Each allocator function is specified by what it does to `U`.
-/

namespace Xv6.Kalloc

open Xv6.ByteMem Xv6.Riscv Xv6.Wp

/-- Where the kernel stops: the panics of the source, and `diverge` for a loop that would not
end. -/
inductive Panic
  | increment_problem      -- "Increment problem"
  | kfree_error            -- "Error"
  | walk                   -- "walk"
  | mappages_size          -- "mappages: size"
  | mappages_remap         -- "mappages: remap"
  | uvmunmap_not_aligned   -- "uvmunmap: not aligned"
  | uvmunmap_walk          -- "uvmunmap: walk"
  | uvmunmap_not_mapped    -- "uvmunmap: not mapped"
  | uvmunmap_not_a_leaf    -- "uvmunmap: not a leaf"
  | uvmfirst               -- "uvmfirst: more than a page"
  | freewalk_leaf          -- "freewalk: leaf"
  | uvmcopy_pte            -- "uvmcopy: pte should exist"
  | uvmcopy_not_present    -- "uvmcopy: page not present"
  | cow_pte                -- "custom_cow: pte should exist"
  | cow_not_present        -- "custom_cow: Page not present"
  | uvmclear               -- "uvmclear"
  | loadseg                -- "loadseg: address should exist"
  | init_exiting           -- "init exiting"
  | kerneltrap             -- "kerneltrap", on a store through a null pointer
  | diverge
  deriving DecidableEq

/-- Physical memory, `kmem.freelist` and `temp`. -/
structure KState where
  mem : Mem
  freelist : List ℕ
  temp : ℕ → ℤ

abbrev K := StateT KState (Except Panic)

/-- What the linker and the boot code decide: the first address after the kernel, the page of
`trampoline.S`, and how many pages the kernel takes for itself before the first process
(kernel page table, kernel stacks, disk rings). Sixteen pages are more than `userinit` needs. -/
structure Layout where
  endp : ℕ
  trampoline : ℕ
  nkern : ℕ
  tramp_aligned : trampoline % PGSIZE = 0
  tramp_ge : KERNBASE ≤ trampoline
  tramp_lt : trampoline + PGSIZE ≤ endp
  end_le : endp ≤ PHYSTOP
  room : PGROUNDUP endp + (nkern + 16) * PGSIZE ≤ PHYSTOP

variable (L : Layout)

/-- A page of the allocator's range. -/
def InRange (p : ℕ) : Prop := p % PGSIZE = 0 ∧ PGROUNDUP L.endp ≤ p ∧ p < PHYSTOP

instance (p : ℕ) : Decidable (InRange L p) := inferInstanceAs (Decidable (_ ∧ _ ∧ _))

def ld (a : ℕ) : K Word := fun s => .ok (ld64 s.mem a, s)
def st (a : ℕ) (v : Word) : K Unit := modify fun s => { s with mem := st64 s.mem a v }
def memset (a : ℕ) (c : Byte) (n : ℕ) : K Unit :=
  modify fun s => { s with mem := fill s.mem a c n }
def memmove (dst src n : ℕ) : K Unit :=
  modify fun s => { s with mem := move s.mem dst src n }

def check_and_increment (pno : ℕ) : K Unit := do
  let s ← get
  if s.temp pno < 0 then throw .increment_problem
  else set { s with temp := Function.update s.temp pno (s.temp pno + 1) }

def kfree (pa : ℕ) : K Unit := do
  let s ← get
  let pno := pa / PGSIZE
  let flag := s.temp pno
  if 0 < flag then
    set { s with temp := Function.update s.temp pno (s.temp pno - 1) }
    if 1 < flag then pure ()
    else
      memset pa 1 PGSIZE
      modify fun s => { s with freelist := pa :: s.freelist }
  else throw .kfree_error

/-- The address of a page, or `0`. -/
def kalloc : K ℕ := do
  let s ← get
  match s.freelist with
  | [] => pure 0
  | r :: rest =>
    set { s with freelist := rest }
    memset r 5 PGSIZE
    check_and_increment (r / PGSIZE)
    pure r

def freerangeLoop (pa_end : ℕ) : ℕ → ℕ → K Unit
  | 0, _ => throw .diverge
  | n + 1, p =>
    if p + PGSIZE ≤ pa_end then do
      kfree p
      freerangeLoop pa_end n (p + PGSIZE)
    else pure ()

def freerange (pa_start pa_end : ℕ) : K Unit :=
  freerangeLoop pa_end (pa_end / PGSIZE + 1) (PGROUNDUP pa_start)

def kinit : K Unit := do
  modify fun s => { s with temp := fun _ => 1 }
  freerange L.endp PHYSTOP

@[simp] lemma wp_ld {Q : Word → KState → Prop} {E : Panic → Prop} {s : KState} (a : ℕ) :
    wp (ld a) Q E s ↔ Q (ld64 s.mem a) s := Iff.rfl

@[simp] lemma wp_st {Q : Unit → KState → Prop} {E : Panic → Prop} {s : KState} (a : ℕ)
    (v : Word) : wp (st a v) Q E s ↔ Q () { s with mem := st64 s.mem a v } := Iff.rfl

@[simp] lemma wp_memset {Q : Unit → KState → Prop} {E : Panic → Prop} {s : KState} (a : ℕ)
    (c : Byte) (n : ℕ) :
    wp (memset a c n) Q E s ↔ Q () { s with mem := fill s.mem a c n } := Iff.rfl

@[simp] lemma wp_memmove {Q : Unit → KState → Prop} {E : Panic → Prop} {s : KState}
    (dst src n : ℕ) :
    wp (memmove dst src n) Q E s ↔ Q () { s with mem := move s.mem dst src n } := Iff.rfl

/-! ### The accounting -/

/-- One reference to `p`. -/
def ref (p : ℕ) : ℕ → ℕ := fun q => if q = p then 1 else 0

@[simp] lemma ref_self (p : ℕ) : ref p p = 1 := if_pos rfl
lemma ref_ne {p q : ℕ} (h : q ≠ p) : ref p q = 0 := if_neg h

/-- `U` counts the outstanding references, and the allocator agrees. -/
structure Acct (s : KState) (U : ℕ → ℕ) : Prop where
  nodup : s.freelist.Nodup
  mem_free : ∀ p, p ∈ s.freelist ↔ InRange L p ∧ U p = 0
  count : ∀ p, InRange L p → s.temp (p / PGSIZE) = U p
  range : ∀ p, U p ≠ 0 → InRange L p

/-- The bytes of every referenced page are unchanged. -/
def Keeps (U : ℕ → ℕ) (s s' : KState) : Prop :=
  ∀ x, U (PGROUNDDOWN x) ≠ 0 → s'.mem x = s.mem x

variable {L} {s s' s'' : KState} {U V : ℕ → ℕ} {p : ℕ}

lemma Keeps.refl : Keeps U s s := fun _ _ => rfl

lemma Keeps.trans (h : Keeps U s s') (h' : Keeps V s' s'') (hUV : ∀ p, U p ≠ 0 → V p ≠ 0) :
    Keeps U s s'' := fun x hx => (h' x (hUV _ hx)).trans (h x hx)

lemma Keeps.mono (h : Keeps V s s') (hUV : ∀ p, U p ≠ 0 → V p ≠ 0) : Keeps U s s' :=
  fun x hx => h x (hUV _ hx)

lemma Acct.congr (h : Acct L s U) (hUV : ∀ p, V p = U p) : Acct L s V := by
  have : V = U := funext hUV
  rw [this]; exact h

lemma Acct.of_mem (h : Acct L s U) (hf : s'.freelist = s.freelist) (ht : s'.temp = s.temp) :
    Acct L s' U := by
  obtain ⟨h1, h2, h3, h4⟩ := h
  exact ⟨by rw [hf]; exact h1, by rw [hf]; exact h2, by rw [ht]; exact h3, h4⟩

lemma endp_le_lo (L : Layout) : L.endp ≤ PGROUNDUP L.endp := by
  have h := L.end_le
  unfold PHYSTOP KERNBASE at h
  unfold PGROUNDUP u64 PGSIZE
  omega

lemma InRange.pos (h : InRange L p) : 0 < p := by
  have h1 := L.tramp_ge
  have h2 := L.tramp_lt
  have h3 := endp_le_lo L
  have h4 := h.2.1
  unfold KERNBASE at h1
  omega

lemma InRange.lt (h : InRange L p) : p < 2 ^ 64 :=
  lt_trans h.2.2 (by unfold PHYSTOP KERNBASE; norm_num)

lemma pageno_inj {q : ℕ} (hp : p % PGSIZE = 0) (hq : q % PGSIZE = 0)
    (h : p / PGSIZE = q / PGSIZE) : p = q := by
  unfold PGSIZE at *; omega

lemma update_pageno {α : Type*} {q : ℕ} (f : ℕ → α) (v : α) (hp : p % PGSIZE = 0)
    (hq : q % PGSIZE = 0) :
    Function.update f (p / PGSIZE) v (q / PGSIZE) = if q = p then v else f (q / PGSIZE) := by
  split_ifs with h
  · subst h; exact Function.update_self ..
  · exact Function.update_of_ne (fun e => h (pageno_inj hq hp e)) _ _

lemma rounddown_eq {x : ℕ} (hp : p % PGSIZE = 0) : PGROUNDDOWN x = p ↔ p ≤ x ∧ x < p + PGSIZE := by
  unfold PGROUNDDOWN PGSIZE at *; omega

lemma fill_keeps {c : Byte} (hp : p % PGSIZE = 0) (hU : U p = 0) :
    Keeps U s { s with mem := fill s.mem p c PGSIZE } := by
  intro x hx
  have hne : PGROUNDDOWN x ≠ p := by rintro rfl; exact hx hU
  rw [Ne, rounddown_eq hp] at hne
  exact fill_out (by omega)

/-! ### The allocator's functions -/

lemma check_and_increment_spec {E : Panic → Prop} (h : Acct L s U) (hp : U p ≠ 0) :
    wp (check_and_increment (p / PGSIZE))
      (fun _ s' => Acct L s' (U + ref p) ∧ s'.mem = s.mem ∧ s'.freelist = s.freelist) E s := by
  have hr := h.range p hp
  have hc := h.count p hr
  unfold check_and_increment
  simp only [wp_bind, wp_get, wp_ite, wp_throw, wp_set]
  rw [if_neg (by omega)]
  refine ⟨⟨h.nodup, ?_, ?_, ?_⟩, trivial, trivial⟩
  · intro q
    rw [h.mem_free q]
    by_cases hq : q = p
    · subst hq; simp [hp]
    · simp [ref_ne hq]
  · intro q hq
    dsimp only
    rw [update_pageno _ _ hr.1 hq.1]
    by_cases hqp : q = p
    · subst hqp; simp [hc]
    · simp [hqp, h.count q hq, ref_ne hqp]
  · intro q hq
    by_cases hqp : q = p
    · subst hqp; exact hr
    · exact h.range q (by simpa [ref_ne hqp] using hq)

/-- **`kalloc`** takes the first free page, which nobody referenced, or returns `0` when
there is none. -/
lemma kalloc_spec {E : Panic → Prop} (h : Acct L s U) :
    wp kalloc (fun r s' =>
      (r = 0 ∧ s' = s ∧ s.freelist = []) ∨
      (InRange L r ∧ U r = 0 ∧ Acct L s' (U + ref r) ∧ Keeps U s s' ∧
        s.freelist = r :: s'.freelist)) E s := by
  unfold kalloc
  simp only [wp_bind, wp_get]
  rcases hf : s.freelist with _ | ⟨r, rest⟩
  · exact Or.inl ⟨rfl, rfl, rfl⟩
  · have hr := (h.mem_free r).mp (by rw [hf]; simp)
    have hnd := h.nodup
    rw [hf, List.nodup_cons] at hnd
    simp only [wp_bind, wp_set, wp_memset, wp_pure, check_and_increment, wp_get, wp_ite, wp_throw]
    have hc := h.count r hr.1
    rw [hr.2] at hc
    rw [if_neg (by simp [hc])]
    refine Or.inr ⟨hr.1, hr.2, ⟨hnd.2, ?_, ?_, ?_⟩, fill_keeps hr.1.1 hr.2, trivial⟩
    · intro q
      have hq := h.mem_free q
      rw [hf, List.mem_cons] at hq
      by_cases hqr : q = r
      · subst hqr; simp [hnd.1]
      · simpa [hqr, ref_ne hqr] using hq
    · intro q hq
      dsimp only
      rw [update_pageno _ _ hr.1.1 hq.1]
      by_cases hqr : q = r
      · subst hqr; simp [hc, hr.2]
      · simp [hqr, h.count q hq, ref_ne hqr]
    · intro q hq
      by_cases hqr : q = r
      · subst hqr; exact hr.1
      · exact h.range q (by simpa [ref_ne hqr] using hq)

/-- **`kfree`** drops one reference; the page goes to the free list with the last one. -/
lemma kfree_spec {E : Panic → Prop} (h : Acct L s (U + ref p)) :
    wp (kfree p) (fun _ s' => Acct L s' U ∧ Keeps U s s' ∧
      s'.freelist = if U p = 0 then p :: s.freelist else s.freelist) E s := by
  have hr := h.range p (by simp)
  have hc := h.count p hr
  simp only [Pi.add_apply, ref_self] at hc
  have hcnt : ∀ q, InRange L q →
      Function.update s.temp (p / PGSIZE) (s.temp (p / PGSIZE) - 1) (q / PGSIZE) = U q := by
    intro q hq
    rw [update_pageno _ _ hr.1 hq.1]
    by_cases hqp : q = p
    · subst hqp; simp [hc]
    · simp [hqp, h.count q hq, ref_ne hqp]
  have hrange : ∀ q, U q ≠ 0 → InRange L q := fun q hq => h.range q (by simp [hq])
  unfold kfree
  simp only [wp_bind, wp_get, wp_ite, wp_throw, wp_set, wp_pure, wp_memset, wp_modify]
  rw [if_pos (by omega)]
  split_ifs with h1 h2 h2
  · omega
  · refine ⟨⟨h.nodup, ?_, hcnt, hrange⟩, Keeps.refl, rfl⟩
    intro q
    rw [h.mem_free q]
    by_cases hqp : q = p
    · subst hqp; simp [h2]
    · simp [ref_ne hqp]
  · have hnf : p ∉ s.freelist := fun hm => by simpa using ((h.mem_free p).mp hm).2
    refine ⟨⟨List.nodup_cons.mpr ⟨hnf, h.nodup⟩, ?_, hcnt, hrange⟩, fill_keeps hr.1 h2, rfl⟩
    intro q
    rw [List.mem_cons, h.mem_free q]
    by_cases hqp : q = p
    · subst hqp; simp [h2, hr]
    · simp [hqp, ref_ne hqp]
  · omega

/-! ### Memory that the allocator does not manage -/

/-- The pages that the allocator never hands out. -/
def outside (L : Layout) : ℕ → ℕ := fun q => if InRange L q then 0 else 1

lemma outside_inRange (hp : InRange L p) : outside L p = 0 := if_pos hp

lemma kalloc_outside (h : Acct L s U) :
    wp kalloc (fun _ s' => Keeps (outside L) s s') (fun _ => True) s := by
  unfold kalloc
  simp only [wp_bind, wp_get]
  rcases hf : s.freelist with _ | ⟨r, rest⟩
  · exact Keeps.refl
  · have hr := (h.mem_free r).mp (by rw [hf]; simp)
    simp only [wp_bind, wp_set, wp_memset, wp_pure, check_and_increment, wp_get, wp_ite, wp_throw]
    split_ifs
    exact fill_keeps hr.1.1 (outside_inRange hr.1)

lemma kfree_outside (hp : InRange L p) :
    wp (kfree p) (fun _ s' => Keeps (outside L) s s') (fun _ => True) s := by
  unfold kfree
  simp only [wp_bind, wp_get, wp_ite, wp_throw, wp_set, wp_pure, wp_memset, wp_modify]
  split_ifs
  · exact Keeps.refl
  · exact fill_keeps hp.1 (outside_inRange hp)

/-! ### Boot -/

/-- The pages from `p` on have not been handed to the allocator yet. -/
def fromPage (L : Layout) (p : ℕ) : ℕ → ℕ := fun q => if InRange L q ∧ p ≤ q then 1 else 0

lemma fromPage_succ (hp : p % PGSIZE = 0) (hlo : PGROUNDUP L.endp ≤ p) (hhi : p < PHYSTOP) :
    fromPage L p = fromPage L (p + PGSIZE) + ref p := by
  funext q
  have hr : InRange L p := ⟨hp, hlo, hhi⟩
  simp only [fromPage, ref, Pi.add_apply]
  by_cases hqp : q = p
  · subst hqp; simp [hr, PGSIZE]
  · have hiff : (InRange L q ∧ p ≤ q) ↔ (InRange L q ∧ p + PGSIZE ≤ q) := by
      refine and_congr_right fun hq => ?_
      have := hq.1
      unfold PGSIZE at *
      omega
    simp [hqp, hiff]

lemma fromPage_end (h : PHYSTOP < p + PGSIZE) (hp : p % PGSIZE = 0) : fromPage L p = 0 := by
  funext q
  refine if_neg fun hq => ?_
  have h1 := hq.1.1
  have h2 := hq.1.2.2
  have h3 := hq.2
  unfold PHYSTOP KERNBASE PGSIZE at *
  omega

lemma freerangeLoop_spec {E : Panic → Prop} (n : ℕ) : ∀ {s : KState} {p : ℕ},
    p % PGSIZE = 0 → PGROUNDUP L.endp ≤ p → PHYSTOP < p + n * PGSIZE → 0 < n →
    Acct L s (fromPage L p) →
    wp (freerangeLoop PHYSTOP n p) (fun _ s' => Acct L s' 0) E s := by
  induction n with
  | zero => intro s p _ _ _ hpos _; omega
  | succ n ih =>
      intro s p hal hlo hn _ h
      unfold freerangeLoop
      simp only [wp_ite, wp_bind, wp_pure]
      split_ifs with hlt
      · have hhi : p < PHYSTOP := by unfold PGSIZE at hlt; omega
        rw [fromPage_succ hal hlo hhi] at h
        refine wp_post (kfree_spec h) fun _ s' hs' => ih ?_ ?_ ?_ ?_ hs'.1
        all_goals unfold PGSIZE at *; omega
      · rw [fromPage_end (by omega) hal] at h
        exact h

lemma lo_aligned (L : Layout) : PGROUNDUP L.endp % PGSIZE = 0 := by
  unfold PGROUNDUP PGSIZE; omega

/-- **`kinit`** leaves every page of the range on the free list and no reference anywhere. -/
lemma kinit_spec {E : Panic → Prop} (h : s.freelist = []) :
    wp (kinit L) (fun _ s' => Acct L s' 0) E s := by
  unfold kinit freerange
  simp only [wp_bind, wp_modify]
  refine freerangeLoop_spec _ (lo_aligned L) le_rfl ?_ (Nat.succ_pos _) ⟨?_, ?_, ?_, ?_⟩
  · unfold PHYSTOP KERNBASE PGSIZE; omega
  · rw [h]; exact List.nodup_nil
  · intro p
    rw [h]
    simp only [List.not_mem_nil, false_iff, not_and]
    intro hp
    simp [fromPage, hp, hp.2.1]
  · intro p hp; simp [fromPage, hp, hp.2.1]
  · intro p hp
    by_contra hc
    exact hp (if_neg fun h => hc h.1)

end Xv6.Kalloc
