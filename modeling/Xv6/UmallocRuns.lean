import Xv6.UmallocHeap

/-!
Runs of `malloc` and `free` by a program that frees only what it got, and writes only there.
-/

namespace Xv6.UmallocRuns

open Xv6.Riscv Xv6.Umalloc Xv6.UmallocHeap

variable {base : ℕ} {sbrk : List Call → ℤ → Option ℕ} {calls : List Call}

/-! ### Memory from the kernel -/

/-- The address and the units of the blocks obtained so far. -/
def got (calls : List Call) : List (ℕ × ℕ) :=
  calls.filterMap fun c => c.answer.map fun a => (a, c.units)

/-- The byte at `x` is memory obtained from `sbrk`. -/
def Obtained (calls : List Call) (x : ℕ) : Prop := ∃ r ∈ got calls, r.1 ≤ x ∧ x < r.1 + 16 * r.2

def obtainedUnits (calls : List Call) : ℕ := ((got calls).map Prod.snd).sum

/-- The request was a positive `int`. -/
def Fits (c : Call) : Prop := c.amount = 16 * c.units ∧ 0 < c.amount

/-- `sbrk` returns fresh aligned memory at increasing addresses above `base`, or fails; there are less
than `2 ^ 36` bytes, all of physical memory being `2 ^ 27`. -/
structure Sbrk (base : ℕ) (sbrk : List Call → ℤ → Option ℕ) : Prop where
  aligned : ∀ calls n a, sbrk calls n = some a → 16 ∣ a
  above : ∀ calls n a, sbrk calls n = some a → base + 16 ≤ a
  fresh : ∀ calls n a, sbrk calls n = some a → ∀ r ∈ got calls, r.1 + 16 * r.2 ≤ a
  bounded : ∀ calls n a, sbrk calls n = some a → 16 * (obtainedUnits calls : ℤ) + n < 2 ^ 36

/-! ### Runs -/

/-- The allocator and the pointers the program holds, each with the bytes asked for. -/
structure World where
  s : State
  live : List (ℕ × ℕ)

/-- The call returns, with `a`: more fuel makes no difference. -/
def Ends {α : Type} (f : ℕ → Option α) (a : α) : Prop := ∃ F, ∀ fuel, F ≤ fuel → f fuel = some a

inductive Reaches (base : ℕ) (sbrk : List Call → ℤ → Option ℕ) : World → Prop
  | start (m : Mem) : Reaches base sbrk ⟨⟨m, 0, []⟩, []⟩
  | malloc {w : World} {n : ℕ} {s : State} {r : ℕ} (h : Reaches base sbrk w) (hn : n < 2 ^ 32)
      (hm : Ends (fun fuel => malloc sbrk base fuel w.s n) (s, r)) :
      Reaches base sbrk ⟨s, if r = 0 then w.live else (r, n) :: w.live⟩
  | free {w : World} {ap n : ℕ} {s : State} (h : Reaches base sbrk w) (hl : (ap, n) ∈ w.live)
      (hf : Ends (fun fuel => free fuel w.s ap) s) : Reaches base sbrk ⟨s, w.live.erase (ap, n)⟩
  /-- The program writes into its memory. -/
  | store {w : World} {ap n x : ℕ} (h : Reaches base sbrk w) (hl : (ap, n) ∈ w.live)
      (hx : ap ≤ x ∧ x < ap + n) (v : Header) :
      Reaches base sbrk ⟨{ w.s with mem := Function.update w.s.mem x v }, w.live⟩

/-! ### The invariant -/

/-- The header of a block handed out, and one beyond the block. -/
def header (r : ℕ × ℕ) : ℕ := r.1 - 16

/-- The byte at `x` is in the block handed out. -/
def Within (m : Mem) (r : ℕ × ℕ) (x : ℕ) : Prop := header r ≤ x ∧ x < stop m (header r)

/-- Two blocks handed out do not overlap. -/
def Disjoint (m : Mem) (r r' : ℕ × ℕ) : Prop :=
  stop m (header r) ≤ header r' ∨ stop m (header r') ≤ header r

def liveUnits (m : Mem) (live : List (ℕ × ℕ)) : ℕ := (live.map fun r => (m (header r)).size).sum

/-- The free blocks `as` and the blocks handed out share out the memory obtained. -/
structure Heap (base : ℕ) (w : World) (as : List ℕ) : Prop where
  list : FreeList w.s.mem base as
  freep : w.s.freep ∈ as
  aligned : ∀ r ∈ w.live, base + 32 ≤ r.1 ∧ 16 ∣ r.1
  room : ∀ r ∈ w.live, r.1 + r.2 ≤ stop w.s.mem (header r)
  apart : ∀ r ∈ w.live, ∀ x, Within w.s.mem r x → ¬ Covered w.s.mem as x
  disjoint : w.live.Pairwise (Disjoint w.s.mem)
  obtained : ∀ x, (Covered w.s.mem as x ∨ ∃ r ∈ w.live, Within w.s.mem r x) → Obtained w.s.calls x
  units : total w.s.mem as + liveUnits w.s.mem w.live = obtainedUnits w.s.calls
  bounded : obtainedUnits w.s.calls < 2 ^ 32

variable {w : World} {as as' : List ℕ} {m' : Mem} {bp p nu n ap : ℕ} {r : ℕ × ℕ} {s : State}

lemma Heap.header_eq (h : Heap base w as) (hr : r ∈ w.live) :
    header r + 16 = r.1 ∧ base + 16 ≤ header r ∧ 16 ∣ header r := by
  obtain ⟨h1, h2⟩ := h.aligned r hr
  unfold header
  omega

lemma Heap.size_pos (h : Heap base w as) (hr : r ∈ w.live) : 0 < (w.s.mem (header r)).size := by
  have h1 := h.room r hr
  obtain ⟨h2, -, -⟩ := h.header_eq hr
  unfold stop at h1
  omega

lemma Heap.header_notin (h : Heap base w as) (hr : r ∈ w.live) : header r ∉ as := by
  intro h1
  obtain ⟨-, h2, -⟩ := h.header_eq hr
  have hpos := h.size_pos hr
  have hin : header r < stop w.s.mem (header r) := by
    unfold stop
    omega
  exact h.apart r hr (header r) ⟨le_rfl, hin⟩ ⟨header r, h1, le_rfl, hin⟩

lemma disjoint_comm {m : Mem} {r r' : ℕ × ℕ} : Disjoint m r r' → Disjoint m r' r := Or.symm

lemma disjoint_within {m : Mem} {r r' : ℕ × ℕ} {x : ℕ} (h : Disjoint m r r') (h1 : Within m r x) :
    ¬ Within m r' x := by
  rintro ⟨h2, h3⟩
  obtain ⟨h4, h5⟩ := h1
  rcases h with h | h <;> omega

lemma within_congr {m : Mem} (h : m' (header r) = m (header r)) (x : ℕ) :
    Within m' r x ↔ Within m r x := by
  unfold Within
  rw [stop_congr h]

lemma apart_of_covered {m : Mem} (hlist : ∀ a ∈ as, a ≠ base → 0 < (m a).size) (hb : base ≤ bp)
    (hbase : (m base).size = 0) (hpos : 0 < (m bp).size)
    (h : ∀ x, bp ≤ x → x < stop m bp → ¬ Covered m as x) : Apart m bp as := by
  intro a ha
  by_contra hno
  push Not at hno
  by_cases hab : a = base
  · rw [hab] at hno
    unfold stop at hno
    rw [hbase] at hno
    omega
  · have hpa := hlist a ha hab
    rcases Nat.le_total a bp with h1 | h1
    · exact h bp le_rfl (by unfold stop; omega) ⟨a, ha, h1, hno.1⟩
    · refine h a h1 hno.2 ⟨a, ha, le_rfl, ?_⟩
      unfold stop
      omega

/-! ### `free` -/

lemma Heap.focus (h : Heap base w as) (hr : r ∈ w.live) :
    (∀ r' ∈ w.live.erase r, r' ∈ w.live ∧ Disjoint w.s.mem r r') ∧
    (w.live.erase r).Pairwise (Disjoint w.s.mem) ∧
    liveUnits w.s.mem w.live = (w.s.mem (header r)).size + liveUnits w.s.mem (w.live.erase r) := by
  have hperm := List.perm_cons_erase hr
  obtain ⟨h1, h2⟩ := List.pairwise_cons.mp
    ((hperm.pairwise_iff disjoint_comm).mp h.disjoint)
  refine ⟨fun r' hr' => ⟨List.mem_of_mem_erase hr', h1 r' hr'⟩, h2, ?_⟩
  unfold liveUnits
  rw [(hperm.map _).sum_eq, List.map_cons, List.sum_cons]

/-- **`free` keeps the heap**, and returns. -/
lemma Heap.free (h : Heap base w as) (hr : (ap, n) ∈ w.live) :
    ∃ s as', Ends (fun fuel => Umalloc.free fuel w.s ap) s ∧
      Heap base ⟨s, w.live.erase (ap, n)⟩ as' ∧ s.calls = w.s.calls := by
  set r := (ap, n) with hrdef
  obtain ⟨hap, habove, h16⟩ := h.header_eq hr
  have hpos := h.size_pos hr
  obtain ⟨hrest, hdisj, hunits⟩ := h.focus hr
  have hlist := h.list
  have hu := h.units
  have hb := h.bounded
  have hapart : Apart w.s.mem (header r) as :=
    apart_of_covered (fun a ha hne => (hlist.block a ha hne).2.1) (by omega) hlist.base_size hpos
      fun x h1 h2 => h.apart r hr x ⟨h1, h2⟩
  obtain ⟨m', p, as', hf, hfree⟩ := free_spec hlist h.freep habove hpos h16 hapart (by omega)
  rw [show header r + 16 = ap from hap] at hfree
  refine ⟨_, as', ⟨as.length, hfree⟩, ?_, rfl⟩
  -- the other blocks keep their headers
  have hkeep : ∀ r' ∈ w.live.erase r, m' (header r') = w.s.mem (header r') := fun r' hr' => by
    obtain ⟨h1, h2⟩ := hrest r' hr'
    refine hf.other _ (h.header_notin h1) fun h3 => ?_
    have hpos' := h.size_pos h1
    unfold Disjoint stop at h2
    rw [h3] at h2
    omega
  refine ⟨hf.list, hf.mem, fun r' hr' => h.aligned r' (hrest r' hr').1, fun r' hr' => ?_,
    fun r' hr' x hx => ?_, ?_, fun x hx => ?_, ?_, hb⟩
  · rw [stop_congr (hkeep r' hr')]
    exact h.room r' (hrest r' hr').1
  · rw [within_congr (hkeep r' hr')] at hx
    rw [hf.covered]
    rintro (h1 | h1)
    · exact h.apart r' (hrest r' hr').1 x hx h1
    · exact disjoint_within (hrest r' hr').2 h1 hx
  · refine hdisj.imp_of_mem fun h1 h2 h3 => ?_
    unfold Disjoint at h3 ⊢
    rwa [stop_congr (hkeep _ h1), stop_congr (hkeep _ h2)]
  · refine h.obtained x ?_
    rcases hx with hx | ⟨r', hr', hx⟩
    · rcases (hf.covered x).mp hx with h1 | h1
      · exact Or.inl h1
      · exact Or.inr ⟨r, hr, h1⟩
    · rw [within_congr (hkeep r' hr')] at hx
      exact Or.inr ⟨r', (hrest r' hr').1, hx⟩
  · have hsame : liveUnits m' (w.live.erase r) = liveUnits w.s.mem (w.live.erase r) := by
      unfold liveUnits
      rw [List.map_congr_left fun r' hr' => by rw [hkeep r' hr']]
    dsimp only
    rw [hf.total, hsame]
    omega

/-! ### `malloc` -/

lemma units_eq (hn : n < 2 ^ 32) : units n = (n + 15) / 16 + 1 := by
  unfold units u32
  omega

lemma units_pos (hn : n < 2 ^ 32) : 0 < units n := by
  rw [units_eq hn]
  omega

lemma Heap.keeps (h : Heap base w as) (ht : Taken w.s.mem m' base nu bp p as as') (hnu : 0 < nu)
    (hr : r ∈ w.live) : m' (header r) = w.s.mem (header r) := by
  refine ht.other _ (h.header_notin hr) ?_
  rintro h1
  have hpos := h.size_pos hr
  have hin : Within w.s.mem r (header r) := ⟨le_rfl, by unfold stop; omega⟩
  refine h.apart r hr _ hin ((ht.covered _).mpr (Or.inr ⟨h1 ▸ le_rfl, ?_⟩))
  unfold stop
  rw [ht.size, h1]
  omega

/-- **A block taken off the list is handed out.** -/
lemma Heap.take (h : Heap base w as) (ht : Taken w.s.mem m' base (Umalloc.units n) bp p as as')
    (hn : n < 2 ^ 32) :
    Heap base ⟨{ w.s with mem := m', freep := p }, (bp + 16, n) :: w.live⟩ as' := by
  have hpos := units_pos hn
  have hkeep : ∀ r ∈ w.live, m' (header r) = w.s.mem (header r) := fun r hr => h.keeps ht hpos hr
  have hnew : header (bp + 16, n) = bp := Nat.add_sub_cancel bp 16
  have habove := ht.above
  have h16 := ht.aligned
  refine ⟨ht.list, ht.mem, fun r hr => ?_, fun r hr => ?_, fun r hr x hx => ?_, ?_, fun x hx => ?_,
    ?_, h.bounded⟩
  · rcases List.mem_cons.mp hr with rfl | hr
    · dsimp only
      omega
    · exact h.aligned r hr
  · rcases List.mem_cons.mp hr with rfl | hr
    · rw [hnew]
      unfold stop
      dsimp only
      rw [ht.size, units_eq hn]
      omega
    · rw [stop_congr (hkeep r hr)]
      exact h.room r hr
  · rcases List.mem_cons.mp hr with rfl | hr
    · unfold Within at hx
      rw [hnew] at hx
      exact ht.apart x hx.1 hx.2
    · rw [within_congr (hkeep r hr)] at hx
      exact fun h1 => h.apart r hr x hx ((ht.covered x).mpr (Or.inl h1))
  · refine List.pairwise_cons.mpr ⟨fun r hr => ?_, h.disjoint.imp_of_mem fun h1 h2 h3 => ?_⟩
    · -- the new block was free
      by_contra hno
      unfold Disjoint at hno
      rw [hnew, stop_congr (hkeep r hr)] at hno
      push Not at hno
      have hr0 := h.size_pos hr
      have hsize := ht.size
      have hstop : stop m' bp = bp + 16 * Umalloc.units n := by
        unfold stop
        rw [hsize]
      rcases Nat.le_total bp (header r) with h1 | h1
      · refine h.apart r hr (header r) ⟨le_rfl, by unfold stop; omega⟩ ?_
        exact (ht.covered _).mpr (Or.inr ⟨h1, hno.1⟩)
      · refine h.apart r hr bp ⟨h1, hno.2⟩ ?_
        exact (ht.covered _).mpr (Or.inr ⟨le_rfl, by omega⟩)
    · unfold Disjoint at h3 ⊢
      rwa [stop_congr (hkeep _ h1), stop_congr (hkeep _ h2)]
  · refine h.obtained x ?_
    rcases hx with hx | ⟨r, hr, hx⟩
    · exact Or.inl ((ht.covered x).mpr (Or.inl hx))
    · rcases List.mem_cons.mp hr with rfl | hr
      · unfold Within at hx
        rw [hnew] at hx
        exact Or.inl ((ht.covered x).mpr (Or.inr hx))
      · rw [within_congr (hkeep r hr)] at hx
        exact Or.inr ⟨r, hr, hx⟩
  · have hsame : liveUnits m' w.live = liveUnits w.s.mem w.live := by
      unfold liveUnits
      rw [List.map_congr_left fun r hr => by rw [hkeep r hr]]
    have h1 := ht.total
    have h2 := h.units
    have hcons : liveUnits m' ((bp + 16, n) :: w.live) = Umalloc.units n + liveUnits m' w.live := by
      unfold liveUnits
      rw [List.map_cons, List.sum_cons, hnew, ht.size]
    dsimp only
    rw [hcons, hsame]
    omega

/-- The units `morecore` asks for. -/
def asked (nu : ℕ) : ℕ := if nu < 4096 then 4096 else nu

lemma morecore_fails (hno : sbrk s.calls (toInt (asked nu * 16)) = none) (fuel : ℕ) :
    morecore sbrk fuel s nu =
      some ({ s with calls := s.calls ++ [⟨asked nu, toInt (asked nu * 16), none⟩] }, 0) := by
  unfold morecore
  unfold asked at hno ⊢
  simp only [hno]

/-- The kernel returns memory above all blocks: it is put on the list. -/
lemma morecore_spec (h : FreeList s.mem base as) (hf : s.freep ∈ as)
    (hyes : sbrk s.calls (toInt (asked nu * 16)) = some p) (h16 : 16 ∣ p) (habove : base + 16 ≤ p)
    (hfresh : ∀ a ∈ as, stop s.mem a ≤ p) (hsum : total s.mem as + asked nu < 2 ^ 32) :
    ∃ m' q as', Freed (s.mem.setSize p (asked nu)) m' base p q as as' ∧
      ∀ fuel, as.length ≤ fuel → morecore sbrk fuel s nu =
        some (⟨m', q, s.calls ++ [⟨asked nu, toInt (asked nu * 16), some p⟩]⟩, q) := by
  have hne : ∀ a ∈ as, a ≠ p := fun a ha hap => by
    have h1 := hfresh a ha
    by_cases hb : a = base
    · omega
    · have h2 := (h.block a ha hb).2.1
      unfold stop at h1
      omega
  have hsame : ∀ a ∈ as, s.mem.setSize p (asked nu) a = s.mem a := fun a ha =>
    setSize_other (hne a ha) _ _
  have hsize : (s.mem.setSize p (asked nu) p).size = asked nu := by
    rw [setSize_self]
  have hpos : 0 < asked nu := by
    unfold asked
    split_ifs <;> omega
  have hap : Apart (s.mem.setSize p (asked nu)) p as := fun a ha => Or.inl (by
    rw [stop_congr (hsame a ha)]
    exact hfresh a ha)
  obtain ⟨m', q, as', hfreed, hfree⟩ := free_spec
    (s := { s with
      mem := s.mem.setSize p (asked nu)
      calls := s.calls ++ [⟨asked nu, toInt (asked nu * 16), some p⟩] })
    (h.congr hsame) hf habove (by rw [hsize]; exact hpos) h16 hap
    (by rw [hsize, total_congr hsame]; exact hsum)
  refine ⟨m', q, as', hfreed, fun fuel hfuel => ?_⟩
  have hfree := hfree fuel hfuel
  unfold morecore
  unfold asked at hyes hfree ⊢
  simp only [hyes, hfree]

lemma malloc_finds (sbrk : List Call → ℤ → Option ℕ) (h : FreeList s.mem base as)
    (hf : s.freep ∈ as) (h0 : s.freep ≠ 0)
    (hnu : 0 < units n) (hfit : ∃ x ∈ as, units n ≤ (s.mem x).size) :
    ∃ m' bp q as', Taken s.mem m' base (units n) bp q as as' ∧
      ∀ fuel, as.length ≤ fuel → malloc sbrk base fuel s n =
        some ({ s with mem := m', freep := q }, bp + 16) := by
  rcases h.loop hf sbrk (units n) with ⟨b, hb, hsize, hloop⟩ | ⟨hno, -⟩
  · obtain ⟨m', bp, as', ht, htake⟩ := take_spec h hb rfl hnu hsize
    refine ⟨m', bp, b, as', ht, fun fuel hfuel => ?_⟩
    unfold malloc init
    rw [if_neg h0]
    exact (hloop fuel fuel hfuel).trans (congrArg some htake)
  · obtain ⟨x, hx, hsize⟩ := hfit
    have h1 := hno x hx
    omega

lemma malloc_fails (h : FreeList s.mem base as) (hf : s.freep ∈ as) (h0 : s.freep ≠ 0)
    (hfit : ∀ x ∈ as, (s.mem x).size < units n)
    (hno : sbrk s.calls (toInt (asked (units n) * 16)) = none) (fuel : ℕ)
    (hfuel : as.length + 1 ≤ fuel) : malloc sbrk base fuel s n =
      some ({ s with
        calls := s.calls ++ [⟨asked (units n), toInt (asked (units n) * 16), none⟩] }, 0) := by
  rcases h.loop hf sbrk (units n) with ⟨b, hb, hsize, -⟩ | ⟨-, k, hk, hloop⟩
  · exfalso
    by_cases hlast : next s.mem b ∈ as
    · have h1 := hfit _ hlast
      omega
    · exact hlast (h.next_mem hb)
  · obtain ⟨j, rfl⟩ : ∃ j, fuel = j + k := ⟨fuel - k, by omega⟩
    unfold malloc init
    rw [if_neg h0]
    refine (hloop (j + k) j).trans ?_
    unfold grow
    simp only [morecore_fails hno, if_pos]

/-- A call that finds none asks the kernel, and takes its block from what the kernel returns. -/
lemma malloc_grows (h : FreeList s.mem base as) (hf : s.freep ∈ as) (h0 : 0 < base)
    (hnu : 0 < units n) (hfit : ∀ x ∈ as, (s.mem x).size < units n)
    (hyes : sbrk s.calls (toInt (asked (units n) * 16)) = some p) (h16 : 16 ∣ p)
    (habove : base + 16 ≤ p) (hfresh : ∀ a ∈ as, stop s.mem a ≤ p)
    (hsum : total s.mem as + asked (units n) < 2 ^ 32) :
    ∃ m1 q1 as1 m' bp q as', Freed (s.mem.setSize p (asked (units n))) m1 base p q1 as as1 ∧
      Taken m1 m' base (units n) bp q as1 as' ∧
      Ends (fun fuel => malloc sbrk base fuel s n) (⟨m', q,
        s.calls ++ [⟨asked (units n), toInt (asked (units n) * 16), some p⟩]⟩, bp + 16) := by
  have hmem0 : ∀ {m : Mem} {l : List ℕ} {a : ℕ}, FreeList m base l → a ∈ l → a ≠ 0 := by
    intro m l a hl ha h1
    by_cases hb : a = base
    · omega
    · have := (hl.block a ha hb).1
      omega
  obtain ⟨m1, q1, as1, hfreed, hmore⟩ := morecore_spec h hf hyes h16 habove hfresh hsum
  obtain ⟨x, hx, hgrown⟩ := hfreed.grown
  have hbig : units n ≤ (m1 x).size := by
    rw [setSize_self] at hgrown
    refine le_trans ?_ hgrown
    dsimp only
    unfold asked
    split_ifs <;> omega
  set s1 : State := ⟨m1, q1, s.calls ++ [⟨asked (units n), toInt (asked (units n) * 16), some p⟩]⟩
    with hs1
  rcases hfreed.list.loop (s := s1) hfreed.mem sbrk (units n) with
    ⟨b, hb, hsize, hloop1⟩ | ⟨hno, -⟩
  · obtain ⟨m', bp, as', ht, htake⟩ := take_spec (s := s1) hfreed.list hb rfl hnu hsize
    refine ⟨m1, q1, as1, m', bp, b, as', hfreed, ht, as.length + as1.length + 1, fun fuel hfuel => ?_⟩
    rcases h.loop hf sbrk (units n) with ⟨b', hb', hsize', -⟩ | ⟨-, k, hk, hloop⟩
    · have h1 := hfit _ (h.next_mem hb')
      omega
    · obtain ⟨j, rfl⟩ : ∃ j, fuel = j + k := ⟨fuel - k, by omega⟩
      unfold malloc init
      rw [if_neg (hmem0 h hf)]
      refine (hloop (j + k) j).trans ?_
      unfold grow
      rw [hmore (j + k) (by omega)]
      dsimp only
      rw [if_neg (hmem0 hfreed.list hfreed.mem)]
      exact (hloop1 (j + k) j (by omega)).trans (congrArg some htake)
  · have h1 := hno x hx
    change (m1 x).size < _ at h1
    omega

/-! ### The heap grows -/

lemma got_append (c : Call) : got (calls ++ [c]) =
    got calls ++ (c.answer.map fun a => (a, c.units)).toList := by
  unfold got
  rw [List.filterMap_append]
  rcases hc : c.answer with _ | a <;> simp [hc]

lemma Heap.asks (h : Heap base w as) (u : ℕ) (a : ℤ) :
    Heap base ⟨{ w.s with calls := w.s.calls ++ [⟨u, a, none⟩] }, w.live⟩ as := by
  have hgot : got (w.s.calls ++ [⟨u, a, none⟩]) = got w.s.calls := by
    rw [got_append]
    simp
  refine ⟨h.list, h.freep, h.aligned, h.room, h.apart, h.disjoint, fun x hx => ?_, ?_, ?_⟩
  · unfold Obtained
    rw [hgot]
    exact h.obtained x hx
  · dsimp only [obtainedUnits]
    rw [hgot]
    exact h.units
  · dsimp only [obtainedUnits]
    rw [hgot]
    exact h.bounded

/-- **New memory joins the heap** as free blocks. -/
lemma Heap.grow {u q : ℕ} {a : ℤ} (h : Heap base w as) (habove : base + 16 ≤ p)
    (hfresh : ∀ r ∈ got w.s.calls, r.1 + 16 * r.2 ≤ p)
    (hsum : obtainedUnits w.s.calls + u < 2 ^ 32)
    (hf : Freed (w.s.mem.setSize p u) m' base p q as as') :
    Heap base ⟨⟨m', q, w.s.calls ++ [⟨u, a, some p⟩]⟩, w.live⟩ as' := by
  have hgot : got (w.s.calls ++ [⟨u, a, some p⟩]) = got w.s.calls ++ [(p, u)] := by
    rw [got_append]
    rfl
  have hsumgot : obtainedUnits (w.s.calls ++ [⟨u, a, some p⟩]) = obtainedUnits w.s.calls + u := by
    unfold obtainedUnits
    rw [hgot]
    simp
  have hobt : ∀ x, Obtained (w.s.calls ++ [⟨u, a, some p⟩]) x ↔
      Obtained w.s.calls x ∨ (p ≤ x ∧ x < p + 16 * u) := fun x => by
    unfold Obtained
    rw [hgot]
    simp only [List.mem_append, List.mem_singleton, or_and_right, exists_or, exists_eq_left]
  have hbelow : ∀ x, Obtained w.s.calls x → x < p := by
    rintro x ⟨r, hr, -, h1⟩
    exact h1.trans_le (hfresh r hr)
  -- the blocks the program holds are not touched
  have hwithin : ∀ r ∈ w.live, Within w.s.mem r (header r) := fun r hr =>
    ⟨le_rfl, by have := h.size_pos hr; unfold stop; omega⟩
  have hkeep : ∀ r ∈ w.live, m' (header r) = w.s.mem (header r) := fun r hr => by
    have hne : header r ≠ p :=
      (hbelow (header r) (h.obtained _ (Or.inr ⟨r, hr, hwithin r hr⟩))).ne
    rw [hf.other _ (h.header_notin hr) hne, setSize_other hne]
  have hlist : ∀ a ∈ as, w.s.mem.setSize p u a = w.s.mem a := fun a ha => setSize_other (by
    rintro rfl
    by_cases hb : a = base
    · omega
    · have h1 := (h.list.block a ha hb).2.1
      have h2 := hbelow a (h.obtained _ (Or.inl ⟨a, ha, le_rfl, by unfold stop; omega⟩))
      omega) _ _
  have hnew : ∀ x, Covered m' as' x ↔ Covered w.s.mem as x ∨ (p ≤ x ∧ x < p + 16 * u) := fun x => by
    rw [hf.covered, covered_congr hlist]
    unfold stop
    rw [setSize_self]
  refine ⟨hf.list, hf.mem, h.aligned, fun r hr => ?_, fun r hr x hx => ?_, ?_, fun x hx => ?_, ?_, ?_⟩
  · rw [stop_congr (hkeep r hr)]
    exact h.room r hr
  · rw [within_congr (hkeep r hr)] at hx
    rw [hnew]
    rintro (h1 | h1)
    · exact h.apart r hr x hx h1
    · have h2 := hbelow x (h.obtained x (Or.inr ⟨r, hr, hx⟩))
      omega
  · refine h.disjoint.imp_of_mem fun h1 h2 h3 => ?_
    unfold Disjoint at h3 ⊢
    rwa [stop_congr (hkeep _ h1), stop_congr (hkeep _ h2)]
  · rw [hobt]
    rcases hx with hx | ⟨r, hr, hx⟩
    · exact ((hnew x).mp hx).imp_left fun h1 => h.obtained x (Or.inl h1)
    · rw [within_congr (hkeep r hr)] at hx
      exact Or.inl (h.obtained x (Or.inr ⟨r, hr, hx⟩))
  · have hsame : liveUnits m' w.live = liveUnits w.s.mem w.live := by
      unfold liveUnits
      rw [List.map_congr_left fun r hr => by rw [hkeep r hr]]
    have h1 := hf.total
    rw [total_congr hlist, setSize_self] at h1
    have h2 := h.units
    dsimp only at h1 ⊢
    rw [hsumgot, hsame]
    omega
  · dsimp only
    rw [hsumgot]
    exact hsum

/-- **The first call** of `malloc` makes the list. -/
lemma heap_init (sbrk : List Call → ℤ → Option ℕ) (m : Mem) (hb : 0 < base) :
    Heap base ⟨init base ⟨m, 0, []⟩, []⟩ [base] ∧
      ∀ fuel n, malloc sbrk base fuel ⟨m, 0, []⟩ n =
        malloc sbrk base fuel (init base ⟨m, 0, []⟩) n := by
  have hinit : init base ⟨m, 0, []⟩ = ⟨Function.update m base ⟨base, 0⟩, base, []⟩ := rfl
  rw [hinit]
  refine ⟨⟨⟨rfl, ?_, List.pairwise_singleton _ _, ?_, fun a ha hne => ?_⟩, by simp, by simp, by simp,
    by simp, List.Pairwise.nil, fun x hx => ?_, ?_, by simp [obtainedUnits, got]⟩, fun fuel n => ?_⟩
  · change (Function.update m base ⟨base, 0⟩ base).ptr = base
    rw [Function.update_self]
  · change (Function.update m base ⟨base, 0⟩ base).size = 0
    rw [Function.update_self]
  · exact absurd (List.mem_singleton.mp ha) hne
  · rcases hx with ⟨a, ha, h1, h2⟩ | ⟨r, hr, -⟩
    · rw [List.mem_singleton.mp ha] at h1 h2
      simp [stop] at h2
      omega
    · cases hr
  · simp [total, liveUnits, obtainedUnits, got, Function.update_self]
  · unfold malloc
    rw [hinit]
    unfold init
    rw [if_neg hb.ne']

/-! ### Every run -/

lemma Ends.unique {α : Type} {f : ℕ → Option α} {a b : α} (ha : Ends f a) (hb : Ends f b) :
    a = b := by
  obtain ⟨F, hF⟩ := ha
  obtain ⟨G, hG⟩ := hb
  have h1 := hF (max F G) (Nat.le_max_left F G)
  rw [hG (max F G) (Nat.le_max_right F G)] at h1
  exact (Option.some.inj h1).symm

lemma free_calls {fuel : ℕ} {s s' : State} (h : Umalloc.free fuel s ap = some s') :
    s'.calls = s.calls := by
  unfold Umalloc.free at h
  dsimp only at h
  split at h
  · cases h
  · cases h
    rfl

lemma morecore_calls {fuel : ℕ} {s s' : State} (h : morecore sbrk fuel s nu = some (s', p)) :
    ∃ answer, s'.calls = s.calls ++ [⟨asked nu, toInt (asked nu * 16), answer⟩] ∧
      (answer = none → p = 0) := by
  unfold morecore at h
  dsimp only at h
  split at h
  · cases h
    exact ⟨_, rfl, fun _ => rfl⟩
  · next a hans =>
    split at h
    · cases h
    · next s1 hfree =>
      cases h
      refine ⟨_, free_calls hfree, fun h1 => ?_⟩
      rw [hans] at h1
      cases h1

/-- Calls are recorded for good; all ask for the same, and when one fails null is returned. -/
lemma loop_calls {fuel k : ℕ} : ∀ {n : ℕ} {s s' : State} {a b : ℕ},
    loop sbrk fuel nu n s a b = some (s', k) → ∃ new, s'.calls = s.calls ++ new ∧ ∀ c ∈ new,
      c.units = asked nu ∧ c.amount = toInt (asked nu * 16) ∧ (c.answer = none → k = 0) := by
  intro n
  induction n with
  | zero => intro s s' a b h; cases h
  | succ n ih =>
    intro s s' a b h
    rw [loop] at h
    split_ifs at h with h1 h2
    · unfold Umalloc.take at h
      dsimp only at h
      split_ifs at h <;> cases h <;> exact ⟨[], (List.append_nil _).symm, by simp⟩
    · split at h
      · cases h
      · next s1 p hmore =>
        obtain ⟨answer, hcalls, hnull⟩ := morecore_calls hmore
        split_ifs at h with hp
        · cases h
          exact ⟨_, hcalls, fun c hc => by rw [List.mem_singleton.mp hc]; exact ⟨rfl, rfl, fun _ => rfl⟩⟩
        · obtain ⟨new, hnew, hall⟩ := ih h
          refine ⟨_ :: new, by rw [hnew, hcalls, List.append_assoc]; rfl, fun c hc => ?_⟩
          rcases List.mem_cons.mp hc with rfl | hc
          · exact ⟨rfl, rfl, fun h3 => absurd (hnull h3) hp⟩
          · exact hall c hc
    · exact ih h

/-- A call that finds no block asks the kernel for the units it needs. -/
lemma malloc_calls {r : ℕ} (h : FreeList w.s.mem base as) (hf : w.s.freep ∈ as) (h0 : 0 < base)
    (hfit : ∀ x ∈ as, (w.s.mem x).size < units n)
    (hm : Ends (fun fuel => malloc sbrk base fuel w.s n) (s, r)) :
    ∃ answer, ⟨asked (units n), toInt (asked (units n) * 16), answer⟩ ∈ s.calls := by
  obtain ⟨F, hF⟩ := hm
  have hfreep : w.s.freep ≠ 0 := by
    by_cases hb : w.s.freep = base
    · omega
    · have := (h.block _ hf hb).1
      omega
  rcases h.loop hf sbrk (units n) with ⟨b, hb, hsize, -⟩ | ⟨-, k, hk, hloop⟩
  · have h1 := hfit _ (h.next_mem hb)
    omega
  · have hF := hF (F + k) (by omega)
    unfold malloc init at hF
    rw [if_neg hfreep] at hF
    have hgrow := (hloop (F + k) F).symm.trans hF
    unfold grow at hgrow
    split at hgrow
    · cases hgrow
    · next s1 p hmore =>
      obtain ⟨answer, hcalls, -⟩ := morecore_calls hmore
      refine ⟨answer, ?_⟩
      have hmem : (⟨asked (units n), toInt (asked (units n) * 16), answer⟩ : Call) ∈ s1.calls := by
        rw [hcalls]
        simp
      split_ifs at hgrow with hp
      · cases hgrow
        exact hmem
      · obtain ⟨new, hnew, -⟩ := loop_calls hgrow
        rw [hnew]
        exact List.mem_append_left _ hmem

lemma asked_pos (nu : ℕ) : 0 < asked nu := by
  unfold asked
  split_ifs <;> omega

lemma Heap.below (h : Heap base w as) (habove : base + 16 ≤ p)
    (hfresh : ∀ r ∈ got w.s.calls, r.1 + 16 * r.2 ≤ p) : ∀ a ∈ as, stop w.s.mem a ≤ p := by
  intro a ha
  by_cases hb : a = base
  · rw [hb]
    unfold stop
    rw [h.list.base_size]
    omega
  · by_contra hlt
    have hpos := (h.list.block a ha hb).2.1
    have h1 : Covered w.s.mem as (stop w.s.mem a - 1) := by
      refine ⟨a, ha, ?_, ?_⟩ <;> unfold stop <;> omega
    obtain ⟨r, hr, -, h2⟩ := h.obtained _ (Or.inl h1)
    have h3 := hfresh r hr
    omega

/-- **`malloc` returns** with the heap in order, if the request it makes to the kernel, if any, was a
positive `int`. -/
lemma Heap.malloc (hs : Sbrk base sbrk) (h0 : 0 < base) (h : Heap base w as) (hn : n < 2 ^ 32)
    (hreq : (∀ x ∈ as, (w.s.mem x).size < Umalloc.units n) →
      toInt (asked (Umalloc.units n) * 16) = 16 * asked (Umalloc.units n)) :
    ∃ s r as', Ends (fun fuel => Umalloc.malloc sbrk base fuel w.s n) (s, r) ∧
      Heap base ⟨s, if r = 0 then w.live else (r, n) :: w.live⟩ as' := by
  have hpos := units_pos hn
  have hfreep : w.s.freep ≠ 0 := by
    by_cases hb : w.s.freep = base
    · omega
    · have := (h.list.block _ h.freep hb).1
      omega
  by_cases hfit : ∃ x ∈ as, Umalloc.units n ≤ (w.s.mem x).size
  · obtain ⟨m', bp, q, as', ht, hm⟩ := malloc_finds sbrk h.list h.freep hfreep hpos hfit
    refine ⟨_, _, as', ⟨as.length, hm⟩, ?_⟩
    rw [if_neg (by omega)]
    exact h.take ht hn
  · push Not at hfit
    have hreq := hreq hfit
    have hbase : w.s.calls = w.s.calls := rfl
    cases hans : sbrk w.s.calls (toInt (asked (Umalloc.units n) * 16)) with
    | none =>
      refine ⟨_, 0, as, ⟨as.length + 1, malloc_fails h.list h.freep hfreep hfit hans⟩, ?_⟩
      rw [if_pos rfl]
      exact h.asks _ _
    | some p =>
      have habove := hs.above _ _ _ hans
      have hfresh := hs.fresh _ _ _ hans
      have hbound := hs.bounded _ _ _ hans
      rw [hreq] at hbound
      have hsum : obtainedUnits w.s.calls + asked (Umalloc.units n) < 2 ^ 32 := by omega
      have hunits := h.units
      obtain ⟨m1, q1, as1, m', bp, q, as', hf, ht, hm⟩ := malloc_grows h.list h.freep h0 hpos hfit hans
        (hs.aligned _ _ _ hans) habove (h.below habove hfresh) (by omega)
      refine ⟨_, _, as', hm, ?_⟩
      rw [if_neg (by omega)]
      exact (h.grow habove hfresh hsum hf).take ht hn

/-- What the program writes into its memory leaves the heap alone. -/
lemma Heap.store {x : ℕ} (h : Heap base w as) (hr : (ap, n) ∈ w.live) (hx : ap ≤ x ∧ x < ap + n)
    (v : Header) :
    Heap base ⟨{ w.s with mem := Function.update w.s.mem x v }, w.live⟩ as := by
  obtain ⟨h1, h2, -⟩ := h.header_eq hr
  have hroom := h.room _ hr
  have hin : Within w.s.mem (ap, n) x := ⟨by dsimp only at h1; omega, lt_of_lt_of_le hx.2 hroom⟩
  have hlist : ∀ a ∈ as, Function.update w.s.mem x v a = w.s.mem a := fun a ha => by
    refine Function.update_of_ne ?_ _ _
    rintro rfl
    by_cases hb : a = base
    · dsimp only at h1
      omega
    · have h3 := (h.list.block a ha hb).2.1
      exact h.apart _ hr a hin ⟨a, ha, le_rfl, by unfold stop; omega⟩
  have hkeep : ∀ r ∈ w.live, Function.update w.s.mem x v (header r) = w.s.mem (header r) := by
    intro r hr'
    refine Function.update_of_ne ?_ _ _
    rintro rfl
    by_cases hsame : (ap, n) = r
    · subst hsame
      dsimp only at h1
      omega
    · have hpos := h.size_pos hr'
      have hdis := ((h.focus hr).1 r ((List.mem_erase_of_ne (Ne.symm hsame)).mpr hr')).2
      exact disjoint_within hdis hin ⟨le_rfl, by unfold stop; omega⟩
  have hcov : ∀ y, Covered (Function.update w.s.mem x v) as y ↔ Covered w.s.mem as y := fun y =>
    covered_congr hlist
  refine ⟨h.list.congr hlist, h.freep, h.aligned, fun r hr' => ?_, fun r hr' y hy => ?_, ?_,
    fun y hy => ?_, ?_, h.bounded⟩
  · rw [stop_congr (hkeep r hr')]
    exact h.room r hr'
  · rw [within_congr (hkeep r hr')] at hy
    rw [hcov]
    exact h.apart r hr' y hy
  · refine h.disjoint.imp_of_mem fun h1 h2 h3 => ?_
    unfold Disjoint at h3 ⊢
    rwa [stop_congr (hkeep _ h1), stop_congr (hkeep _ h2)]
  · refine h.obtained y ?_
    rcases hy with hy | ⟨r, hr', hy⟩
    · exact Or.inl ((hcov y).mp hy)
    · rw [within_congr (hkeep r hr')] at hy
      exact Or.inr ⟨r, hr', hy⟩
  · have hsame : liveUnits (Function.update w.s.mem x v) w.live = liveUnits w.s.mem w.live := by
      unfold liveUnits
      rw [List.map_congr_left fun r hr => by rw [hkeep r hr]]
    dsimp only
    rw [total_congr hlist, hsame]
    exact h.units

/-- Before the first call there is no list. -/
def Inv (base : ℕ) (w : World) : Prop :=
  (w.s.freep = 0 ∧ w.live = [] ∧ w.s.calls = []) ∨ ∃ as, Heap base w as

lemma Inv.heap (h0 : 0 < base) (h : Inv base w) (sbrk : List Call → ℤ → Option ℕ) :
    ∃ w0 as, Heap base w0 as ∧ w0.live = w.live ∧ w0.s.calls = w.s.calls ∧
    ∀ fuel n, malloc sbrk base fuel w.s n = malloc sbrk base fuel w0.s n := by
  rcases h with ⟨hf, hl, hc⟩ | ⟨as, h⟩
  · obtain ⟨hheap, hsame⟩ := heap_init sbrk w.s.mem h0
    have hw : w.s = ⟨w.s.mem, 0, []⟩ := by
      rw [← hf, ← hc]
    refine ⟨_, _, hheap, hl.symm, hc.symm, fun fuel n => ?_⟩
    rw [hw]
    exact hsame fuel n
  · exact ⟨w, as, h, rfl, rfl, fun _ _ => rfl⟩

lemma malloc_new {fuel r : ℕ} {s s' : State} (hm : malloc sbrk base fuel s n = some (s', r)) :
    ∃ new, s'.calls = s.calls ++ new ∧ ∀ c ∈ new, c.units = asked (units n) ∧
      c.amount = toInt (asked (units n) * 16) ∧ (c.answer = none → r = 0) := by
  have hcalls : (init base s).calls = s.calls := by
    unfold init
    split_ifs <;> rfl
  rw [← hcalls]
  exact loop_calls hm

lemma malloc_before {r : ℕ} (hm : Ends (fun fuel => malloc sbrk base fuel w.s n) (s, r)) :
    w.s.calls <+: s.calls := by
  obtain ⟨F, hF⟩ := hm
  obtain ⟨new, hnew, -⟩ := malloc_new (hF F le_rfl)
  exact ⟨new, hnew.symm⟩

lemma inv_malloc {r : ℕ} (hs : Sbrk base sbrk) (h0 : 0 < base) (h : Inv base w) (hn : n < 2 ^ 32)
    (hm : Ends (fun fuel => malloc sbrk base fuel w.s n) (s, r)) (hfit : ∀ c ∈ s.calls, Fits c) :
    Inv base ⟨s, if r = 0 then w.live else (r, n) :: w.live⟩ := by
  obtain ⟨w0, as, hheap, hlive, -, hsame⟩ := h.heap h0 sbrk
  simp only [hsame] at hm
  obtain ⟨s', r', as', hm', hheap'⟩ := hheap.malloc hs h0 hn fun hno => by
    obtain ⟨answer, hc⟩ := malloc_calls hheap.list hheap.freep h0 hno hm
    exact (hfit _ hc).1
  cases hm.unique hm'
  rw [hlive] at hheap'
  exact Or.inr ⟨as', hheap'⟩

lemma reaches_inv (hs : Sbrk base sbrk) (h0 : 0 < base) (hr : Reaches base sbrk w) :
    (∀ c ∈ w.s.calls, Fits c) → Inv base w := by
  induction hr with
  | start m => exact fun _ => Or.inl ⟨rfl, rfl, rfl⟩
  | malloc h hn hm ih =>
    intro hfit
    exact inv_malloc hs h0 (ih fun c hc => hfit c ((malloc_before hm).subset hc)) hn hm hfit
  | @free w ap n s h hl hf ih =>
    intro hfit
    obtain ⟨F, hF⟩ := id hf
    have hcalls := free_calls (hF F le_rfl)
    rcases ih fun c hc => hfit c (hcalls ▸ hc) with ⟨-, h1, -⟩ | ⟨as, hheap⟩
    · rw [h1] at hl
      cases hl
    · obtain ⟨s', as', hf', hheap', -⟩ := hheap.free hl
      cases hf.unique hf'
      exact Or.inr ⟨as', hheap'⟩
  | store h hl hx v ih =>
    intro hfit
    rcases ih hfit with ⟨-, h1, -⟩ | ⟨as, hheap⟩
    · rw [h1] at hl
      cases hl
    · exact Or.inr ⟨as, hheap.store hl hx v⟩

lemma toInt_asked (h : 16 * asked nu < 2 ^ 31) : toInt (asked nu * 16) = 16 * asked nu := by
  unfold toInt u32
  rw [Nat.mod_eq_of_lt (by omega), if_pos (by omega)]
  push_cast
  ring

/-- **The user allocator hands out disjoint memory.** Whatever a program does with `malloc`, `free` and
the memory it got, as long as the requests to the kernel are positive `int`s: the free blocks are a
ring through `base` in address order, no two adjacent; every pointer handed out is aligned, with the
bytes asked for inside a block of memory obtained from the kernel that overlaps neither a free block
nor another one handed out; and the units free and handed out are those obtained. The calls return. -/
theorem heap_kept (hs : Sbrk base sbrk) (h0 : 0 < base) (hr : Reaches base sbrk w)
    (hfit : ∀ c ∈ w.s.calls, Fits c) :
    ((w.s.freep = 0 ∧ w.live = [] ∧ w.s.calls = []) ∨ ∃ as, Heap base w as) ∧
    (∀ r ∈ w.live, ∃ s, Ends (fun fuel => free fuel w.s r.1) s) ∧
    ∀ n < 2 ^ 32, 16 * asked (units n) < 2 ^ 31 →
      ∃ s r, Ends (fun fuel => malloc sbrk base fuel w.s n) (s, r) := by
  have hinv := reaches_inv hs h0 hr hfit
  refine ⟨hinv, fun r hl => ?_, fun n hn hreq => ?_⟩
  · rcases hinv with ⟨-, h1, -⟩ | ⟨as, hheap⟩
    · rw [h1] at hl
      cases hl
    · obtain ⟨s, -, hf, -⟩ := hheap.free hl
      exact ⟨s, hf⟩
  · obtain ⟨w0, as, hheap, -, -, hsame⟩ := hinv.heap h0 sbrk
    obtain ⟨s, r, -, hm, -⟩ := hheap.malloc hs h0 hn fun _ => toInt_asked hreq
    refine ⟨s, r, ?_⟩
    simp only [hsame]
    exact hm

/-- A kernel with one region of 64 KiB to give. -/
def oneRegion (calls : List Call) (n : ℤ) : Option ℕ :=
  if calls = [] ∧ n ≤ 65536 then some 8192 else none

lemma oneRegion_sbrk : Sbrk 4096 oneRegion := by
  refine ⟨?_, ?_, ?_, ?_⟩ <;> intro calls n a h <;> unfold oneRegion at h <;> split_ifs at h with hc <;>
    cases h
  · decide
  · decide
  · simp [hc.1, got]
  · simp [hc.1, obtainedUnits, got]
    omega

def clean : Mem := fun _ => ⟨0, 0⟩

/-- After the first `malloc(10)`. -/
def first : State := ((malloc oneRegion 4096 5 ⟨clean, 0, []⟩ 10).getD (⟨clean, 0, []⟩, 0)).1

lemma first_ends : Ends (fun fuel => malloc oneRegion 4096 fuel ⟨clean, 0, []⟩ 10) (first, 73712) := by
  refine ⟨5, fun fuel h => ?_⟩
  obtain ⟨k, rfl⟩ := Nat.exists_eq_add_of_le' h
  rfl

/-- After `malloc(20)`, too. -/
def second : State := ((malloc oneRegion 4096 5 first 20).getD (first, 0)).1

lemma second_ends : Ends (fun fuel => malloc oneRegion 4096 fuel first 20) (second, 73664) := by
  refine ⟨5, fun fuel h => ?_⟩
  obtain ⟨k, rfl⟩ := Nat.exists_eq_add_of_le' h
  rfl

lemma second_calls : second.calls = [⟨4096, 65536, some 8192⟩] := rfl

/-- Two blocks are out, and either can be freed. -/
theorem heap_kept_second :
    (∃ as, Heap 4096 ⟨second, [(73664, 20), (73712, 10)]⟩ as) ∧
    (∃ s, Ends (fun fuel => free fuel second 73664) s) ∧
    ∃ s, Ends (fun fuel => free fuel second 73712) s := by
  have hr : Reaches 4096 oneRegion ⟨second, [(73664, 20), (73712, 10)]⟩ :=
    ((Reaches.start clean).malloc (by norm_num) first_ends).malloc (by norm_num) second_ends
  obtain ⟨h1, h2, -⟩ := heap_kept oneRegion_sbrk (by norm_num) hr fun c hc => by
    rw [show (⟨second, [(73664, 20), (73712, 10)]⟩ : World).s.calls = _ from second_calls,
      List.mem_singleton] at hc
    subst hc
    exact ⟨by norm_num, by norm_num⟩
  refine ⟨h1.resolve_left fun h3 => ?_, h2 (73664, 20) (by simp), h2 (73712, 10) (by simp)⟩
  simp at h3

/-! ### Requests that do not fit -/

/-- The `int` passed is the size of the block, positive, and the block lies inside the memory that was
returned at `p`. -/
def Exact (c : Call) (p : ℕ) : Prop :=
  c.amount = 16 * c.units ∧ 0 < c.amount ∧
    ∀ x : ℕ, p ≤ x ∧ x < p + 16 * c.units → (x : ℤ) < p + c.amount

lemma toInt_eq_iff (x : ℕ) : toInt x = x ↔ x < 2 ^ 31 := by
  unfold toInt u32
  split_ifs with h1 <;> omega

lemma exact_iff {c : Call} (hn : n < 2 ^ 32) (hu : c.units = asked (units n))
    (ha : c.amount = toInt (asked (units n) * 16)) : Exact c p ↔ n ≤ 2 ^ 31 - 32 := by
  have hpos := asked_pos (units n)
  have hsmall : asked (units n) * 16 < 2 ^ 31 ↔ n ≤ 2 ^ 31 - 32 := by
    have hle : units n ≤ asked (units n) ∧ asked (units n) ≤ max 4096 (units n) := by
      unfold asked
      split_ifs <;> omega
    rw [units_eq hn] at hle ⊢
    omega
  rw [← hsmall, ← toInt_eq_iff]
  unfold Exact
  rw [ha, hu]
  push_cast
  constructor
  · rintro ⟨h1, -, -⟩
    rw [h1]
    ring
  · intro h1
    rw [h1]
    exact ⟨by ring, by omega, fun x hx => by omega⟩

/-- **`malloc` never reports more memory than it obtained** exactly for requests of at most
`2 ^ 31 - 32` bytes: whenever `malloc` calls `morecore` and `sbrk` succeeds, the `int` passed is the
size of the block, and the block lies inside the memory returned, if and only if `nbytes` is at most
that. When `sbrk` fails `malloc` returns null. -/
theorem malloc_exact_iff (sbrk : List Call → ℤ → Option ℕ) (base fuel n r : ℕ) (s s' : State)
    (hn : n < 2 ^ 32) (hm : malloc sbrk base fuel s n = some (s', r)) :
    ∃ new, s'.calls = s.calls ++ new ∧ ∀ c ∈ new,
      (∀ p, c.answer = some p → (Exact c p ↔ n ≤ 2 ^ 31 - 32)) ∧ (c.answer = none → r = 0) := by
  obtain ⟨new, hnew, hall⟩ := malloc_new hm
  refine ⟨new, hnew, fun c hc => ?_⟩
  obtain ⟨hu, ha, hnull⟩ := hall c hc
  exact ⟨fun p _ => exact_iff hn hu ha, hnull⟩

theorem malloc_exact_ten : ∃ new, first.calls = [] ++ new ∧ ∀ c ∈ new,
    (∀ p, c.answer = some p → (Exact c p ↔ 10 ≤ 2 ^ 31 - 32)) ∧ (c.answer = none → 73712 = 0) :=
  malloc_exact_iff oneRegion 4096 5 10 73712 ⟨clean, 0, []⟩ first (by norm_num) (by rfl)

/-- `malloc(0xffffffff)` asks the kernel for 16 bytes and hands out a block of 4 GiB. -/
theorem malloc_too_much : (malloc oneRegion 4096 5 ⟨clean, 0, []⟩ 0xffffffff).map
      (fun r => (r.1.calls, r.2)) = some ([⟨2 ^ 28 + 1, 16, some 8192⟩], 8208) ∧
    ¬ Exact ⟨2 ^ 28 + 1, 16, some 8192⟩ 8192 := by
  refine ⟨by rfl, ?_⟩
  rintro ⟨h1, -, -⟩
  norm_num at h1

end Xv6.UmallocRuns
