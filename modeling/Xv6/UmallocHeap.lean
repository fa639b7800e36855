import Xv6.Umalloc

/-!
The free list of `umalloc.c` as a ring of disjoint blocks in address order, and what `free` and
`malloc` do to it.
-/

namespace Xv6.UmallocHeap

open Xv6.Riscv Xv6.Umalloc Xv6.Dlist

variable {m m' : Mem} {base bp p q nu : ℕ} {as pre post : List ℕ} {s : State}

/-! ### The free list -/

/-- The link of a block. -/
def next (m : Mem) (a : ℕ) : ℕ := (m a).ptr

/-- One beyond the last byte of a block. -/
def stop (m : Mem) (a : ℕ) : ℕ := a + 16 * (m a).size

/-- The byte at `x` is in a block of the list. -/
def Covered (m : Mem) (as : List ℕ) (x : ℕ) : Prop := ∃ a ∈ as, a ≤ x ∧ x < stop m a

/-- The units of the blocks together. -/
def total (m : Mem) (as : List ℕ) : ℕ := (as.map fun a => (m a).size).sum

/-- The blocks `as`, `base` first, form a ring in the order of their addresses; no two blocks are
adjacent. -/
structure FreeList (m : Mem) (base : ℕ) (as : List ℕ) : Prop where
  head : as.head? = some base
  ring : Along (next m) as base
  order : as.Pairwise fun a b => stop m a < b
  base_size : (m base).size = 0
  block : ∀ a ∈ as, a ≠ base → base + 16 ≤ a ∧ 0 < (m a).size ∧ 16 ∣ a

/-! ### Memory -/

lemma setPtr_self (m : Mem) (a p : ℕ) : m.setPtr a p a = ⟨p, (m a).size⟩ :=
  Function.update_self _ _ _

lemma setPtr_other {a b : ℕ} (h : b ≠ a) (m : Mem) (p : ℕ) : m.setPtr a p b = m b :=
  Function.update_of_ne h _ _

lemma setSize_self (m : Mem) (a n : ℕ) : m.setSize a n a = ⟨(m a).ptr, n⟩ :=
  Function.update_self _ _ _

lemma setSize_other {a b : ℕ} (h : b ≠ a) (m : Mem) (n : ℕ) : m.setSize a n b = m b :=
  Function.update_of_ne h _ _

lemma stop_congr {a : ℕ} (h : m' a = m a) : stop m' a = stop m a := by
  unfold stop
  rw [h]

lemma total_congr (h : ∀ a ∈ as, m' a = m a) : total m' as = total m as := by
  unfold total
  congr 1
  exact List.map_congr_left fun a ha => by rw [h a ha]

lemma total_append (as bs : List ℕ) : total m (as ++ bs) = total m as + total m bs := by
  simp [total]

lemma total_cons (a : ℕ) (as : List ℕ) : total m (a :: as) = (m a).size + total m as := by
  simp [total]

lemma FreeList.sorted (h : FreeList m base as) : as.Pairwise (· < ·) :=
  h.order.imp fun h1 => by
    unfold stop at h1
    omega

lemma FreeList.nodup (h : FreeList m base as) : as.Nodup := h.sorted.imp fun h1 => h1.ne

lemma FreeList.base_mem (h : FreeList m base as) : base ∈ as := List.mem_of_head? h.head

lemma FreeList.next_eq (h : FreeList m base (pre ++ p :: post)) :
    next m p = post.head?.getD base := by
  have h1 := (along_append.mp h.ring).2
  cases post with
  | nil => exact h1
  | cons q post => exact h1.1

lemma FreeList.congr {m : Mem} (h : FreeList m base as) (hm : ∀ a ∈ as, m' a = m a) :
    FreeList m' base as := by
  refine ⟨h.head, h.ring.congr fun x hx => ?_, h.order.imp_of_mem fun ha _ h1 => ?_, ?_,
    fun a ha hne => ?_⟩
  · unfold next
    rw [hm x hx]
  · rwa [stop_congr (hm _ ha)]
  · rw [hm base h.base_mem]
    exact h.base_size
  · rw [hm a ha]
    exact h.block a ha hne

/-! ### Where a block belongs -/

/-- The condition on which the loop of `free` ends. -/
def Before (m : Mem) (bp p : ℕ) : Prop :=
  (p < bp ∧ bp < (m p).ptr) ∨ ((m p).ptr ≤ p ∧ (p < bp ∨ bp < (m p).ptr))

lemma scan_stops {n : ℕ} (h : Before m bp p) : scan m bp (n + 1) p = some p := by
  rw [scan]
  by_cases h1 : p < bp ∧ bp < (m p).ptr
  · rw [if_pos h1]
  · rw [if_neg h1, if_pos (h.resolve_left h1)]

lemma scan_goes {n : ℕ} (h : ¬ Before m bp p) : scan m bp (n + 1) p = scan m bp n (m p).ptr := by
  rw [scan, if_neg fun h1 => h (Or.inl h1), if_neg fun h1 => h (Or.inr h1)]

/-- The loop stops at a block of the walk where its condition holds. -/
lemma scan_path {z : ℕ} {l : List ℕ} : ∀ {a : ℕ}, Path (next m) a l z →
    (∃ p ∈ a :: l, Before m bp p) →
    ∃ p ∈ a :: l, Before m bp p ∧ ∀ fuel, l.length < fuel → scan m bp fuel a = some p := by
  induction l with
  | nil =>
    intro a _ hex
    obtain ⟨p, hp, hb⟩ := hex
    obtain rfl := List.mem_singleton.mp hp
    refine ⟨p, hp, hb, fun fuel hf => ?_⟩
    obtain ⟨n, rfl⟩ := Nat.exists_eq_succ_of_ne_zero (by omega : fuel ≠ 0)
    exact scan_stops hb
  | cons x l ih =>
    intro a hpath hex
    by_cases ha : Before m bp a
    · refine ⟨a, by simp, ha, fun fuel hf => ?_⟩
      obtain ⟨n, rfl⟩ := Nat.exists_eq_succ_of_ne_zero (by omega : fuel ≠ 0)
      exact scan_stops ha
    · obtain ⟨p, hp, hb⟩ := hex
      have hp' : p ∈ x :: l := by
        rcases List.mem_cons.mp hp with rfl | h1
        · exact absurd hb ha
        · exact h1
      obtain ⟨p', hp', hb', hs⟩ := ih hpath.2 ⟨p, hp', hb⟩
      refine ⟨p', List.mem_cons_of_mem a hp', hb', fun fuel hf => ?_⟩
      obtain ⟨n, rfl⟩ := Nat.exists_eq_succ_of_ne_zero (by omega : fuel ≠ 0)
      rw [scan_goes ha, show (m a).ptr = x from hpath.1]
      exact hs n (by simpa using hf)

lemma FreeList.around (h : FreeList m base as) (hp : p ∈ as) :
    ∃ l, Path (next m) p l p ∧ p ∉ l ∧ l.length < as.length ∧ ∀ a, a ∈ p :: l ↔ a ∈ as := by
  obtain ⟨pre, post, rfl⟩ := List.append_of_mem hp
  have hn := h.nodup
  cases pre with
  | nil =>
    obtain rfl : p = base := Option.some.inj h.head
    exact ⟨post, h.ring, (List.nodup_cons.mp hn).1, by simp, fun _ => Iff.rfl⟩
  | cons b pre =>
    obtain rfl : b = base := Option.some.inj h.head
    refine ⟨post ++ b :: pre, h.ring.rotate, ?_, by simp; omega, fun a => ?_⟩
    · rw [List.nodup_append] at hn
      obtain ⟨-, h2, h3⟩ := hn
      rw [List.mem_append]
      rintro (h4 | h4)
      · exact (List.nodup_cons.mp h2).1 h4
      · exact h3 p h4 p (by simp) rfl
    · simp only [List.mem_cons, List.mem_append]
      tauto

/-- A new block `bp` falls between the blocks up to `p` and the blocks `post`, and overlaps none. -/
structure Gap (m : Mem) (bp p : ℕ) (pre post : List ℕ) : Prop where
  below : ∀ a ∈ pre ++ [p], stop m a ≤ bp
  above : ∀ a ∈ post, stop m bp ≤ a ∧ bp < a

/-- The block `bp` overlaps no block of the list. -/
def Apart (m : Mem) (bp : ℕ) (as : List ℕ) : Prop := ∀ a ∈ as, stop m a ≤ bp ∨ stop m bp ≤ a

lemma split_below (hs : (p :: as).Pairwise (· < ·)) (hbp : p < bp) (hne : bp ∉ as) :
    ∃ pre q post, p :: as = pre ++ q :: post ∧ q < bp ∧ ∀ b ∈ post, bp < b := by
  induction as generalizing p with
  | nil => exact ⟨[], p, [], rfl, hbp, by simp⟩
  | cons a as ih =>
    obtain ⟨h1, h2⟩ := List.pairwise_cons.mp hs
    by_cases ha : a < bp
    · obtain ⟨pre, q, post, heq, hq, hpost⟩ := ih h2 ha fun h3 => hne (List.mem_cons_of_mem a h3)
      exact ⟨p :: pre, q, post, by rw [heq, List.cons_append], hq, hpost⟩
    · refine ⟨[], p, a :: as, rfl, hbp, fun b hb => ?_⟩
      have hab : bp < a := by
        have : a ≠ bp := fun h3 => hne (h3 ▸ List.mem_cons_self)
        omega
      rcases List.mem_cons.mp hb with rfl | hb
      · exact hab
      · exact hab.trans ((List.pairwise_cons.mp h2).1 b hb)

lemma FreeList.before (h : FreeList m base (pre ++ p :: post)) (hbp : base < bp)
    (hb : Before m bp p) : p < bp ∧ ∀ b ∈ post, bp < b := by
  have hnext : (m p).ptr = _ := h.next_eq
  have hsorted := (List.pairwise_append.mp h.sorted).2.1
  unfold Before at hb
  rw [hnext] at hb
  cases post with
  | nil =>
    refine ⟨?_, by simp⟩
    change _ ∨ _ ∧ (_ ∨ bp < base) at hb
    omega
  | cons x post =>
    obtain ⟨h1, h2⟩ := List.pairwise_cons.mp hsorted
    have hpx := h1 x (by simp)
    change p < bp ∧ bp < x ∨ x ≤ p ∧ _ at hb
    have hx : p < bp ∧ bp < x := by omega
    refine ⟨hx.1, fun b hb' => ?_⟩
    rcases List.mem_cons.mp hb' with rfl | hb'
    · exact hx.2
    · exact hx.2.trans ((List.pairwise_cons.mp h2).1 b hb')

/-- The loop of `free` finds the gap for a block that overlaps none. -/
lemma FreeList.scan (h : FreeList m base as) (hf : q ∈ as) (hbp : base < bp) (hu : 0 < (m bp).size)
    (hap : Apart m bp as) : ∃ pre p post, as = pre ++ p :: post ∧ Gap m bp p pre post ∧
      ∀ fuel, as.length ≤ fuel → Umalloc.scan m bp fuel q = some p := by
  have hstop : bp < stop m bp := by
    unfold stop
    omega
  have hne : bp ∉ as := fun h1 => by
    rcases hap bp h1 with h2 | h2 <;> omega
  have hex : ∃ p ∈ as, Before m bp p := by
    obtain ⟨b, l, rfl⟩ := List.exists_cons_of_ne_nil (List.ne_nil_of_mem hf)
    obtain rfl : b = base := Option.some.inj h.head
    obtain ⟨pre, p, post, heq, hp, hpost⟩ := split_below h.sorted hbp
      fun h1 => hne (List.mem_cons_of_mem _ h1)
    rw [heq] at h ⊢
    refine ⟨p, by simp, ?_⟩
    have hnext : (m p).ptr = _ := h.next_eq
    unfold Before
    cases post with
    | nil =>
      rw [hnext]
      refine Or.inr ⟨?_, Or.inl hp⟩
      change b ≤ p
      cases pre with
      | nil => exact (Option.some.inj h.head).ge
      | cons b' pre =>
        obtain rfl : b' = b := Option.some.inj h.head
        exact ((List.pairwise_cons.mp h.sorted).1 p (by simp)).le
    | cons x post =>
      rw [hnext]
      exact Or.inl ⟨hp, hpost x (by simp)⟩
  obtain ⟨l, hpath, hql, hlen, hmem⟩ := h.around hf
  obtain ⟨p0, hp0, hb0⟩ := hex
  obtain ⟨p, hp, hb, hscan⟩ := scan_path hpath ⟨p0, (hmem p0).mpr hp0, hb0⟩
  obtain ⟨pre, post, rfl⟩ := List.append_of_mem ((hmem p).mp hp)
  refine ⟨pre, p, post, rfl, ?_, fun fuel hfuel => hscan fuel (by omega)⟩
  obtain ⟨hpb, hpost⟩ := h.before hbp hb
  have hsorted := h.sorted
  rw [List.pairwise_append, List.pairwise_cons] at hsorted
  refine ⟨fun a ha => ?_, fun a ha => ?_⟩
  · have hab : a < bp := by
      rcases List.mem_append.mp ha with h1 | h1
      · exact (hsorted.2.2 a h1 p (by simp)).trans hpb
      · rw [List.mem_singleton.mp h1]
        exact hpb
    have hmem : a ∈ pre ++ p :: post := by
      rcases List.mem_append.mp ha with h1 | h1
      · exact List.mem_append_left _ h1
      · rw [List.mem_singleton.mp h1]
        simp
    rcases hap a hmem with h1 | h1
    · exact h1
    · omega
  · have hab := hpost a ha
    refine ⟨?_, hab⟩
    rcases hap a (by simp [ha]) with h1 | h1
    · unfold stop at h1
      omega
    · exact h1

/-! ### Joining -/

lemma joinAbove_other {y : ℕ} (h : y ≠ bp) : joinAbove m bp p y = m y := by
  unfold joinAbove
  split_ifs
  · dsimp only
    rw [setPtr_other h, setSize_other h]
  · exact setPtr_other h _ _

/-- The block `bp`, linked in front of `post`, has taken in the next block if that was adjacent. -/
structure Joined (m m' : Mem) (bp base : ℕ) (post post' : List ℕ) : Prop where
  other : ∀ y, y ≠ bp → m' y = m y
  path : Path (next m') bp post' base
  suffix : post' <:+ post
  order : ∀ b ∈ post', stop m' bp < b
  total : (m' bp).size + total m post' = (m bp).size + total m post
  covered : ∀ x, (bp ≤ x ∧ x < stop m' bp) ∨ Covered m post' x ↔
    (bp ≤ x ∧ x < stop m bp) ∨ Covered m post x
  grown : (m bp).size ≤ (m' bp).size

lemma joinAbove_spec (hpath : Path (next m) p post base) (hbase : base < bp) (hpbp : p ≠ bp)
    (hgap : ∀ a ∈ post, stop m bp ≤ a ∧ bp < a) (hord : post.Pairwise fun a b => stop m a < b)
    (hsum : (m bp).size + total m post < 2 ^ 32) :
    ∃ post', Joined m (joinAbove m bp p) bp base post post' := by
  by_cases hadj : bp + 16 * (m bp).size = (m p).ptr
  · cases post with
    | nil =>
      have h1 : (m p).ptr = base := hpath
      omega
    | cons q post =>
      have hq : (m p).ptr = q := hpath.1
      have hqbp : q ≠ bp := (hgap q (by simp)).2.ne'
      rw [total_cons] at hsum
      have hsize : u32 ((m bp).size + (m q).size) = (m bp).size + (m q).size := by
        unfold u32
        exact Nat.mod_eq_of_lt (by omega)
      have hself : joinAbove m bp p bp = ⟨(m q).ptr, (m bp).size + (m q).size⟩ := by
        unfold joinAbove
        rw [if_pos hadj]
        simp only [hq, setPtr_self, setSize_self, setSize_other hpbp, setSize_other hqbp, hsize]
      have hstop : stop (joinAbove m bp p) bp = stop m q := by
        unfold stop
        rw [hself, ← hq, ← hadj]
        dsimp only
        rw [hadj, hq]
        omega
      obtain ⟨h1, h2⟩ := List.pairwise_cons.mp hord
      refine ⟨post, fun y hy => joinAbove_other hy, ?_, List.suffix_cons q post, fun b hb => ?_, ?_,
        fun x => ?_, by rw [hself]; dsimp only; omega⟩
      · refine hpath.2.from ?_ fun x hx => ?_
        · unfold next
          rw [hself]
        · unfold next
          rw [joinAbove_other (hgap x (List.mem_cons_of_mem q hx)).2.ne']
      · rw [hstop]
        exact h1 b hb
      · rw [hself, total_cons]
        dsimp only
        omega
      · have hbq : stop m bp = q := hadj.trans hq
        have hqs : q ≤ stop m q := Nat.le_add_right _ _
        rw [hstop]
        constructor
        · rintro (⟨h3, h4⟩ | ⟨a, ha, h3⟩)
          · by_cases hx : x < stop m bp
            · exact Or.inl ⟨h3, hx⟩
            · exact Or.inr ⟨q, by simp, by omega, h4⟩
          · exact Or.inr ⟨a, List.mem_cons_of_mem q ha, h3⟩
        · rintro (⟨h3, h4⟩ | ⟨a, ha, h3, h4⟩)
          · exact Or.inl ⟨h3, by omega⟩
          · rcases List.mem_cons.mp ha with rfl | ha
            · exact Or.inl ⟨by have := (hgap a (by simp)).2; omega, h4⟩
            · exact Or.inr ⟨a, ha, h3, h4⟩
  · have hself : joinAbove m bp p bp = ⟨(m p).ptr, (m bp).size⟩ := by
      unfold joinAbove
      rw [if_neg hadj, setPtr_self]
    have hstop : stop (joinAbove m bp p) bp = stop m bp := by
      unfold stop
      rw [hself]
    refine ⟨post, fun y hy => joinAbove_other hy, ?_, List.suffix_refl post, fun b hb => ?_, ?_,
      fun x => by rw [hstop], by rw [hself]⟩
    · refine hpath.from ?_ fun x hx => ?_
      · unfold next
        rw [hself]
      · unfold next
        rw [joinAbove_other (hgap x hx).2.ne']
    · rw [hstop]
      cases post with
      | nil => cases hb
      | cons q post =>
        have hq : (m p).ptr = q := hpath.1
        have hlt : stop m bp < q := by
          have h1 := (hgap q (by simp)).1
          unfold stop at h1 ⊢
          omega
        rcases List.mem_cons.mp hb with rfl | hb
        · exact hlt
        · have h2 := (List.pairwise_cons.mp hord).1 b hb
          unfold stop at h2 hlt ⊢
          omega
    · rw [hself]

lemma joinBelow_other {y : ℕ} (h : y ≠ p) : joinBelow m bp p y = m y := by
  unfold joinBelow
  split_ifs
  · dsimp only
    rw [setPtr_other h, setSize_other h]
  · exact setPtr_other h _ _

/-- The blocks in front of `p` stay; those from `p` on are new. -/
lemma FreeList.assemble {rest : List ℕ} (h : FreeList m base (pre ++ p :: post))
    (hpre : ∀ y ∈ pre, m' y = m y) (hpath : Path (next m') p rest base)
    (hord : (p :: rest).Pairwise fun a b => stop m' a < b) (hbase : (m' base).size = 0)
    (hblock : ∀ a ∈ p :: rest, a ≠ base → base + 16 ≤ a ∧ 0 < (m' a).size ∧ 16 ∣ a) :
    FreeList m' base (pre ++ p :: rest) := by
  obtain ⟨h1, -, h3⟩ := List.pairwise_append.mp h.order
  have hlast : ∀ a ∈ pre, stop m' a < p := fun a ha => by
    rw [stop_congr (hpre a ha)]
    exact h3 a ha p (by simp)
  refine ⟨?_, ?_, ?_, hbase, fun a ha hne => ?_⟩
  · have hhead := h.head
    cases pre with
    | nil => exact hhead
    | cons b pre => exact hhead
  · refine along_append.mpr ⟨(along_append.mp h.ring).1.congr fun x hx => ?_, hpath⟩
    unfold next
    rw [hpre x hx]
  · refine List.pairwise_append.mpr ⟨?_, hord, fun a ha b hb => ?_⟩
    · refine h1.imp_of_mem fun ha _ h4 => ?_
      rwa [stop_congr (hpre _ ha)]
    · rcases List.mem_cons.mp hb with rfl | hb
      · exact hlast a ha
      · have h4 := (List.pairwise_cons.mp hord).1 b hb
        have h5 := hlast a ha
        have h6 : p ≤ stop m' p := Nat.le_add_right _ _
        omega
  · rcases List.mem_append.mp ha with ha | ha
    · rw [hpre a ha]
      exact h.block a (by simp [ha]) hne
    · exact hblock a ha hne

/-- What `free` has made of the list `as` and the block `bp`. -/
structure Freed (m m' : Mem) (base bp p : ℕ) (as as' : List ℕ) : Prop where
  list : FreeList m' base as'
  mem : p ∈ as'
  subset : ∀ a ∈ as', a ∈ as ∨ a = bp
  total : total m' as' = total m as + (m bp).size
  covered : ∀ x, Covered m' as' x ↔ Covered m as x ∨ (bp ≤ x ∧ x < stop m bp)
  grown : ∃ a ∈ as', (m bp).size ≤ (m' a).size
  other : ∀ y, y ∉ as → y ≠ bp → m' y = m y

lemma covered_append {x : ℕ} {bs : List ℕ} :
    Covered m (as ++ bs) x ↔ Covered m as x ∨ Covered m bs x := by
  unfold Covered
  simp only [List.mem_append, or_and_right, exists_or]

lemma covered_cons {x a : ℕ} : Covered m (a :: as) x ↔ (a ≤ x ∧ x < stop m a) ∨ Covered m as x := by
  unfold Covered
  simp

lemma covered_congr {x : ℕ} (h : ∀ a ∈ as, m' a = m a) : Covered m' as x ↔ Covered m as x := by
  unfold Covered
  refine exists_congr fun a => and_congr_right fun ha => ?_
  rw [stop_congr (h a ha)]

section

variable {m1 : Mem} {post' : List ℕ} (h : FreeList m base (pre ++ p :: post))
  (hg : Gap m bp p pre post) (hj : Joined m m1 bp base post post')

include hg in
lemma Gap.lt (hu : 0 < (m bp).size) : p < bp := by
  have h1 := hg.below p (by simp)
  have h2 : p ≠ bp := by
    rintro rfl
    unfold stop at h1
    omega
  unfold stop at h1
  omega

include h hj hg

lemma joined_pre (hu : 0 < (m bp).size) {y : ℕ} (hy : y ∈ pre) : y ≠ p ∧ m1 y = m y := by
  have h1 : y < p := (List.pairwise_append.mp h.sorted).2.2 y hy p (by simp)
  have h2 := hg.lt hu
  exact ⟨by omega, hj.other y (by omega)⟩

omit h in
lemma joined_post (hu : 0 < (m bp).size) {y : ℕ} (hy : y ∈ post') :
    y ≠ bp ∧ y ≠ p ∧ m1 y = m y := by
  have h1 := (hg.above y (hj.suffix.subset hy)).2
  have h2 := hg.lt hu
  exact ⟨by omega, by omega, hj.other y (by omega)⟩

omit hg in
lemma joined_block {a : ℕ} (ha : a ∈ post') (hne : a ≠ base) :
    base + 16 ≤ a ∧ 0 < (m a).size ∧ 16 ∣ a :=
  h.block a (by simp [hj.suffix.subset ha]) hne

omit hg in
lemma joined_order : post'.Pairwise fun a b => stop m a < b :=
  ((List.pairwise_cons.mp (List.pairwise_append.mp h.order).2.1).2).sublist hj.suffix.sublist

/-- The block `p` was adjacent to `bp` and takes it in. -/
lemma joinBelow_merge (hbase : base + 16 ≤ bp) (hu : 0 < (m bp).size)
    (hsum : total m (pre ++ p :: post) + (m bp).size < 2 ^ 32)
    (hadj : p + 16 * (m1 p).size = bp) :
    Freed m (joinBelow m1 bp p) base bp p (pre ++ p :: post) (pre ++ p :: post') := by
  have hpbp := hg.lt hu
  have hm1p : m1 p = m p := hj.other p (by omega)
  rw [hm1p] at hadj
  have hpb : p ≠ base := by
    rintro rfl
    rw [h.base_size] at hadj
    omega
  have htotal := hj.total
  have hsize : u32 ((m p).size + (m1 bp).size) = (m p).size + (m1 bp).size := by
    rw [total_append, total_cons] at hsum
    unfold u32
    exact Nat.mod_eq_of_lt (by omega)
  have hself : joinBelow m1 bp p p = ⟨(m1 bp).ptr, (m p).size + (m1 bp).size⟩ := by
    unfold joinBelow
    rw [hm1p, if_pos hadj]
    simp only [setPtr_self, setSize_self, setSize_other hpbp.ne', hsize]
  have hstop : stop (joinBelow m1 bp p) p = stop m1 bp := by
    unfold stop
    rw [hself]
    dsimp only
    omega
  have hpre : ∀ y ∈ pre, joinBelow m1 bp p y = m y := fun y hy => by
    obtain ⟨h1, h2⟩ := joined_pre h hg hj hu hy
    rw [joinBelow_other h1, h2]
  have hpost : ∀ y ∈ post', joinBelow m1 bp p y = m y := fun y hy => by
    obtain ⟨-, h1, h2⟩ := joined_post hg hj hu hy
    rw [joinBelow_other h1, h2]
  refine ⟨h.assemble hpre ?_ ?_ ?_ ?_, by simp, fun a ha => ?_, ?_, fun x => ?_, ⟨p, by simp, ?_⟩,
    fun y h1 h2 => ?_⟩
  · refine hj.path.from ?_ fun x hx => ?_
    · unfold next
      rw [hself]
    · unfold next
      rw [hpost x hx, (joined_post hg hj hu hx).2.2]
  · refine List.pairwise_cons.mpr ⟨fun b hb => ?_, (joined_order h hj).imp_of_mem fun ha _ h1 => ?_⟩
    · rw [hstop]
      exact hj.order b hb
    · rwa [stop_congr (hpost _ ha)]
  · rw [joinBelow_other hpb.symm, hj.other base (by omega), h.base_size]
  · intro a ha hne
    rcases List.mem_cons.mp ha with rfl | ha
    · obtain ⟨h1, h2, h3⟩ := h.block a (by simp) hne
      exact ⟨h1, by rw [hself]; exact Nat.add_pos_left h2 _, h3⟩
    · rw [hpost a ha]
      exact joined_block h hj ha hne
  · left
    rcases List.mem_append.mp ha with h1 | h1
    · simp [h1]
    · rcases List.mem_cons.mp h1 with rfl | h1
      · simp
      · simp [hj.suffix.subset h1]
  · rw [total_append, total_cons, total_append, total_cons, total_congr hpre, total_congr hpost,
      hself]
    dsimp only
    omega
  · have h1 := hj.covered x
    have h2 : bp ≤ stop m1 bp := Nat.le_add_right _ _
    rw [covered_append, covered_cons, covered_append, covered_cons, covered_congr hpre,
      covered_congr hpost, hstop, show stop m p = bp from hadj]
    have h3 : (p ≤ x ∧ x < stop m1 bp) ↔ (p ≤ x ∧ x < bp) ∨ (bp ≤ x ∧ x < stop m1 bp) := by omega
    rw [h3, or_assoc (a := p ≤ x ∧ x < bp), h1, or_comm (b := Covered m post x)]
    simp only [or_assoc]
  · rw [hself]
    exact hj.grown.trans (Nat.le_add_left _ _)
  · rw [joinBelow_other (by rintro rfl; simp at h1), hj.other y h2]

/-- The block `bp` stands on its own. -/
lemma joinBelow_link (hbase : base + 16 ≤ bp) (hu : 0 < (m bp).size) (h16 : 16 ∣ bp)
    (hadj : p + 16 * (m1 p).size ≠ bp) :
    Freed m (joinBelow m1 bp p) base bp p (pre ++ p :: post) (pre ++ p :: bp :: post') := by
  have hpbp := hg.lt hu
  have hm1p : m1 p = m p := hj.other p (by omega)
  have htotal := hj.total
  have hself : joinBelow m1 bp p p = ⟨bp, (m p).size⟩ := by
    unfold joinBelow
    rw [if_neg hadj, setPtr_self, hm1p]
  have hbp : joinBelow m1 bp p bp = m1 bp := joinBelow_other hpbp.ne'
  have hstop : stop (joinBelow m1 bp p) p = stop m p := by
    unfold stop
    rw [hself]
  have hlt : stop m p < bp := by
    have h1 := hg.below p (by simp)
    rw [hm1p] at hadj
    exact lt_of_le_of_ne h1 hadj
  have hpre : ∀ y ∈ pre, joinBelow m1 bp p y = m y := fun y hy => by
    obtain ⟨h1, h2⟩ := joined_pre h hg hj hu hy
    rw [joinBelow_other h1, h2]
  have hpost : ∀ y ∈ post', joinBelow m1 bp p y = m y := fun y hy => by
    obtain ⟨-, h1, h2⟩ := joined_post hg hj hu hy
    rw [joinBelow_other h1, h2]
  refine ⟨h.assemble hpre ⟨?_, ?_⟩ ?_ ?_ ?_, by simp, fun a ha => ?_, ?_, fun x => ?_,
    ⟨bp, by simp, ?_⟩, fun y h1 h2 => ?_⟩
  · unfold next
    rw [hself]
  · refine hj.path.congr fun x hx => ?_
    unfold next
    rcases List.mem_cons.mp hx with rfl | hx
    · rw [hbp]
    · rw [hpost x hx, (joined_post hg hj hu hx).2.2]
  · refine List.pairwise_cons.mpr ⟨fun b hb => ?_, List.pairwise_cons.mpr ⟨fun b hb => ?_,
      (joined_order h hj).imp_of_mem fun ha _ h1 => ?_⟩⟩
    · rw [hstop]
      rcases List.mem_cons.mp hb with rfl | hb
      · exact hlt
      · exact hlt.trans (hg.above b (hj.suffix.subset hb)).2
    · rw [stop_congr hbp]
      exact hj.order b hb
    · rwa [stop_congr (hpost _ ha)]
  · by_cases hb : base = p
    · subst hb
      rw [hself]
      exact h.base_size
    · rw [joinBelow_other hb, hj.other base (by omega), h.base_size]
  · intro a ha hne
    rcases List.mem_cons.mp ha with rfl | ha
    · rw [hself]
      exact h.block a (by simp) hne
    · rcases List.mem_cons.mp ha with rfl | ha
      · rw [hbp]
        exact ⟨hbase, lt_of_lt_of_le hu hj.grown, h16⟩
      · rw [hpost a ha]
        exact joined_block h hj ha hne
  · rcases List.mem_append.mp ha with h1 | h1
    · simp [h1]
    · rcases List.mem_cons.mp h1 with rfl | h1
      · simp
      · rcases List.mem_cons.mp h1 with rfl | h1
        · exact Or.inr rfl
        · simp [hj.suffix.subset h1]
  · rw [total_append, total_cons, total_cons, total_append, total_cons, total_congr hpre,
      total_congr hpost, hself, hbp]
    dsimp only
    omega
  · have h1 := hj.covered x
    rw [covered_append, covered_cons, covered_cons, covered_append, covered_cons,
      covered_congr hpre, covered_congr hpost, hstop, stop_congr hbp, h1,
      or_comm (b := Covered m post x)]
    simp only [or_assoc]
  · rw [hbp]
    exact hj.grown
  · rw [joinBelow_other (by rintro rfl; simp at h1), hj.other y h2]

end

/-! ### `free` -/

/-- **`free`** puts a block that overlaps none back on the list. -/
lemma free_spec (h : FreeList s.mem base as) (hf : s.freep ∈ as) (hbase : base + 16 ≤ bp)
    (hu : 0 < (s.mem bp).size) (h16 : 16 ∣ bp) (hap : Apart s.mem bp as)
    (hsum : total s.mem as + (s.mem bp).size < 2 ^ 32) :
    ∃ m' p as', Freed s.mem m' base bp p as as' ∧
      ∀ fuel, as.length ≤ fuel → free fuel s (bp + 16) = some { s with mem := m', freep := p } := by
  obtain ⟨pre, p, post, rfl, hg, hscan⟩ := h.scan hf (by omega) hu hap
  have hpath : Path (next s.mem) p post base := (along_append.mp h.ring).2
  have hord := (List.pairwise_cons.mp (List.pairwise_append.mp h.order).2.1).2
  rw [total_append, total_cons] at hsum
  obtain ⟨post', hj⟩ := joinAbove_spec hpath (by omega) (hg.lt hu).ne hg.above hord (by omega)
  have hfreed : ∃ as', Freed s.mem (joinBelow (joinAbove s.mem bp p) bp p) base bp p
      (pre ++ p :: post) as' := by
    by_cases hadj : p + 16 * (joinAbove s.mem bp p p).size = bp
    · exact ⟨_, joinBelow_merge h hg hj hbase hu (by rw [total_append, total_cons]; omega) hadj⟩
    · exact ⟨_, joinBelow_link h hg hj hbase hu h16 hadj⟩
  obtain ⟨as', hfreed⟩ := hfreed
  refine ⟨_, p, as', hfreed, fun fuel hfuel => ?_⟩
  unfold free
  simp only [Nat.add_sub_cancel, hscan fuel hfuel]

/-! ### Taking a block -/

lemma FreeList.next_mem (h : FreeList m base as) (hq : q ∈ as) : next m q ∈ as := by
  obtain ⟨pre, post, rfl⟩ := List.append_of_mem hq
  rw [h.next_eq]
  cases post with
  | nil => exact h.base_mem
  | cons x post => simp

/-- What `malloc` has made of the list `as` by taking the block `bp` of `nu` units. -/
structure Taken (m m' : Mem) (base nu bp p : ℕ) (as as' : List ℕ) : Prop where
  list : FreeList m' base as'
  mem : p ∈ as'
  subset : ∀ a ∈ as', a ∈ as
  size : (m' bp).size = nu
  above : base + 16 ≤ bp
  aligned : 16 ∣ bp
  total : total m' as' + nu = total m as
  covered : ∀ x, Covered m as x ↔ Covered m' as' x ∨ (bp ≤ x ∧ x < stop m' bp)
  apart : ∀ x, bp ≤ x → x < stop m' bp → ¬ Covered m' as' x
  other : ∀ y, y ∉ as → y ≠ bp → m' y = m y

lemma FreeList.after (h : FreeList m base as) (hq : q ∈ as) (hp : next m q = p) (hne : p ≠ base) :
    ∃ pre post, as = pre ++ q :: p :: post := by
  obtain ⟨pre, post, rfl⟩ := List.append_of_mem hq
  have hnext := h.next_eq
  rw [hp] at hnext
  cases post with
  | nil => exact absurd hnext hne
  | cons x post =>
    obtain rfl : p = x := hnext
    exact ⟨pre, post, rfl⟩

lemma FreeList.covered_apart {x : ℕ} (h : FreeList m base (pre ++ p :: post)) (h1 : p ≤ x)
    (h2 : x < stop m p) : ¬ Covered m (pre ++ post) x := by
  rintro ⟨a, ha, h3, h4⟩
  obtain ⟨-, h5, h6⟩ := List.pairwise_append.mp h.order
  rcases List.mem_append.mp ha with ha | ha
  · have := h6 a ha p (by simp)
    omega
  · have := (List.pairwise_cons.mp h5).1 a ha
    omega

/-- The block fits exactly and leaves the list. -/
lemma take_exact (h : FreeList m base (pre ++ q :: p :: post)) (hne : p ≠ base) :
    Taken m (m.setPtr q (m p).ptr) base (m p).size p q (pre ++ q :: p :: post)
      (pre ++ q :: post) := by
  have hsorted := List.pairwise_cons.mp (List.pairwise_append.mp h.sorted).2.1
  have hqp : q < p := hsorted.1 p (by simp)
  have hpost : ∀ y ∈ post, y ≠ q ∧ (m.setPtr q (m p).ptr) y = m y := fun y hy => by
    have h1 : y ≠ q := (hsorted.1 y (by simp [hy])).ne'
    exact ⟨h1, setPtr_other h1 _ _⟩
  have hpre : ∀ y ∈ pre, (m.setPtr q (m p).ptr) y = m y := fun y hy =>
    setPtr_other ((List.pairwise_append.mp h.sorted).2.2 y hy q (by simp)).ne _ _
  have hstop : ∀ y, stop (m.setPtr q (m p).ptr) y = stop m y := fun y => by
    unfold stop
    by_cases hy : y = q
    · rw [hy, setPtr_self]
    · rw [setPtr_other hy]
  have hsize : ∀ y, ((m.setPtr q (m p).ptr) y).size = (m y).size := fun y => by
    by_cases hy : y = q
    · rw [hy, setPtr_self]
    · rw [setPtr_other hy]
  have hcov : ∀ as x, Covered (m.setPtr q (m p).ptr) as x ↔ Covered m as x := fun as x => by
    unfold Covered
    simp only [hstop]
  have htot : ∀ as, total (m.setPtr q (m p).ptr) as = total m as := fun as => by
    unfold total
    simp only [hsize]
  have hpath : Path (next m) p post base := (along_append.mp h.ring).2.2
  obtain ⟨h1, h2, h3⟩ := h.block p (by simp) hne
  have hskip : pre ++ q :: p :: post = (pre ++ [q]) ++ p :: post := by simp
  refine ⟨h.assemble hpre ?_ ?_ ?_ ?_, by simp, fun a ha => ?_, hsize p, h1, h3, ?_, fun x => ?_,
    fun x h4 h5 => ?_, fun y h4 h5 => ?_⟩
  · refine hpath.from ?_ fun x hx => ?_
    · unfold next
      rw [setPtr_self]
    · unfold next
      rw [(hpost x hx).2]
  · simp only [hstop]
    refine (List.pairwise_append.mp h.order).2.1.sublist ?_
    exact (List.sublist_cons_self p post).cons_cons q
  · rw [hsize, h.base_size]
  · intro a ha hne'
    rw [hsize]
    refine h.block a ?_ hne'
    rcases List.mem_cons.mp ha with rfl | ha
    · simp
    · simp [ha]
  · rcases List.mem_append.mp ha with h4 | h4
    · simp [h4]
    · rcases List.mem_cons.mp h4 with rfl | h4
      · simp
      · simp [h4]
  · simp only [htot, total_append, total_cons]
    omega
  · simp only [hcov, hstop, covered_append, covered_cons]
    rw [or_comm (a := p ≤ x ∧ x < stop m p)]
    simp only [or_assoc]
  · rw [hcov, show pre ++ q :: post = (pre ++ [q]) ++ post by simp]
    rw [hskip] at h
    rw [hstop] at h5
    exact h.covered_apart h4 h5
  · rw [setPtr_other]
    rintro rfl
    simp at h4

/-- The block is larger and gives its tail. -/
lemma take_tail (h : FreeList m base (pre ++ p :: post)) (hne : p ≠ base) (hnu : 0 < nu)
    (hlt : nu < (m p).size) (hq : q ∈ pre ++ p :: post) :
    Taken m ((m.setSize p ((m p).size - nu)).setSize (p + 16 * ((m p).size - nu)) nu) base nu
      (p + 16 * ((m p).size - nu)) q (pre ++ p :: post) (pre ++ p :: post) := by
  obtain ⟨h1, h2, h3⟩ := h.block p (by simp) hne
  set bp := p + 16 * ((m p).size - nu) with hbp
  have hstopp : stop m p = bp + 16 * nu := by
    unfold stop
    omega
  have hpbp : p ≠ bp := by omega
  have hother : ∀ y, y ≠ p → y ≠ bp →
      ((m.setSize p ((m p).size - nu)).setSize bp nu) y = m y := fun y h4 h5 => by
    rw [setSize_other h5, setSize_other h4]
  have hself : ((m.setSize p ((m p).size - nu)).setSize bp nu) p =
      ⟨(m p).ptr, (m p).size - nu⟩ := by
    rw [setSize_other hpbp, setSize_self]
  have hsize : (((m.setSize p ((m p).size - nu)).setSize bp nu) bp).size = nu := by
    rw [setSize_self]
  generalize (m.setSize p ((m p).size - nu)).setSize bp nu = m' at hother hself hsize ⊢
  have hstop : stop m' p = bp := by
    unfold stop
    rw [hself]
  have hstopbp : stop m' bp = stop m p := by
    rw [hstopp]
    unfold stop
    rw [hsize]
  obtain ⟨-, hord, hcross⟩ := List.pairwise_append.mp h.order
  have hpre : ∀ y ∈ pre, m' y = m y := fun y hy => by
    have h4 : stop m y < p := hcross y hy p (by simp)
    unfold stop at h4
    exact hother y (by omega) (by omega)
  have hpost : ∀ y ∈ post, m' y = m y := fun y hy => by
    have h4 : stop m p < y := (List.pairwise_cons.mp hord).1 y hy
    exact hother y (by omega) (by omega)
  have hpath : Path (next m) p post base := (along_append.mp h.ring).2
  refine ⟨h.assemble hpre ?_ ?_ ?_ ?_, hq, fun a ha => ha, hsize, by omega, by omega, ?_,
    fun x => ?_, fun x h4 h5 => ?_, fun y h4 h5 => hother y ?_ h5⟩
  · refine hpath.from ?_ fun x hx => ?_
    · unfold next
      rw [hself]
    · unfold next
      rw [hpost x hx]
  · refine List.pairwise_cons.mpr ⟨fun b hb => ?_, ?_⟩
    · have h4 : stop m p < b := (List.pairwise_cons.mp hord).1 b hb
      omega
    · refine (List.pairwise_cons.mp hord).2.imp_of_mem fun ha _ h4 => ?_
      rwa [stop_congr (hpost _ ha)]
  · rw [hother base hne.symm (by omega), h.base_size]
  · intro a ha hne'
    rcases List.mem_cons.mp ha with rfl | ha
    · rw [hself]
      exact ⟨h1, by dsimp only; omega, h3⟩
    · rw [hpost a ha]
      exact h.block a (by simp [ha]) hne'
  · rw [total_append, total_cons, total_append, total_cons, total_congr hpre, total_congr hpost, hself]
    dsimp only
    omega
  · rw [covered_append, covered_cons, covered_append, covered_cons, covered_congr hpre,
      covered_congr hpost, hstop, hstopbp]
    have h4 : (p ≤ x ∧ x < stop m p) ↔ (p ≤ x ∧ x < bp) ∨ (bp ≤ x ∧ x < stop m p) := by omega
    rw [h4, or_assoc (a := p ≤ x ∧ x < bp), or_comm (b := Covered m post x)]
    simp only [or_assoc]
  · rw [covered_append, covered_cons, covered_congr hpre, covered_congr hpost, hstop]
    rw [hstopbp] at h5
    have h6 := h.covered_apart (x := x) (by omega) h5
    rw [covered_append] at h6
    rintro (h7 | h7 | h7)
    · exact h6 (Or.inl h7)
    · omega
    · exact h6 (Or.inr h7)
  · rintro rfl
    simp at h4

/-- **`take`** hands out a block that was free and keeps the list. -/
lemma take_spec (h : FreeList s.mem base as) (hq : q ∈ as) (hp : next s.mem q = p) (hnu : 0 < nu)
    (hfit : nu ≤ (s.mem p).size) : ∃ m' bp as', Taken s.mem m' base nu bp q as as' ∧
      take s nu q p = ({ s with mem := m', freep := q }, bp + 16) := by
  have hne : p ≠ base := by
    rintro rfl
    rw [h.base_size] at hfit
    omega
  obtain ⟨pre, post, rfl⟩ := h.after hq hp hne
  unfold take
  by_cases heq : (s.mem p).size = nu
  · subst heq
    refine ⟨_, p, _, take_exact h hne, ?_⟩
    rw [if_pos rfl]
  · rw [show pre ++ q :: p :: post = (pre ++ [q]) ++ p :: post by simp] at h hq ⊢
    refine ⟨_, _, _, take_tail h hne hnu (by omega) hq, ?_⟩
    rw [if_neg heq]
    simp only [setSize_self]

/-! ### The loop of `malloc` -/

variable {sbrk : List Call → ℤ → Option ℕ}

/-- What the loop does when it is back at `freep`: it asks for memory and goes on. -/
def grow (sbrk : List Call → ℤ → Option ℕ) (fuel nunits n : ℕ) (s : State) : Option (State × ℕ) :=
  match morecore sbrk fuel s nunits with
  | none => none
  | some (s, p) => if p = 0 then some (s, 0) else loop sbrk fuel nunits n s p (s.mem p).ptr

/-- Once around the ring: the first block that is big enough, or none is. -/
lemma loop_path {l : List ℕ} : ∀ {a : ℕ}, Path (next s.mem) a l s.freep → s.freep ∉ l →
    (∃ b ∈ a :: l, nu ≤ (s.mem (next s.mem b)).size ∧ ∀ fuel n, l.length < n →
      loop sbrk fuel nu n s a (next s.mem a) = some (take s nu b (next s.mem b))) ∨
    ((∀ x ∈ s.freep :: l, (s.mem x).size < nu) ∧ ∀ fuel n,
      loop sbrk fuel nu (n + l.length + 1) s a (next s.mem a) = grow sbrk fuel nu n s) := by
  induction l with
  | nil =>
    intro a hpath _
    have hp : next s.mem a = s.freep := hpath
    by_cases hfit : nu ≤ (s.mem s.freep).size
    · refine Or.inl ⟨a, by simp, by rwa [hp], fun fuel n hn => ?_⟩
      obtain ⟨n, rfl⟩ := Nat.exists_eq_succ_of_ne_zero (by omega : n ≠ 0)
      rw [hp, loop, if_pos hfit]
    · refine Or.inr ⟨by simpa using hfit, fun fuel n => ?_⟩
      rw [hp, List.length_nil, loop, if_neg hfit, if_pos rfl]
      rfl
  | cons x l ih =>
    intro a hpath hfree
    have hx : next s.mem a = x := hpath.1
    obtain ⟨hne, hfree⟩ : s.freep ≠ x ∧ s.freep ∉ l := by simpa using hfree
    by_cases hfit : nu ≤ (s.mem x).size
    · refine Or.inl ⟨a, by simp, by rwa [hx], fun fuel n hn => ?_⟩
      obtain ⟨n, rfl⟩ := Nat.exists_eq_succ_of_ne_zero (by omega : n ≠ 0)
      rw [hx, loop, if_pos hfit]
    · have hgo : ∀ fuel n, loop sbrk fuel nu (n + 1) s a x =
          loop sbrk fuel nu n s x (next s.mem x) := by
        intro fuel n
        rw [loop, if_neg hfit, if_neg (Ne.symm hne)]
        rfl
      rcases ih hpath.2 hfree with ⟨b, hb, h1, h2⟩ | ⟨h1, h2⟩
      · refine Or.inl ⟨b, List.mem_cons_of_mem a hb, h1, fun fuel n hn => ?_⟩
        obtain ⟨n, rfl⟩ := Nat.exists_eq_succ_of_ne_zero (by omega : n ≠ 0)
        rw [hx, hgo]
        exact h2 fuel n (by simpa using hn)
      · refine Or.inr ⟨fun y hy => ?_, fun fuel n => ?_⟩
        · rcases List.mem_cons.mp hy with rfl | hy
          · exact h1 _ (by simp)
          · rcases List.mem_cons.mp hy with rfl | hy
            · omega
            · exact h1 y (by simp [hy])
        · rw [hx, List.length_cons, ← Nat.add_assoc, hgo]
          exact h2 fuel n

lemma FreeList.loop (h : FreeList s.mem base as) (hf : s.freep ∈ as)
    (sbrk : List Call → ℤ → Option ℕ) (nu : ℕ) :
    (∃ b ∈ as, nu ≤ (s.mem (next s.mem b)).size ∧ ∀ fuel n, as.length ≤ n →
      Umalloc.loop sbrk fuel nu n s s.freep (next s.mem s.freep) =
        some (take s nu b (next s.mem b))) ∨
    ((∀ x ∈ as, (s.mem x).size < nu) ∧ ∃ k ≤ as.length, ∀ fuel n,
      Umalloc.loop sbrk fuel nu (n + k) s s.freep (next s.mem s.freep) = grow sbrk fuel nu n s) := by
  obtain ⟨l, hpath, hfl, hlen, hmem⟩ := h.around hf
  rcases loop_path hpath hfl with ⟨b, hb, h1, h2⟩ | ⟨h1, h2⟩
  · exact Or.inl ⟨b, (hmem b).mp hb, h1, fun fuel n hn => h2 fuel n (by omega)⟩
  · exact Or.inr ⟨fun x hx => h1 x ((hmem x).mpr hx), l.length + 1, by omega, h2⟩

end Xv6.UmallocHeap
