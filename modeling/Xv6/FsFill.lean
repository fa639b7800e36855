import Xv6.FsLog
import Mathlib.Data.Finset.Card
import Mathlib.Data.Finset.Union
import Mathlib.Tactic.Cases

/-!
What the loop of `writei` does to a file: which slots it fills, which bytes it replaces, and which
of the blocks it has changed are on the log.
-/

namespace Xv6.Fs

open Xv6.ByteMem Xv6.Wp

variable {sb : Superblock} {s t u : Disk} {i k b bn : ℕ} {K L : Finset ℕ}

/-- The block in slot `k` of table entry `i`. -/
abbrev blockIn (s : Disk) (i k : ℕ) : ℕ := refs s i (s.inodes i).inum k

/-- Byte `o` of table entry `i`; it is 0 where there is no block. -/
def content (s : Disk) (i o : ℕ) : Byte :=
  if blockIn s i (slot (o / BSIZE)) = 0 then 0 else byteAt s i o

lemma content_eq (s : Disk) (i o : ℕ) :
    content s i o = if blockIn s i (slot (o / BSIZE)) = 0 then 0
      else s.blocks (blockIn s i (slot (o / BSIZE))) (o % BSIZE) := rfl

/-- The slots that block `bn` of a file takes. -/
def blockSlots (bn : ℕ) : Finset ℕ := if bn < NDIRECT then {bn} else {NDIRECT, slot bn}

/-- The slots that `n` bytes from `off` on take. -/
def slotsOf (off n : ℕ) : Finset ℕ :=
  (Finset.range n).biUnion fun j => blockSlots ((off + j) / BSIZE)

/-- The slots among `S` that are empty. -/
def missing (s : Disk) (i : ℕ) (S : Finset ℕ) : Finset ℕ := S.filter fun k => blockIn s i k = 0

def freeBlocks (sb : Superblock) (s : Disk) : Finset ℕ :=
  (Finset.range sb.size).filter fun b => s.bits b = false

/-! ### Slots -/

lemma slot_mem_blockSlots (bn : ℕ) : slot bn ∈ blockSlots bn := by
  unfold blockSlots slot
  split_ifs <;> simp

lemma slot_ne_indirect (bn : ℕ) : slot bn ≠ NDIRECT := by
  unfold slot
  split_ifs <;> omega

lemma slot_inj {c : ℕ} (h : slot bn = slot c) : bn = c := by
  unfold slot at h
  split_ifs at h <;> omega

lemma blockSlots_subset {off n j : ℕ} (hj : j < n) :
    blockSlots ((off + j) / BSIZE) ⊆ slotsOf off n :=
  Finset.subset_biUnion_of_mem (fun j => blockSlots ((off + j) / BSIZE)) (Finset.mem_range.mpr hj)

lemma slotsOf_mono {off n m : ℕ} (h : n ≤ m) : slotsOf off n ⊆ slotsOf off m := by
  intro k hk
  obtain ⟨j, hj, hk⟩ := Finset.mem_biUnion.mp hk
  exact blockSlots_subset (Nat.lt_of_lt_of_le (Finset.mem_range.mp hj) h) hk

lemma slotsOf_append (off n m : ℕ) : slotsOf (off + n) m ⊆ slotsOf off (n + m) := by
  intro k hk
  obtain ⟨j, hj, hk⟩ := Finset.mem_biUnion.mp hk
  rw [Nat.add_assoc] at hk
  exact blockSlots_subset (Nat.add_lt_add_left (Finset.mem_range.mp hj) n) hk

lemma div_add_of_lt {off j : ℕ} (h : j < BSIZE - off % BSIZE) : (off + j) / BSIZE = off / BSIZE := by
  unfold BSIZE at *
  omega

lemma slotsOf_chunk {off d p : ℕ} (hp : p < BSIZE - (off + d) % BSIZE) :
    slotsOf off (d + p + 1) ⊆ slotsOf off (d + 1) := by
  intro k hk
  obtain ⟨j, hj, hk⟩ := Finset.mem_biUnion.mp hk
  have hj : j < d + p + 1 := Finset.mem_range.mp hj
  by_cases hjd : j < d + 1
  · exact blockSlots_subset hjd hk
  · have hdiv := div_add_of_lt (show j - d < BSIZE - (off + d) % BSIZE by omega)
    rw [show off + d + (j - d) = off + j by omega] at hdiv
    rw [hdiv] at hk
    exact blockSlots_subset (Nat.lt_succ_self d) hk

lemma indirect_of_block (ht : (s.inodes i).copy.type ≠ .free) (hbn : ¬bn < NDIRECT)
    (h : blockIn s i (slot bn) ≠ 0) : (s.inodes i).copy.addrs NDIRECT ≠ 0 := by
  intro ha
  refine h ?_
  unfold blockIn refs refAt slotAt slot
  rw [cur_self, if_neg ht, if_neg hbn, if_neg (by omega), if_neg fun hc => hc.2 ha]

lemma indirect_of_slot (ht : (s.inodes i).copy.type ≠ .free) (hn : NDIRECT < k)
    (hk : blockIn s i k ≠ 0) : blockIn s i NDIRECT ≠ 0 := by
  obtain ⟨bn, hbn, rfl⟩ : ∃ bn, ¬bn < NDIRECT ∧ k = slot bn := by
    refine ⟨k - 1, by omega, ?_⟩
    rw [slot, if_neg (by omega)]
    omega
  rw [blockIn, refs_addr ht (Nat.le_refl _)]
  exact indirect_of_block ht hbn hk

lemma blockSlots_present (ht : (s.inodes i).copy.type ≠ .free) (h : blockIn s i (slot bn) ≠ 0) :
    ∀ k ∈ blockSlots bn, blockIn s i k ≠ 0 := by
  intro k hk
  unfold blockSlots at hk
  split_ifs at hk with hbn
  · rw [slot, if_pos hbn] at h
    rwa [Finset.mem_singleton.mp hk]
  · rcases Finset.mem_insert.mp hk with rfl | hk
    · rw [blockIn, refs_addr ht (Nat.le_refl _)]
      exact indirect_of_block ht hbn h
    · rwa [Finset.mem_singleton.mp hk]

/-! ### Filling slots -/

/-- Free blocks have gone into the slots `K` of table entry `i`. -/
structure Filled (sb : Superblock) (i : ℕ) (K : Finset ℕ) (s t : Disk) : Prop where
  acct : Acct sb t.bits (refs t i)
  dinodes : t.dinodes = s.dinodes
  other : ∀ j, j ≠ i → t.inodes j = s.inodes j
  self : ∃ a, t.inodes i = { s.inodes i with copy := { (s.inodes i).copy with addrs := a } }
  fresh : ∀ k ∈ K, blockIn s i k = 0 ∧ blockIn t i k ≠ 0
  old : ∀ y k, ¬(y = (s.inodes i).inum ∧ k ∈ K) → refs t i y k = refs s i y k
  bits : ∀ b, (∀ k ∈ K, blockIn t i k ≠ b) → t.bits b = s.bits b

lemma Filled.inum (h : Filled sb i K s t) : (t.inodes i).inum = (s.inodes i).inum := by
  obtain ⟨a, ha⟩ := h.self
  rw [ha]

lemma Filled.copy_type (h : Filled sb i K s t) :
    (t.inodes i).copy.type = (s.inodes i).copy.type := by
  obtain ⟨a, ha⟩ := h.self
  rw [ha]

lemma Filled.copy_size (h : Filled sb i K s t) :
    (t.inodes i).copy.size = (s.inodes i).copy.size := by
  obtain ⟨a, ha⟩ := h.self
  rw [ha]

lemma Filled.kept (h : Filled sb i K s t) {y : ℕ} (hr : refs s i y k ≠ 0) :
    refs t i y k = refs s i y k := by
  refine h.old y k ?_
  rintro ⟨rfl, hk⟩
  exact hr (h.fresh k hk).1

lemma Filled.block_kept (h : Filled sb i K s t) (hr : blockIn s i k ≠ 0) :
    blockIn t i k = blockIn s i k := by
  rw [blockIn, h.inum]
  exact h.kept hr

lemma Filled.block_old (h : Filled sb i K s t) (hk : k ∉ K) : blockIn t i k = blockIn s i k := by
  rw [blockIn, h.inum]
  exact h.old _ _ fun hc => hk hc.2

lemma Filled.trans (h1 : Filled sb i K s t) (h2 : Filled sb i L t u) :
    Filled sb i (K ∪ L) s u := by
  obtain ⟨a, ha⟩ := h1.self
  obtain ⟨c, hc⟩ := h2.self
  refine ⟨h2.acct, h2.dinodes.trans h1.dinodes, fun j hj => (h2.other j hj).trans (h1.other j hj),
    ⟨c, by rw [hc, ha]⟩, fun k hk => ?_, fun y k hk => ?_, fun b hb => ?_⟩
  · by_cases hkK : k ∈ K
    · obtain ⟨h0, hne⟩ := h1.fresh k hkK
      exact ⟨h0, by rwa [h2.block_kept hne]⟩
    · obtain ⟨h0, hne⟩ := h2.fresh k ((Finset.mem_union.mp hk).resolve_left hkK)
      exact ⟨by rwa [← h1.block_old hkK], hne⟩
  · rw [h2.old y k fun hc => hk ⟨hc.1.trans h1.inum, Finset.mem_union_right _ hc.2⟩]
    exact h1.old y k fun hc => hk ⟨hc.1, Finset.mem_union_left _ hc.2⟩
  · rw [h2.bits b fun k hk => hb k (Finset.mem_union_right _ hk)]
    refine h1.bits b fun k hk => ?_
    rw [← h2.block_kept (h1.fresh k hk).2]
    exact hb k (Finset.mem_union_left _ hk)

lemma Filled.blocks (h : Acct sb s.bits (refs s i)) {m : ℕ → Mem}
    (hm : refs { s with blocks := m } i = refs s i) :
    Filled sb i ∅ s { s with blocks := m } := by
  refine ⟨?_, rfl, fun _ _ => rfl, ⟨_, rfl⟩, fun k hk => absurd hk (Finset.notMem_empty k),
    fun y k _ => ?_, fun _ _ => rfl⟩
  · rw [hm]
    exact h
  · rw [hm]

lemma Filled.refl (h : Acct sb s.bits (refs s i)) : Filled sb i ∅ s s := Filled.blocks h rfl

lemma Filled.of_grown (h : Grown sb i s t)
    (hr : refs t i = setRef (refs s i) (s.inodes i).inum k b) (hz : blockIn s i k = 0) (hb : b ≠ 0)
    (hbits : ∀ c, c ≠ b → t.bits c = s.bits c) : Filled sb i {k} s t := by
  have hself : blockIn t i k = b := by
    rw [blockIn, h.inum, hr, setRef_self]
  refine ⟨h.acct, h.dinodes, h.other, h.self, fun l hl => ?_, fun y l hl => ?_, fun c hc => ?_⟩
  · rw [Finset.mem_singleton.mp hl, hself]
    exact ⟨hz, hb⟩
  · rw [hr, setRef_ne]
    exact fun hc => hl ⟨hc.1, Finset.mem_singleton.mpr hc.2⟩
  · have := hc k (Finset.mem_singleton_self k)
    rw [hself] at this
    exact hbits c this.symm

lemma Filled.was_free (h : Filled sb i K s t) (hs : Acct sb s.bits (refs s i)) (hk : k ∈ K) :
    blockIn t i k < sb.size ∧ s.bits (blockIn t i k) = false := by
  obtain ⟨h0, hne⟩ := h.fresh k hk
  obtain ⟨hge, hlt⟩ := h.acct.range _ _ hne
  refine ⟨hlt, ?_⟩
  rw [← Bool.not_eq_true, hs.bits _ hlt, not_or]
  refine ⟨by omega, ?_⟩
  rintro ⟨y, l, he⟩
  have hyl : refs t i y l = blockIn t i k := by
    rw [h.kept (by rw [he]; exact hne), he]
  obtain ⟨hy, hl⟩ := h.acct.inj _ _ _ _ hne hyl.symm
  rw [← hy, ← hl, h.inum] at he
  refine hne ?_
  rw [blockIn, h.inum, ← he]
  exact h0

/-- **Every slot filled takes one free block.** -/
theorem Filled.card_free (h : Filled sb i K s t) (hs : Acct sb s.bits (refs s i)) :
    (freeBlocks sb s).card = (freeBlocks sb t).card + K.card := by
  have hin : ∀ k ∈ K, t.bits (blockIn t i k) = true := by
    intro k hk
    obtain ⟨hge, hlt⟩ := h.acct.range _ _ (h.fresh k hk).2
    exact (h.acct.bits _ hlt).mpr (Or.inr ⟨_, k, rfl⟩)
  have hsplit : freeBlocks sb s = freeBlocks sb t ∪ K.image (blockIn t i) := by
    ext b
    simp only [freeBlocks, Finset.mem_union, Finset.mem_filter, Finset.mem_range, Finset.mem_image]
    constructor
    · rintro ⟨hlt, hb⟩
      by_cases hc : ∃ k ∈ K, blockIn t i k = b
      · exact Or.inr hc
      · refine Or.inl ⟨hlt, ?_⟩
        rw [h.bits b fun k hk he => hc ⟨k, hk, he⟩, hb]
    · rintro (⟨hlt, hb⟩ | ⟨k, hk, rfl⟩)
      · refine ⟨hlt, ?_⟩
        rw [← h.bits b, hb]
        rintro k hk rfl
        rw [hin k hk] at hb
        cases hb
      · exact h.was_free hs hk
  rw [hsplit, Finset.card_union_of_disjoint, Finset.card_image_of_injOn]
  · intro k hk l hl he
    exact (h.acct.inj _ _ _ _ (h.fresh k hk).2 he).2
  · rw [Finset.disjoint_left]
    intro b hb hb'
    obtain ⟨k, hk, rfl⟩ := Finset.mem_image.mp hb'
    have := (Finset.mem_filter.mp hb).2
    rw [hin k hk] at this
    cases this

lemma Filled.content_same (h : Filled sb i K s t) (hg : Grown sb i s t)
    (hz : ∀ k ∈ K, k ≠ NDIRECT → t.blocks (blockIn t i k) = fun _ => 0) (o : ℕ) :
    content t i o = content s i o := by
  rw [content_eq, content_eq]
  by_cases hk : slot (o / BSIZE) ∈ K
  · obtain ⟨h0, hne⟩ := h.fresh _ hk
    rw [if_pos h0, if_neg hne, hz _ hk (slot_ne_indirect _)]
  · rw [h.block_old hk]
    by_cases h0 : blockIn s i (slot (o / BSIZE)) = 0
    · rw [if_pos h0, if_pos h0]
    · rw [if_neg h0, if_neg h0, hg.data _ _ (slot_ne_indirect _) h0]

end Xv6.Fs

namespace Xv6.Fs.Logged

open Xv6.ByteMem Xv6.Wp

variable {sb : Superblock} {s t u : Traced} {i k b bn off d p n : ℕ} {K L : Finset ℕ}
  {src : ℕ → Option Byte}

/-! ### The blocks on the log -/

/-- What is logged when slot `k` is filled: the block, the bit of the map and the indirect block. -/
def slotLog (sb : Superblock) (s : Disk) (i k : ℕ) : Finset ℕ :=
  {blockIn s i k, BBLOCK sb (blockIn s i k)} ∪ if NDIRECT < k then {blockIn s i NDIRECT} else ∅

def fillLog (sb : Superblock) (s : Disk) (i : ℕ) (K : Finset ℕ) : Finset ℕ :=
  K.biUnion (slotLog sb s i)

/-- The blocks of `d` bytes from `off` on. -/
def dataLog (s : Disk) (i off d : ℕ) : Finset ℕ :=
  (Finset.range d).image fun j => blockIn s i (slot ((off + j) / BSIZE))

lemma slotLog_kept {s t : Disk} (h : Filled sb i K s t) (ht : (s.inodes i).copy.type ≠ .free)
    (hk : blockIn s i k ≠ 0) : slotLog sb t i k = slotLog sb s i k := by
  unfold slotLog
  rw [h.block_kept hk]
  split_ifs with hn
  · rw [h.block_kept (indirect_of_slot ht hn hk)]
  · rfl

lemma fillLog_union (s : Disk) : fillLog sb s i (K ∪ L) = fillLog sb s i K ∪ fillLog sb s i L :=
  Finset.union_biUnion

lemma dataLog_append (s : Disk) (n : ℕ) :
    dataLog s i off (d + n) = dataLog s i off d ∪ dataLog s i (off + d) n := by
  ext b
  simp only [dataLog, Finset.mem_union, Finset.mem_image, Finset.mem_range]
  constructor
  · rintro ⟨j, hj, rfl⟩
    by_cases hd : j < d
    · exact Or.inl ⟨j, hd, rfl⟩
    · exact Or.inr ⟨j - d, by omega, by rw [show off + d + (j - d) = off + j by omega]⟩
  · rintro (⟨j, hj, rfl⟩ | ⟨j, hj, rfl⟩)
    · exact ⟨j, by omega, rfl⟩
    · exact ⟨d + j, by omega, by rw [Nat.add_assoc]⟩

/-- Part of the loop of `writei`, at offset `off`: `d` bytes of the source are in the file and
logged, and `p` further bytes are in the next block, which has not been logged with them. -/
structure Wrote (sb : Superblock) (i : ℕ) (src : ℕ → Option Byte) (off d p : ℕ) (K : Finset ℕ)
    (s t : Traced) : Prop where
  filled : Filled sb i K s.disk t.disk
  result : ∀ o, content t.disk i o =
    if off ≤ o ∧ o < off + d + p then (src (o - off)).getD 0 else content s.disk i o
  copied : ∀ k, k < d + p → (src k).isSome
  present : ∀ j, j < d → blockIn t.disk i (slot ((off + j) / BSIZE)) ≠ 0
  logged : t.logged = s.logged ∪ fillLog sb t.disk i K ∪ dataLog t.disk i off d
  changed : ∀ b, t.disk.blocks b ≠ s.disk.blocks b →
    b ∈ t.logged ∨ 0 < p ∧ b = blockIn t.disk i (slot ((off + d) / BSIZE))

lemma Wrote.refl (h : Acct sb s.disk.bits (refs s.disk i)) : Wrote sb i src off 0 0 ∅ s s := by
  refine ⟨Filled.refl h, fun o => ?_, fun k hk => absurd hk (by omega),
    fun j hj => absurd hj (by omega), ?_, fun b hb => absurd rfl hb⟩
  · rw [if_neg (by omega)]
  · simp [fillLog, dataLog]

/-- Bytes that are logged, and then others. -/
lemma Wrote.append {m : ℕ} (ht : (s.disk.inodes i).copy.type ≠ .free)
    (h1 : Wrote sb i src off m 0 K s t)
    (h2 : Wrote sb i (fun k => src (m + k)) (off + m) d p L t u) :
    Wrote sb i src off (m + d) p (K ∪ L) s u := by
  have htt : (t.disk.inodes i).copy.type ≠ .free := by rwa [h1.filled.copy_type]
  have hfill : fillLog sb u.disk i K = fillLog sb t.disk i K :=
    Finset.biUnion_congr rfl fun k hk => slotLog_kept h2.filled htt (h1.filled.fresh k hk).2
  have hdata : dataLog u.disk i off m = dataLog t.disk i off m :=
    Finset.image_congr fun j hj =>
      h2.filled.block_kept (h1.present j (Finset.mem_range.mp (Finset.mem_coe.mp hj)))
  have hsub : t.logged ⊆ u.logged := by
    rw [h2.logged, Finset.union_assoc]
    exact Finset.subset_union_left
  refine ⟨h1.filled.trans h2.filled, fun o => ?_, fun k hk => ?_, fun j hj => ?_, ?_,
    fun b hb => ?_⟩
  · rw [h2.result, h1.result]
    by_cases ho : off ≤ o ∧ o < off + (m + d) + p
    · rw [if_pos ho]
      by_cases hm : off + m ≤ o
      · rw [if_pos (by omega), show m + (o - (off + m)) = o - off by omega]
      · rw [if_neg (by omega), if_pos (by omega)]
    · rw [if_neg ho, if_neg (by omega), if_neg (by omega)]
  · by_cases hm : k < m
    · exact h1.copied k (by omega)
    · have := h2.copied (k - m) (by omega)
      rwa [show m + (k - m) = k by omega] at this
  · by_cases hm : j < m
    · rw [h2.filled.block_kept (h1.present j hm)]
      exact h1.present j hm
    · have := h2.present (j - m) (by omega)
      rwa [show off + m + (j - m) = off + j by omega] at this
  · rw [h2.logged, h1.logged, fillLog_union, dataLog_append, hfill, hdata]
    ext b
    simp only [Finset.mem_union]
    tauto
  · by_cases hbt : u.disk.blocks b = t.disk.blocks b
    · rw [hbt] at hb
      rcases h1.changed b hb with hb | ⟨hp, -⟩
      · exact Or.inl (hsub hb)
      · omega
    · have := h2.changed b hbt
      rwa [Nat.add_assoc] at this

lemma Wrote.before (ht : (s.disk.inodes i).copy.type ≠ .free) (h1 : Wrote sb i src off 0 0 K s t)
    (h2 : Wrote sb i src off d p L t u) : Wrote sb i src off d p (K ∪ L) s u := by
  have h2' : Wrote sb i (fun k => src (0 + k)) (off + 0) d p L t u := by
    simpa only [Nat.zero_add, Nat.add_zero] using h2
  have := h1.append ht h2'
  rwa [Nat.zero_add] at this

/-- The block with the last bytes is logged. -/
lemma Wrote.log (h : Wrote sb i src off 0 p K s t) (hp : p ≤ BSIZE - off % BSIZE)
    (hb : blockIn t.disk i (slot (off / BSIZE)) = b) (hb0 : b ≠ 0) (hpos : 0 < p) :
    Wrote sb i src off p 0 K s { t with logged := insert b t.logged } := by
  have hdiv : ∀ j, j < p → (off + j) / BSIZE = off / BSIZE :=
    fun j hj => div_add_of_lt (by omega)
  refine ⟨h.filled, fun o => ?_, fun k hk => h.copied k (by omega), fun j hj => ?_, ?_,
    fun c hc => ?_⟩
  · rw [h.result, Nat.add_zero, Nat.add_zero]
  · rw [hdiv j hj, hb]
    exact hb0
  · have hdata : dataLog t.disk i off p = {b} := by
      ext c
      simp only [dataLog, Finset.mem_image, Finset.mem_range, Finset.mem_singleton]
      constructor
      · rintro ⟨j, hj, rfl⟩
        rw [hdiv j hj, hb]
      · rintro rfl
        exact ⟨0, hpos, hb⟩
    rw [hdata, h.logged]
    ext c
    simp only [dataLog, Finset.range_zero, Finset.image_empty, Finset.union_empty,
      Finset.mem_insert, Finset.mem_union, Finset.mem_singleton]
    tauto
  · refine Or.inl (Finset.mem_insert.mpr ?_)
    rcases h.changed c hc with hl | ⟨-, rfl⟩
    · exact Or.inr hl
    · exact Or.inl hb

end Xv6.Fs.Logged
