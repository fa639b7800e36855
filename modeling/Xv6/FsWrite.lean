import Xv6.FsFill

/-!
The loop of `writei`: how far it comes, why it stops, and what it leaves behind.
-/

namespace Xv6.Fs.Logged

open Xv6.ByteMem Xv6.Wp

variable {sb : Superblock} {s t u : Traced} {i k b bn off d p n : ℕ} {K L : Finset ℕ}
  {src : ℕ → Option Byte} {E : Panic → Prop}

/-! ### bmap -/

lemma wp_balloc {Q : ℕ → Traced → Prop} {R : ℕ → ℕ → ℕ} (h : Acct sb s.disk.bits R)
    (hsome : ∀ b, b ≠ 0 → b < sb.size → s.disk.bits b = false → Q b
      { disk := { s.disk with
          bits := Function.update s.disk.bits b true
          blocks := Function.update s.disk.blocks b fun _ => 0 }
        logged := insert b (insert (BBLOCK sb b) s.logged) })
    (hnone : freeBlocks sb s.disk = ∅ → Q 0 s) : wp (balloc sb) Q E s := by
  unfold balloc
  simp only [wp_bind, wp_get]
  cases hf : (List.range sb.size).find? fun b => !s.disk.bits b with
  | none =>
    refine hnone (Finset.filter_eq_empty_iff.mpr fun b hb => ?_)
    have := List.find?_eq_none.mp hf b (List.mem_range.mpr (Finset.mem_range.mp hb))
    simpa using this
  | some b =>
    have hlt := List.mem_range.mp (List.mem_of_find?_eq_some hf)
    have hfree : s.disk.bits b = false := by simpa using List.find?_some hf
    refine hsome b ?_ hlt hfree
    rintro rfl
    rw [h.zero_used hlt] at hfree
    cases hfree

/-- A new block for an address of the inode. -/
lemma wrote_addr (h : Acct sb s.disk.bits (refs s.disk i))
    (ht : (s.disk.inodes i).copy.type ≠ .free) (hk : k ≤ NDIRECT)
    (hz : (s.disk.inodes i).copy.addrs k = 0) (hb0 : b ≠ 0) (hb : b < sb.size)
    (hf : s.disk.bits b = false) :
    Wrote sb i src off 0 0 {k} s
      { disk := { s.disk with
          bits := Function.update s.disk.bits b true
          blocks := Function.update s.disk.blocks b fun _ => 0
          inodes := Function.update s.disk.inodes i { s.disk.inodes i with
            copy := { (s.disk.inodes i).copy with
              addrs := Function.update (s.disk.inodes i).copy.addrs k b } } }
        logged := insert b (insert (BBLOCK sb b) s.logged) } := by
  have hg := grown_addr h ht hk hz hb hf
  have hrefs := refs_putAddr ht hk hz (h.free hb hf).2 (Function.update s.disk.bits b true)
  have hempty : blockIn s.disk i k = 0 := by rw [blockIn, refs_addr ht hk, hz]
  have hfill := Filled.of_grown hg hrefs hempty hb0 fun c hc => Function.update_of_ne hc _ _
  set t : Disk := { s.disk with
    bits := Function.update s.disk.bits b true
    blocks := Function.update s.disk.blocks b fun _ => 0
    inodes := Function.update s.disk.inodes i { s.disk.inodes i with
      copy := { (s.disk.inodes i).copy with
        addrs := Function.update (s.disk.inodes i).copy.addrs k b } } } with htdef
  have hself : blockIn t i k = b := by rw [blockIn, hfill.inum, hrefs, setRef_self]
  refine ⟨hfill, fun o => ?_, fun k hk => absurd hk (by omega), fun j hj => absurd hj (by omega),
    ?_, fun c hc => ?_⟩
  · rw [if_neg (by omega)]
    refine hfill.content_same hg (fun l hl _ => ?_) o
    rw [Finset.mem_singleton.mp hl, hself]
    exact Function.update_self _ _ _
  · simp only [fillLog, Finset.singleton_biUnion, slotLog, hself, dataLog, Finset.range_zero,
      Finset.image_empty, Finset.union_empty, if_neg (Nat.not_lt.mpr hk)]
    ext c
    simp only [Finset.mem_insert, Finset.mem_union, Finset.mem_singleton]
    tauto
  · refine Or.inl (Finset.mem_insert.mpr (Or.inl ?_))
    by_contra hcb
    exact hc (Function.update_of_ne hcb _ _)

/-- A new block for an entry of the indirect block. -/
lemma wrote_entry (src : ℕ → Option Byte) (off : ℕ) (h : Acct sb s.disk.bits (refs s.disk i))
    (ht : (s.disk.inodes i).copy.type ≠ .free) {j ind : ℕ} (hj : j < NINDIRECT)
    (hi : (s.disk.inodes i).copy.addrs NDIRECT = ind) (hind : ind ≠ 0)
    (hz : entry (s.disk.blocks ind) j = 0) (hb0 : b ≠ 0) (hb : b < sb.size)
    (hf : s.disk.bits b = false) :
    let m := Function.update s.disk.blocks b fun _ => 0
    let t : Disk := { s.disk with
      bits := Function.update s.disk.bits b true
      blocks := Function.update m ind (setEntry (m ind) j b) }
    Wrote sb i src off 0 0 {NDIRECT + 1 + j} s
      { disk := t, logged := insert ind (insert b (insert (BBLOCK sb b) s.logged)) } ∧
    blockIn t i (NDIRECT + 1 + j) = b := by
  intro m t
  subst hi
  have hg := grown_entry h ht hj hind hz hb hf
  have hno := (h.free hb hf).2
  have hrefs := refs_putEntry h ht hj hind hb hno (Function.update s.disk.bits b true)
  have hempty : blockIn s.disk i (NDIRECT + 1 + j) = 0 := by
    rw [blockIn, refs_entry ht hj hind, hz]
  have hfill := Filled.of_grown hg hrefs hempty hb0 fun c hc => Function.update_of_ne hc _ _
  set ind := (s.disk.inodes i).copy.addrs NDIRECT with hindeq
  have hself : blockIn t i (NDIRECT + 1 + j) = b := by
    rw [blockIn, hfill.inum]
    exact (congrFun (congrFun hrefs _) _).trans setRef_self
  have hindt : blockIn t i NDIRECT = ind := refs_addr ht (Nat.le_refl _)
  have hib : b ≠ ind := by
    rw [hindeq, ← refs_addr ht (Nat.le_refl _)]
    exact (hno _ _).symm
  refine ⟨⟨hfill, fun o => ?_, fun k hk => absurd hk (by omega), fun j hj => absurd hj (by omega),
    ?_, fun c hc => ?_⟩, hself⟩
  · rw [if_neg (by omega)]
    refine hfill.content_same hg (fun l hl _ => ?_) o
    rw [Finset.mem_singleton.mp hl, hself]
    change Function.update m ind _ b = _
    rw [Function.update_of_ne hib]
    exact Function.update_self _ _ _
  · simp only [fillLog, Finset.singleton_biUnion, slotLog, hself, hindt, dataLog,
      Finset.range_zero, Finset.image_empty, Finset.union_empty,
      if_pos (show NDIRECT < NDIRECT + 1 + j by omega)]
    ext c
    simp only [Finset.mem_insert, Finset.mem_union, Finset.mem_singleton]
    tauto
  · refine Or.inl ?_
    simp only [Finset.mem_insert]
    by_contra hcon
    push Not at hcon
    refine hc ?_
    change Function.update m ind _ c = _
    rw [Function.update_of_ne hcon.1]
    exact Function.update_of_ne hcon.2.1 _ _

lemma bmapAddr_wrote (src : ℕ → Option Byte) (off : ℕ) (h : Acct sb s.disk.bits (refs s.disk i))
    (ht : (s.disk.inodes i).copy.type ≠ .free) (hk : k ≤ NDIRECT) :
    wp (bmapAddr sb i k) (fun addr t => ∃ K ⊆ ({k} : Finset ℕ), Wrote sb i src off 0 0 K s t ∧
      (t.disk.inodes i).copy.addrs k = addr ∧
      (addr = 0 → freeBlocks sb t.disk = ∅)) E s := by
  unfold bmapAddr
  simp only [wp_bind, wp_get]
  by_cases hz : (s.disk.inodes i).copy.addrs k = 0
  · rw [if_pos hz]
    simp only [wp_bind]
    refine wp_balloc h (fun b hb0 hb hf => ?_) fun hfull => ?_
    · rw [if_neg hb0]
      simp only [wp_bind, fs, wp_zoom, setAddr, setCopy, setInode, wp_modify, wp_pure]
      refine ⟨{k}, Finset.Subset.refl _, wrote_addr h ht hk hz hb0 hb hf, by simp,
        fun hc => absurd hc hb0⟩
    · rw [if_pos rfl]
      exact ⟨∅, Finset.empty_subset _, Wrote.refl h, hz, fun _ => hfull⟩
  · rw [if_neg hz]
    exact ⟨∅, Finset.empty_subset _, Wrote.refl h, rfl, fun hc => absurd hc hz⟩

/-- `bmap` finds the block in the slot, or fills the slot, or there is no block left. -/
lemma bmap_wrote (src : ℕ → Option Byte) (off : ℕ) (h : Acct sb s.disk.bits (refs s.disk i))
    (ht : (s.disk.inodes i).copy.type ≠ .free) (hbn : bn < MAXFILE) :
    wp (bmap sb i bn) (fun addr t => ∃ K ⊆ blockSlots bn, Wrote sb i src off 0 0 K s t ∧
      blockIn t.disk i (slot bn) = addr ∧ (addr = 0 → freeBlocks sb t.disk = ∅)) E s := by
  unfold bmap
  by_cases hd : bn < NDIRECT
  · rw [if_pos hd]
    refine wp_post (bmapAddr_wrote src off h ht (Nat.le_of_lt hd)) ?_
    rintro addr t ⟨K, hK, hw, ha, hfull⟩
    refine ⟨K, ?_, hw, ?_, hfull⟩
    · rwa [blockSlots, if_pos hd]
    · rw [slot, if_pos hd, blockIn,
        refs_addr (by rw [hw.filled.copy_type]; exact ht) (Nat.le_of_lt hd), ha]
  rw [if_neg hd]
  have hj : bn - NDIRECT < NINDIRECT := by unfold MAXFILE at hbn; omega
  have hslot : slot bn = NDIRECT + 1 + (bn - NDIRECT) := by
    rw [slot, if_neg hd]
    omega
  have hslots : blockSlots bn = {NDIRECT} ∪ {slot bn} := by
    rw [blockSlots, if_neg hd]
    rfl
  rw [if_pos hj, hslots, wp_bind]
  refine wp_post (bmapAddr_wrote src off h ht (Nat.le_refl _)) ?_
  rintro ind t ⟨K, hK, hw, ha, hfull⟩
  have htt : (t.disk.inodes i).copy.type ≠ .free := by rwa [hw.filled.copy_type]
  have hKs : K ⊆ {NDIRECT} ∪ {slot bn} := hK.trans Finset.subset_union_left
  by_cases hind : ind = 0
  · rw [if_pos hind]
    refine ⟨K, hKs, hw, ?_, fun _ => hfull hind⟩
    by_contra hne
    exact indirect_of_block htt hd hne (ha.trans hind)
  rw [if_neg hind]
  have hent : blockIn t.disk i (slot bn) = entry (t.disk.blocks ind) (bn - NDIRECT) := by
    rw [hslot, blockIn, refs_entry htt hj (by rwa [ha]), ha]
  simp only [wp_bind, wp_get]
  by_cases hz : entry (t.disk.blocks ind) (bn - NDIRECT) = 0
  · rw [if_pos hz]
    simp only [wp_bind]
    refine wp_balloc hw.filled.acct (fun b hb0 hb hf => ?_) fun hempty => ?_
    · rw [if_neg hb0]
      simp only [wp_bind, wp_get, fs, wp_zoom, setBlock, log_write, wp_modify, wp_pure]
      obtain ⟨he, hnew⟩ := wrote_entry src off hw.filled.acct htt hj ha hind hz hb0 hb hf
      refine ⟨K ∪ {slot bn}, Finset.union_subset_union_left hK, ?_, ?_, fun hc => absurd hc hb0⟩
      · rw [hslot]
        exact hw.before ht he
      · rw [hslot]
        exact hnew
    · rw [if_pos rfl]
      exact ⟨K, hKs, hw, hent.trans hz, fun _ => hempty⟩
  · rw [if_neg hz]
    exact ⟨K, hKs, hw, hent, fun hc => absurd hc hz⟩

/-! ### The loop -/

lemma takeWhile_range (P : ℕ → Bool) (m : ℕ) : ∃ p ≤ m, (List.range m).takeWhile P = List.range p ∧
    (∀ k, k < p → P k = true) ∧ (p < m → P p = false) := by
  induction m with
  | zero => exact ⟨0, Nat.le_refl 0, rfl, fun k hk => absurd hk (by omega), fun h => absurd h (by omega)⟩
  | succ m ih =>
    obtain ⟨p, hle, he, hall, hstop⟩ := ih
    rw [List.range_succ, List.takeWhile_append, he, List.length_range, List.length_range]
    by_cases hpm : p = m
    · subst hpm
      rw [if_pos rfl]
      cases hP : P p with
      | true =>
        refine ⟨p + 1, Nat.le_refl _, ?_, fun k hk => ?_, fun h => absurd h (by omega)⟩
        · rw [List.range_succ, List.takeWhile_cons_of_pos hP]
          rfl
        · rcases Nat.lt_succ_iff_lt_or_eq.mp hk with hk | rfl
          · exact hall k hk
          · exact hP
      | false =>
        refine ⟨p, Nat.le_succ p, ?_, hall, fun _ => hP⟩
        rw [List.takeWhile_cons_of_neg (by simp [hP]), List.append_nil]
    · rw [if_neg hpm]
      exact ⟨p, Nat.le_succ_of_le hle, rfl, hall, fun _ => hstop (by omega)⟩

lemma mapped_spec (src : ℕ → Option Byte) (tot m : ℕ) : (mapped src tot m).length ≤ m ∧
    (∀ k, k < (mapped src tot m).length →
      src (tot + k) = some ((mapped src tot m).getD k 0)) ∧
    ((mapped src tot m).length < m → src (tot + (mapped src tot m).length) = none) := by
  obtain ⟨p, hle, he, hall, hstop⟩ := takeWhile_range (fun k => (src (tot + k)).isSome) m
  have hlen : (mapped src tot m).length = p := by
    rw [mapped, he, List.length_map, List.length_range]
  rw [hlen]
  refine ⟨hle, fun k hk => ?_, fun hp => ?_⟩
  · obtain ⟨v, hv⟩ := Option.isSome_iff_exists.mp (hall k hk)
    rw [mapped, he, List.getD_eq_getElem _ _ (by simpa using hk), List.getElem_map,
      List.getElem_range, hv]
    rfl
  · simpa using hstop hp

/-- The bytes `bs` have gone to offset `o` of block `b`. -/
def putBlock (s : Disk) (b o : ℕ) (bs : List Byte) : Disk :=
  { s with blocks := Function.update s.blocks b (put (s.blocks b) o bs) }

lemma putBlock_self (s : Disk) (b o : ℕ) (bs : List Byte) :
    (putBlock s b o bs).blocks b = put (s.blocks b) o bs := Function.update_self _ _ _

lemma putBlock_ne (s : Disk) {b c : ℕ} (o : ℕ) (bs : List Byte) (h : c ≠ b) :
    (putBlock s b o bs).blocks c = s.blocks c := Function.update_of_ne h _ _

/-- Bytes go into a block of the file. -/
lemma wrote_block (src : ℕ → Option Byte) {bs : List Byte} (h : Acct sb s.disk.bits (refs s.disk i))
    (hb : blockIn s.disk i (slot (off / BSIZE)) = b) (hb0 : b ≠ 0)
    (hlen : bs.length ≤ BSIZE - off % BSIZE)
    (hsrc : ∀ k, k < bs.length → src k = some (bs.getD k 0)) :
    Wrote sb i src off 0 bs.length ∅ s { s with disk := putBlock s.disk b (off % BSIZE) bs } ∧
      blockIn (putBlock s.disk b (off % BSIZE) bs) i (slot (off / BSIZE)) = b := by
  have hrefs : refs (putBlock s.disk b (off % BSIZE) bs) i = refs s.disk i := by
    refine refAt_update (fun y he => ?_) _
    have hne : refs s.disk i y NDIRECT ≠ 0 := by rwa [show refs s.disk i y NDIRECT = b from he]
    exact slot_ne_indirect _ (h.inj _ _ _ _ hne (Eq.trans he hb.symm)).2.symm
  have hblk : ∀ l, blockIn (putBlock s.disk b (off % BSIZE) bs) i l = blockIn s.disk i l :=
    fun l => congrFun (congrFun hrefs _) l
  refine ⟨⟨Filled.blocks h hrefs, fun o => ?_, fun k hk => ?_, fun j hj => absurd hj (by omega), ?_,
    fun c hc => ?_⟩, (hblk _).trans hb⟩
  · have hmod := Nat.div_add_mod o BSIZE
    have hmod' := Nat.div_add_mod off BSIZE
    rw [content_eq, content_eq]
    dsimp only
    rw [hblk]
    by_cases hs : o / BSIZE = off / BSIZE
    · rw [hs, hb, if_neg hb0, if_neg hb0, putBlock_self]
      rw [hs] at hmod
      by_cases ho : off ≤ o ∧ o < off + 0 + bs.length
      · rw [if_pos ho, put_in (by omega) (by omega), hsrc (o - off) (by omega),
          show o % BSIZE - off % BSIZE = o - off by omega]
        rfl
      · rw [if_neg ho, put_out (by omega)]
    · have hout : ¬(off ≤ o ∧ o < off + 0 + bs.length) := by
        intro ho
        have := div_add_of_lt (show o - off < BSIZE - off % BSIZE by omega)
        rw [show off + (o - off) = o by omega] at this
        exact hs this
      rw [if_neg hout]
      by_cases h0 : blockIn s.disk i (slot (o / BSIZE)) = 0
      · rw [if_pos h0, if_pos h0]
      · rw [if_neg h0, if_neg h0, putBlock_ne]
        intro he
        exact hs (slot_inj (h.inj _ _ _ _ h0 (he.trans hb.symm)).2)
  · rw [hsrc k (by omega)]
    rfl
  · simp [fillLog, dataLog]
  · dsimp only
    rw [Nat.add_zero, hblk, hb]
    have hcb : c = b := by
      by_contra hne
      exact hc (putBlock_ne _ _ _ hne)
    refine Or.inr ⟨?_, hcb⟩
    by_contra h0
    refine hc ?_
    subst hcb
    dsimp only
    rw [putBlock_self]
    funext x
    exact put_out (by omega)

/-- Why the loop stops: all `n` bytes are in, or there is no block for the next byte, or only `p`
bytes of the next chunk could be copied. -/
inductive Stop (sb : Superblock) (i : ℕ) (src : ℕ → Option Byte) (off n d p : ℕ) (K : Finset ℕ)
    (t : Disk) : Prop where
  | done (all : d = n) (clean : p = 0) (slots : K ⊆ slotsOf off n)
  | full (short : d < n) (clean : p = 0) (start : d = 0 ∨ (off + d) % BSIZE = 0)
    (slots : K ⊆ slotsOf off (d + 1)) (none_left : freeBlocks sb t = ∅)
    (lacks : blockIn t i (slot ((off + d) / BSIZE)) = 0)
  | fault (short : d < n) (start : d = 0 ∨ (off + d) % BSIZE = 0)
    (slots : K ⊆ slotsOf off (d + 1)) (part : p < min (n - d) (BSIZE - (off + d) % BSIZE))
    (unmapped : src (d + p) = none) (has : blockIn t i (slot ((off + d) / BSIZE)) ≠ 0)

/-- A whole chunk of `m` bytes comes before the rest. -/
lemma Stop.after {m : ℕ} {t : Disk} (hm : m = min n (BSIZE - off % BSIZE)) (hn : 0 < n)
    (hK : K ⊆ blockSlots (off / BSIZE))
    (h : Stop sb i (fun k => src (m + k)) (off + m) (n - m) d p L t) :
    Stop sb i src off n (m + d) p (K ∪ L) t := by
  have hpos : 0 < m := by
    have := Nat.mod_lt off (show BSIZE > 0 by decide)
    omega
  have hslots : ∀ w, L ⊆ slotsOf (off + m) w → K ∪ L ⊆ slotsOf off (m + w) := fun w hL =>
    Finset.union_subset (hK.trans (blockSlots_subset (j := 0) (by omega)))
      (hL.trans (slotsOf_append off m w))
  have hstart : d < n - m → d = 0 ∨ (off + m + d) % BSIZE = 0 → (off + (m + d)) % BSIZE = 0 := by
    rintro hd (rfl | h0)
    · have hmB : m = BSIZE - off % BSIZE := by omega
      unfold BSIZE at *
      omega
    · rwa [← Nat.add_assoc]
  cases h with
  | done all clean slots =>
    refine .done (by omega) clean ?_
    have := hslots _ slots
    rwa [show m + (n - m) = n by omega] at this
  | full short clean start slots none_left lacks =>
    refine .full (by omega) clean (Or.inr (hstart short start)) (hslots (d + 1) slots) none_left ?_
    rwa [Nat.add_assoc] at lacks
  | fault short start slots part unmapped has =>
    rw [Nat.add_assoc] at has part
    rw [Nat.sub_sub] at part
    refine .fault (by omega) (Or.inr (hstart short start)) (hslots (d + 1) slots) part ?_ has
    rwa [Nat.add_assoc]

/-- **The loop of `writei`** writes a part of the source and says why it stops. -/
theorem writeiLoop_wrote (src : ℕ → Option Byte) (n : ℕ) : ∀ fuel tot off (s : Traced),
    tot ≤ n → n - tot < fuel → Acct sb s.disk.bits (refs s.disk i) →
    (s.disk.inodes i).copy.type ≠ .free → (∀ j, j < n - tot → (off + j) / BSIZE < MAXFILE) →
    wp (writeiLoop sb i src n fuel tot off) (fun r t => ∃ d p K, r = (tot + d, off + d) ∧
      Wrote sb i (fun k => src (tot + k)) off d p K s t ∧
      Stop sb i (fun k => src (tot + k)) off (n - tot) d p K t.disk) E s := by
  intro fuel
  induction fuel with
  | zero => intro tot off s _ hf; omega
  | succ fuel ih =>
    intro tot off s hle hf h ht hbn
    rw [writeiLoop]
    by_cases hn : tot < n
    swap
    · rw [if_neg hn]
      exact ⟨0, 0, ∅, rfl, Wrote.refl h, .done (by omega) rfl (Finset.empty_subset _)⟩
    rw [if_pos hn, wp_bind]
    set m := min (n - tot) (BSIZE - off % BSIZE) with hm
    have hpos : 0 < m := by
      have := Nat.mod_lt off (show BSIZE > 0 by decide)
      omega
    have hbn0 : off / BSIZE < MAXFILE := by simpa only [Nat.add_zero] using hbn 0 (by omega)
    refine wp_post (bmap_wrote (fun k => src (tot + k)) off h ht hbn0) ?_
    rintro addr t ⟨K, hK, hw, ha, hfull⟩
    have hK1 : K ⊆ slotsOf off 1 := hK.trans (blockSlots_subset (j := 0) (by omega))
    by_cases ha0 : addr = 0
    · rw [if_pos ha0]
      exact ⟨0, 0, K, rfl, hw, .full (by omega) rfl (Or.inl rfl) hK1 (hfull ha0) (ha.trans ha0)⟩
    rw [if_neg ha0]
    obtain ⟨hlen, hsome, hnone⟩ := mapped_spec src tot m
    obtain ⟨hput, hhas⟩ := wrote_block (fun k => src (tot + k)) hw.filled.acct ha ha0
      (hlen.trans (Nat.min_le_right _ _)) hsome
    have hblock := hw.before ht hput
    rw [Finset.union_empty] at hblock
    simp only [wp_bind, wp_get, fs, wp_zoom, setBlock, wp_modify]
    change wp _ _ _ { t with disk := putBlock t.disk addr (off % BSIZE) (mapped src tot m) }
    by_cases hall : (mapped src tot m).length = m
    · rw [if_pos hall]
      rw [hall] at hblock
      have hlog := hblock.log (Nat.min_le_right _ _) hhas ha0 hpos
      simp only [wp_bind, log_write, wp_modify]
      refine wp_post (ih (tot + m) (off + m) _ (by omega) (by omega) hlog.filled.acct
        (by rw [hlog.filled.copy_type]; exact ht) fun j hj => ?_) ?_
      · have := hbn (m + j) (by omega)
        rwa [← Nat.add_assoc] at this
      rintro r u ⟨d, p, L, rfl, hw', hstop⟩
      simp only [Nat.add_assoc tot] at hw' hstop
      refine ⟨m + d, p, K ∪ L, by rw [Nat.add_assoc, Nat.add_assoc], hlog.append ht hw', ?_⟩
      rw [show n - (tot + m) = n - tot - m by omega] at hstop
      exact hstop.after hm (by omega) hK
    · rw [if_neg hall]
      refine ⟨0, _, K, rfl, hblock, .fault (by omega) (Or.inl rfl) hK1 ?_ ?_ ?_⟩
      · rw [Nat.sub_zero, Nat.add_zero]
        omega
      · rw [Nat.zero_add]
        exact hnone (by omega)
      · rw [Nat.add_zero]
        dsimp only
        rw [hhas]
        exact ha0

end Xv6.Fs.Logged
