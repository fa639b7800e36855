import Xv6.FsFile

/-!
A write that fails. What `either_copyin` has put into the cached block before it meets a page that
is not mapped stays there: readers see it, and the block is not on the log.
-/

namespace Xv6.Fs.Logged

open Xv6.ByteMem Xv6.Wp

variable {sb : Superblock} {s : Disk} {t : Traced} {i k b off n d p e : ℕ} {K : Finset ℕ}
  {src : ℕ → Option Byte}

/-- Block `b`, of data, of the free map or of inodes, is not what it was. -/
def Modified (sb : Superblock) (s t : Disk) (b : ℕ) : Prop :=
  (∃ x < BSIZE, t.blocks b x ≠ s.blocks b x) ∨ (∃ c, BBLOCK sb c = b ∧ t.bits c ≠ s.bits c) ∨
    ∃ j, IBLOCK sb j = b ∧ t.dinodes j ≠ s.dinodes j

/-- What `readi` returns are bytes of `l`, and all of those asked for unless it meets a hole. -/
def Sees (sb : Superblock) (i : ℕ) (t : Disk) (l : List Byte) : Prop :=
  ∀ off n, off < 2 ^ 32 → n < 2 ^ 32 →
    ∃ (bs : List Byte) (u : Disk), readi sb i kernelDst off n t = .ok (((bs.length : ℕ), bs), u) ∧
      bs <+: readAt l off n ∧
      ((∀ o, off ≤ o → o < off + n → o < l.length → blockIn t i (slot (o / BSIZE)) ≠ 0) →
        bs = readAt l off n)

/-- The slots of the inodes other than `x` and the blocks in them are what they were. -/
def Others (i x : ℕ) (s t : Disk) : Prop := ∀ y k, y ≠ x → refs t i y k = refs s i y k ∧
  (refs s i y k ≠ 0 → t.blocks (refs s i y k) = s.blocks (refs s i y k))

/-- If `writei` reports fewer than `n` bytes, it has changed these and nothing else, and every block
it has changed is on the log. -/
def Reports (sb : Superblock) (i : ℕ) (src : ℕ → Option Byte) (off n : ℕ) (s : Disk) : Prop :=
  ∃ r t, writei sb i src off n ⟨s, ∅⟩ = .ok (r, t) ∧ (r < n →
    Sees sb i t.disk
      (overwrite (fileBytes s i) off ((List.range r.toNat).map fun k => (src k).getD 0)) ∧
    Others i (s.inodes i).inum s t.disk ∧ ∀ b, Modified sb s t.disk b → b ∈ t.logged)

/-! ### What has been changed -/

/-- A changed block is on the log, or is the one whose chunk was given up. -/
lemma modified_cases (hw : Wrote sb i src off d p K ⟨s, ∅⟩ t)
    (hb : Modified sb s (finish t.disk i e) b) :
    b ∈ insert (IBLOCK sb (s.inodes i).inum) t.logged ∨
      b = blockIn t.disk i (slot ((off + d) / BSIZE)) ∧ 0 < p ∧
        ∃ x < BSIZE, t.disk.blocks b x ≠ s.blocks b x := by
  rcases hb with ⟨x, hx, hb⟩ | ⟨c, rfl, hc⟩ | ⟨j, rfl, hj⟩
  · have hne : t.disk.blocks b ≠ s.blocks b := fun he => hb (congrFun he x)
    rcases hw.changed b hne with hl | ⟨hp, hbl⟩
    · exact Or.inl (Finset.mem_insert_of_mem hl)
    · exact Or.inr ⟨hbl, hp, x, hx, hb⟩
  · refine Or.inl (Finset.mem_insert_of_mem ?_)
    by_cases hk : ∃ k ∈ K, blockIn t.disk i k = c
    · obtain ⟨k, hk, rfl⟩ := hk
      rw [hw.logged]
      refine Finset.mem_union_left _ (Finset.mem_union_right _ ?_)
      refine Finset.mem_biUnion.mpr ⟨k, hk, Finset.mem_union_left _ ?_⟩
      exact Finset.mem_insert_of_mem (Finset.mem_singleton_self _)
    · exact absurd (hw.filled.bits c fun k hk' he => hk ⟨k, hk', he⟩) hc
  · refine Or.inl (Finset.mem_insert.mpr (Or.inl ?_))
    by_contra hne
    have hji : j ≠ (t.disk.inodes i).inum := by
      rintro rfl
      rw [hw.filled.inum] at hne
      exact hne rfl
    refine hj ?_
    change Function.update t.disk.dinodes _ _ j = _
    rw [Function.update_of_ne hji, hw.filled.dinodes]

lemma bblock_lt (sb : Superblock) (hb : b < sb.size) : BBLOCK sb b < sb.nmeta := by
  have := Nat.div_le_div_right (c := BPB) (Nat.le_of_lt hb)
  unfold BBLOCK Superblock.nmeta
  omega

/-- What is logged: blocks before the data blocks, and the blocks of slots that have been filled or
written to, or the indirect block. -/
lemma logged_cases (ht : (s.inodes i).copy.type ≠ .free) (hw : Wrote sb i src off d p K ⟨s, ∅⟩ t)
    (hb : b ∈ t.logged) : b < sb.nmeta ∨ ∃ k, blockIn t.disk i k = b ∧ blockIn t.disk i k ≠ 0 ∧
      (k ∈ K ∨ k = NDIRECT ∨ ∃ j < d, k = slot ((off + j) / BSIZE)) := by
  rw [hw.logged] at hb
  rcases Finset.mem_union.mp hb with hb | hb
  · rcases Finset.mem_union.mp hb with hb | hb
    · exact absurd hb (Finset.notMem_empty b)
    obtain ⟨k, hk, hb⟩ := Finset.mem_biUnion.mp hb
    have hne := (hw.filled.fresh k hk).2
    rcases Finset.mem_union.mp hb with hb | hb
    · rcases Finset.mem_insert.mp hb with rfl | hb
      · exact Or.inr ⟨k, rfl, hne, Or.inl hk⟩
      · rw [Finset.mem_singleton.mp hb]
        exact Or.inl (bblock_lt sb (hw.filled.acct.range _ _ hne).2)
    · split_ifs at hb with hn
      · have htt : (t.disk.inodes i).copy.type ≠ .free := by rwa [hw.filled.copy_type]
        rw [Finset.mem_singleton.mp hb]
        exact Or.inr ⟨NDIRECT, rfl, indirect_of_slot htt hn hne, Or.inr (Or.inl rfl)⟩
      · exact absurd hb (Finset.notMem_empty b)
  · obtain ⟨j, hj, rfl⟩ := Finset.mem_image.mp hb
    have hj := Finset.mem_range.mp hj
    exact Or.inr ⟨_, rfl, hw.present j hj, Or.inr (Or.inr ⟨j, hj, rfl⟩)⟩

lemma others (h : FileOk sb i s) (hw : Wrote sb i src off d p K ⟨s, ∅⟩ t) :
    Others i (s.inodes i).inum s (finish t.disk i e) := by
  intro y k hy
  have hr : refs t.disk i y k = refs s i y k := hw.filled.old y k fun hc => hy hc.1
  rw [refs_finish]
  refine ⟨hr, fun h0 => ?_⟩
  by_contra hne
  have hown : ∀ l, blockIn t.disk i l = refs s i y k → False := by
    intro l hl
    rw [← hr] at hl h0
    have := (hw.filled.acct.inj _ _ _ _ h0 hl.symm).1
    rw [hw.filled.inum] at this
    exact hy this
  rcases hw.changed _ hne with hl | ⟨-, hl⟩
  · rcases logged_cases h.type hw hl with hlt | ⟨l, hl, -, -⟩
    · have := (hw.filled.acct.range y k (by rwa [hr])).1
      rw [hr] at this
      omega
    · exact hown l hl
  · exact hown _ hl.symm

lemma given_up (h : FileOk sb i s) (hw : Wrote sb i src off d p K ⟨s, ∅⟩ t)
    (hstart : d = 0 ∨ (off + d) % BSIZE = 0)
    (hs : blockIn s i (slot ((off + d) / BSIZE)) ≠ 0) :
    blockIn t.disk i (slot ((off + d) / BSIZE)) ∉
      insert (IBLOCK sb (s.inodes i).inum) t.logged := by
  have hkept := hw.filled.block_kept hs
  have hne : blockIn t.disk i (slot ((off + d) / BSIZE)) ≠ 0 := by rwa [hkept]
  have hge : sb.nmeta ≤ blockIn t.disk i (slot ((off + d) / BSIZE)) :=
    (hw.filled.acct.range _ _ hne).1
  intro hmem
  rcases Finset.mem_insert.mp hmem with he | hmem
  · have := h.inum
    omega
  rcases logged_cases h.type hw hmem with hlt | ⟨k, he, hk0, hk⟩
  · omega
  obtain rfl := (hw.filled.acct.inj _ _ _ _ hk0 he).2
  rcases hk with hk | hk | ⟨j, hj, hk⟩
  · exact hs (hw.filled.fresh _ hk).1
  · exact slot_ne_indirect _ hk
  · have hdiv := slot_inj hk
    rcases hstart with rfl | h0
    · omega
    · unfold BSIZE at *
      omega

/-! ### When the report is true -/

lemma given_up_div {o : ℕ} (hp : p < BSIZE - (off + d) % BSIZE) (h1 : off + d ≤ o)
    (h2 : o < off + d + p) : o / BSIZE = (off + d) / BSIZE := by
  have := div_add_of_lt (show o - (off + d) < BSIZE - (off + d) % BSIZE by omega)
  rwa [show off + d + (o - (off + d)) = o by omega] at this

/-- The chunk that was given up has changed its block, unless the bytes copied were there before. -/
lemma given_up_same (hw : Wrote sb i src off d p K ⟨s, ∅⟩ t)
    (hstart : d = 0 ∨ (off + d) % BSIZE = 0) (hp : p < BSIZE - (off + d) % BSIZE)
    (hs : blockIn s i (slot ((off + d) / BSIZE)) ≠ 0) :
    (∀ x < BSIZE, t.disk.blocks (blockIn t.disk i (slot ((off + d) / BSIZE))) x =
        s.blocks (blockIn t.disk i (slot ((off + d) / BSIZE))) x) ↔
      ∀ o, off + d ≤ o → o < off + d + p → content s i o = (src (o - off)).getD 0 := by
  have hkept : blockIn t.disk i (slot ((off + d) / BSIZE)) =
      blockIn s i (slot ((off + d) / BSIZE)) := hw.filled.block_kept hs
  have hbytes : ∀ o, o / BSIZE = (off + d) / BSIZE →
      content t.disk i o = t.disk.blocks (blockIn s i (slot ((off + d) / BSIZE))) (o % BSIZE) ∧
      content s i o = s.blocks (blockIn s i (slot ((off + d) / BSIZE))) (o % BSIZE) := by
    intro o ho
    rw [content_eq, content_eq, ho, hkept, if_neg hs, if_neg hs]
    exact ⟨rfl, rfl⟩
  rw [hkept]
  constructor
  · intro hall o h1 h2
    obtain ⟨ht, hs'⟩ := hbytes o (given_up_div hp h1 h2)
    rw [hs', ← hall _ (Nat.mod_lt _ (by decide)), ← ht, hw.result, if_pos (by omega)]
  · intro hall x hx
    set o := (off + d) / BSIZE * BSIZE + x with ho
    have hodiv : o / BSIZE = (off + d) / BSIZE := by
      unfold BSIZE at *
      omega
    have homod : o % BSIZE = x := by
      unfold BSIZE at *
      omega
    obtain ⟨ht, hs'⟩ := hbytes o hodiv
    rw [homod] at ht hs'
    rw [← ht, ← hs', hw.result]
    by_cases hin : off ≤ o ∧ o < off + d + p
    · rw [if_pos hin, hall o ?_ hin.2]
      -- the block begins where the chunk does, or before the offset of the write
      rcases hstart with rfl | h0
      · omega
      · have := Nat.div_add_mod (off + d) BSIZE
        rw [Nat.mul_comm] at this
        omega
    · rw [if_neg hin]

lemma sees_fileBytes (h : FileOk sb i s) : Sees sb i s (fileBytes s i) := by
  intro off n hoff hn
  obtain ⟨r, u, hrun, bs, rfl, hpre, hall⟩ := wp_returns (readi_content h.acct h.type h.size hoff hn)
  refine ⟨bs, u, hrun, hpre, fun hpres => (hall fun o h1 h2 h3 => hpres o h1 h2 ?_).1⟩
  rwa [length_fileBytes]

lemma sees_byte {l : List Byte} {o : ℕ} (h : FileOk sb i s) (hl : Sees sb i s l)
    (ho : o < (s.inodes i).copy.size) (hol : o < l.length)
    (hb : blockIn s i (slot (o / BSIZE)) ≠ 0) : l.getD o 0 = content s i o := by
  have hmax : MAXFILE * BSIZE < 2 ^ 32 - 1 := by decide
  have hsize := h.size
  have hone : ∀ x, o ≤ x → x < o + 1 → x < (fileBytes s i).length →
      blockIn s i (slot (x / BSIZE)) ≠ 0 := by
    intro x h1 h2 _
    rwa [show x = o by omega]
  obtain ⟨bs, u, hrun, -, hfull⟩ := sees_fileBytes h o 1 (by omega) (by omega)
  obtain ⟨cs, v, hrun', hpre, -⟩ := hl o 1 (by omega) (by omega)
  have hbs := hfull hone
  rw [hrun] at hrun'
  obtain rfl : bs = cs := by
    simp only [Except.ok.injEq, Prod.mk.injEq] at hrun'
    exact hrun'.1.2
  rw [hbs, readAt, readAt, length_fileBytes, if_neg (by omega), if_neg (by omega)] at hpre
  have hget := hpre.getElem (i := 0)
    (by rw [List.length_take, List.length_drop, length_fileBytes]; omega)
  simp only [List.getElem_take, List.getElem_drop, Nat.add_zero, fileBytes, List.getElem_map,
    List.getElem_range] at hget
  rw [List.getD_eq_getElem _ _ hol]
  exact hget.symm

lemma reports_iff_run {r : ℤ} (hrun : writei sb i src off n ⟨s, ∅⟩ = .ok (r, t)) :
    Reports sb i src off n s ↔ (r < n → Sees sb i t.disk
      (overwrite (fileBytes s i) off ((List.range r.toNat).map fun k => (src k).getD 0)) ∧
      Others i (s.inodes i).inum s t.disk ∧ ∀ b, Modified sb s t.disk b → b ∈ t.logged) := by
  constructor
  · rintro ⟨r', t', hrun', hall⟩
    rw [hrun] at hrun'
    obtain ⟨rfl, rfl⟩ : r = r' ∧ t = t' := by
      simpa only [Except.ok.injEq, Prod.mk.injEq] using hrun'
    exact hall
  · exact fun hall => ⟨r, t, hrun, hall⟩

lemma reports_rejected (h : FileOk sb i s) (src : ℕ → Option Byte) (hoff : off < 2 ^ 32)
    (hn : n < 2 ^ 32) (hr : Rejected s i off n) : Reports sb i src off n s := by
  obtain ⟨r, t, hrun, rfl, rfl⟩ := wp_returns
    (writei_rejected (s := ⟨s, ∅⟩) (E := fun _ => False) src hoff hn hr)
  rw [reports_iff_run hrun]
  refine fun _ => ⟨?_, fun y k _ => ⟨rfl, fun _ => rfl⟩, fun b hb => ?_⟩
  · rw [show ((-1 : ℤ).toNat) = 0 from rfl, List.range_zero, List.map_nil, overwrite_nil]
    exact sees_fileBytes h
  · rcases hb with ⟨x, -, hx⟩ | ⟨c, -, hc⟩ | ⟨j, -, hj⟩
    · exact absurd rfl hx
    · exact absurd rfl hc
    · exact absurd rfl hj

/-- Bytes copied of the chunk that was given up do no harm if they are not read and their block is
new, or if they were there before. -/
lemma reports_fault (h : FileOk sb i s) (hr : ¬Rejected s i off n) (hdn : d < n)
    (hw : Wrote sb i src off d p K ⟨s, ∅⟩ t) (hstart : d = 0 ∨ (off + d) % BSIZE = 0)
    (hp : p < BSIZE - (off + d) % BSIZE)
    (hhas : 0 < p → blockIn t.disk i (slot ((off + d) / BSIZE)) ≠ 0)
    (hall : ∀ o, off + d ≤ o → o < off + d + p →
      (blockIn s i (slot (o / BSIZE)) ≠ 0 ∨ o < (s.inodes i).copy.size) →
      content s i o = (src (o - off)).getD 0) :
    Sees sb i (finish t.disk i (off + d))
      (overwrite (fileBytes s i) off ((List.range d).map fun k => (src k).getD 0)) ∧
    Others i (s.inodes i).inum s (finish t.disk i (off + d)) ∧
    ∀ b, Modified sb s (finish t.disk i (off + d)) b →
      b ∈ insert (IBLOCK sb (s.inodes i).inum) t.logged := by
  unfold Rejected at hr
  push Not at hr
  refine ⟨?_, others h hw, fun b hb => ?_⟩
  · have hbytes := hw.fileBytes hr.1 fun o h1 h2 h3 => hall o h1 h2 (Or.inr h3)
    dsimp only at hbytes
    rw [← hbytes]
    exact sees_fileBytes (hw.fileOk h (by omega))
  · rcases modified_cases hw hb with hl | ⟨rfl, hpos, x, hx, hne⟩
    · exact hl
    by_cases hs : blockIn s i (slot ((off + d) / BSIZE)) = 0
    · -- a new block was logged when it was zeroed
      have hk : slot ((off + d) / BSIZE) ∈ K := by
        by_contra hk
        exact hhas hpos ((hw.filled.block_old hk).trans hs)
      refine Finset.mem_insert_of_mem ?_
      rw [hw.logged]
      refine Finset.mem_union_left _ (Finset.mem_union_right _ ?_)
      refine Finset.mem_biUnion.mpr ⟨_, hk, Finset.mem_union_left _ ?_⟩
      exact Finset.mem_insert_self _ _
    · refine absurd ((given_up_same hw hstart hp hs).mpr (fun o h1 h2 => ?_) x hx) hne
      refine hall o h1 h2 (Or.inl ?_)
      rwa [given_up_div hp h1 h2]

/-- **When a failed write changes only what it reports**: when it is turned down; when the source is
mapped to its end; when the free blocks run out before the first byte that is not mapped, byte `L`;
or when each byte that was copied of the chunk with byte `L` was there before, or is behind the end
of the file in a new block. -/
theorem write_reports_iff (h : FileOk sb i s) {src : ℕ → Option Byte} {off n L : ℕ} (hoff : off < 2 ^ 32)
    (hn : n < 2 ^ 32) (hmap : ∀ k < L, (src k).isSome) (hend : L < n → src L = none) :
    Reports sb i src off n s ↔
      Rejected s i off n ∨ n ≤ L ∨
      (freeBlocks sb s).card < (missing s i (slotsOf off (L + 1))).card ∨
      ∀ o, off ≤ o → (off + L) / BSIZE * BSIZE ≤ o → o < off + L →
        (blockIn s i (slot (o / BSIZE)) ≠ 0 ∨ o < (s.inodes i).copy.size) →
        content s i o = (src (o - off)).getD 0 := by
  by_cases hr : Rejected s i off n
  · exact iff_of_true (reports_rejected h src hoff hn hr) (Or.inl hr)
  obtain ⟨r, u, hrun, d, p, K, t, rfl, hw, hstop, rfl⟩ := wp_returns
    (writei_wrote (s := ⟨s, ∅⟩) (E := fun _ => False) src h.acct h.type hr)
  rw [reports_iff_run hrun, Int.toNat_natCast]
  cases hstop with
  | done all clean slots =>
    refine iff_of_true (fun hlt => absurd hlt (by omega)) (Or.inr (Or.inl ?_))
    by_contra hLn
    have := hw.copied L (by omega)
    rw [hend (by omega)] at this
    cases this
  | full short clean start slots none_left lacks =>
    subst clean
    refine iff_of_true (fun _ => reports_fault h hr short hw start ?_ ?_ ?_) ?_
    · exact Nat.sub_pos_of_lt (Nat.mod_lt _ (by decide))
    · exact fun hc => absurd hc (by omega)
    · exact fun o h1 h2 => absurd h2 (by omega)
    by_cases hLn : n ≤ L
    · exact Or.inr (Or.inl hLn)
    have hdL : d ≤ L := by
      by_contra hLd
      have := hw.copied L (by omega)
      rw [hend (by omega)] at this
      cases this
    refine Or.inr (Or.inr (Or.inl ?_))
    refine Nat.lt_of_lt_of_le (hw.full_card h.acct slots none_left lacks) ?_
    exact Finset.card_le_card (Finset.filter_subset_filter _ (slotsOf_mono (by omega)))
  | fault short start slots part unmapped has =>
    have hpB : p < BSIZE - (off + d) % BSIZE := Nat.lt_of_lt_of_le part (Nat.min_le_right _ _)
    have hL : L = d + p := by
      rcases Nat.lt_trichotomy L (d + p) with hlt | heq | hgt
      · have := hw.copied L hlt
        rw [hend (by omega)] at this
        cases this
      · exact heq
      · have := hmap _ hgt
        rw [unmapped] at this
        cases this
    have henough : ¬(freeBlocks sb s).card < (missing s i (slotsOf off (L + 1))).card := by
      have hle := hw.enough_card h has
      have hsub : slotsOf off (L + 1) ⊆ slotsOf off (d + 1) := hL ▸ slotsOf_chunk hpB
      have := Finset.card_le_card
        (Finset.filter_subset_filter (fun k => blockIn s i k = 0) hsub)
      exact Nat.not_lt.mpr (this.trans hle)
    subst hL
    have hbegin : ∀ o, off ≤ o → (off + (d + p)) / BSIZE * BSIZE ≤ o → off + d ≤ o := by
      intro o h1 h2
      rw [← Nat.add_assoc, div_add_of_lt hpB] at h2
      rcases start with rfl | h0
      · exact h1
      · have := Nat.div_add_mod (off + d) BSIZE
        rw [Nat.mul_comm] at this
        omega
    have hsize := hr
    unfold Rejected at hsize
    push Not at hsize
    constructor
    · intro hrep
      obtain ⟨hsees, -, hmod⟩ := hrep (by omega)
      refine Or.inr (Or.inr (Or.inr fun o h1 h2 h3 h4 => ?_))
      have hod := hbegin o h1 h2
      have hdiv := given_up_div hpB hod (by omega)
      by_contra hne
      by_cases hs : blockIn s i (slot (o / BSIZE)) = 0
      · -- the byte is seen
        have hlt : o < (s.inodes i).copy.size := h4.resolve_left fun hc => hc hs
        have hbyte := sees_byte (hw.fileOk h (by omega)) hsees (o := o)
          (by rw [finish_self, hw.filled.copy_size]; exact lt_max_of_lt_left hlt)
          (by rw [length_overwrite _ (by rw [length_fileBytes]; exact hsize.1), length_fileBytes];
              exact lt_max_of_lt_left hlt)
          (by rw [blockIn_finish, hdiv]; exact has)
        rw [content_finish, hw.result, if_pos (by omega), fileBytes, overwrite_range _ _ hsize.1,
          List.getD_eq_getElem _ _ (by simp; omega), List.getElem_map, List.getElem_range,
          if_neg (by omega)] at hbyte
        exact hne hbyte
      · -- the block is not on the log
        rw [hdiv] at hs
        have hb := given_up h hw start hs
        refine hb (hmod _ ?_)
        refine Or.inl ?_
        by_contra hnot
        push Not at hnot
        exact hne ((given_up_same hw start hpB hs).mp hnot o hod (by omega))
    · rintro (hc | hc | hc | hall) _
      · exact absurd hc hr
      · omega
      · exact absurd hc henough
      · refine reports_fault h hr short hw start hpB (fun _ => has) fun o h1 h2 h3 => ?_
        refine hall o (by omega) ?_ (by omega) h3
        rw [← Nat.add_assoc, div_add_of_lt hpB]
        exact (Nat.div_mul_le_self _ _).trans h1

theorem write_reports_iff_empty : Reports smallDisk 0 (fun k => if k < 1 then some 7 else none) 0 2
    emptyFile :=
  (write_reports_iff emptyFile_ok (L := 1) (by decide) (by decide) (by decide) (by decide)).mpr
    (Or.inr (Or.inr (Or.inr fun o _ _ ho hc => by
      obtain rfl : o = 0 := by omega
      rcases hc with hc | hc
      · exact absurd (refs_emptyFile _ _) hc
      · exact absurd hc (by decide))))

def oneByteDinode : Dinode := ⟨.file, 0, 0, 1, 1, fun k => if k = 0 then 5 else 0⟩

/-- Inode 1 is a file of one byte, in block 5. -/
def oneByteFile : Disk where
  bits := fun b => decide (b < 6)
  dinodes := Function.update (fun _ => Dinode.zero) 1 oneByteDinode
  blocks := fun _ _ => 0
  inodes := fun i => if i = 0 then ⟨ROOTDEV, 1, 1, true, oneByteDinode⟩
    else ⟨0, 0, 0, false, Dinode.zero⟩

lemma refs_oneByteFile (y k : ℕ) : refs oneByteFile 0 y k = if y = 1 ∧ k = 0 then 5 else 0 := by
  by_cases hy : y = 1
  · subst hy
    have hcur : cur oneByteFile 0 1 = oneByteDinode := cur_self oneByteFile 0
    unfold refs refAt slotAt
    rw [hcur, if_neg (by decide)]
    by_cases hk : k ≤ NDIRECT
    · rw [if_pos hk]
      simp [oneByteDinode]
    · rw [if_neg hk, if_neg (by rintro ⟨-, hc⟩; exact hc rfl), if_neg (by omega)]
  · have hfree : oneByteFile.dinodes y = Dinode.zero := by simp [oneByteFile, hy]
    unfold refs refAt
    rw [cur_ne hy, hfree, if_pos (show Dinode.zero.type = .free from rfl), if_neg (by omega)]

lemma oneByteFile_ok : FileOk smallDisk 0 oneByteFile := by
  have hmeta : smallDisk.nmeta = 5 := rfl
  have hsize : smallDisk.size = 30 := rfl
  refine ⟨⟨fun x y k l hk he => ?_, fun x k hk => ?_, fun b _ => ?_⟩, by decide, by decide,
    by decide⟩
  · rw [refs_oneByteFile] at hk he
    rw [refs_oneByteFile] at he
    split_ifs at hk he <;> omega
  · rw [refs_oneByteFile] at hk ⊢
    split_ifs at hk ⊢ <;> omega
  · rw [hmeta]
    change decide (b < 6) = true ↔ _
    rw [decide_eq_true_iff]
    constructor
    · intro hb
      rcases Nat.lt_succ_iff_lt_or_eq.mp hb with hb | rfl
      · exact Or.inl hb
      · exact Or.inr ⟨1, 0, refs_oneByteFile 1 0⟩
    · rintro (hb | ⟨x, k, he⟩)
      · omega
      · rw [refs_oneByteFile] at he
        split_ifs at he <;> omega

/-- The second byte of the source is not mapped: `writei` returns 0, and the first byte is in the
cached block, which is not on the log. -/
theorem failed_write_stays : FileOk smallDisk 0 oneByteFile ∧
    ¬Reports smallDisk 0 (fun k => if k < 1 then some 7 else none) 0 2 oneByteFile := by
  refine ⟨oneByteFile_ok, ?_⟩
  rintro ⟨r, t, hrun, hall⟩
  have hval : ((writei smallDisk 0 (fun k => if k < 1 then some 7 else none) 0 2
      ⟨oneByteFile, ∅⟩).map fun x => (x.1, x.2.disk.blocks 5 0, decide (5 ∈ x.2.logged))) =
      .ok (0, 7, false) := by
    rfl
  rw [hrun] at hval
  simp only [Except.map, Except.ok.injEq, Prod.mk.injEq, decide_eq_false_iff_not] at hval
  obtain ⟨rfl, hbyte, hlog⟩ := hval
  refine hlog ((hall (by decide)).2.2 5 (Or.inl ⟨0, by decide, ?_⟩))
  rw [hbyte]
  decide

end Xv6.Fs.Logged
