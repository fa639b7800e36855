import Xv6.FsWrite

/-!
A file is an array of bytes: `writei` replaces a piece of it and `readi` returns a piece of it.
-/

namespace Xv6.Fs

open Xv6.ByteMem Xv6.Wp

variable {sb : Superblock} {s t u : Disk} {i k b off n : ℕ} {E : Panic → Prop}

/-! ### Pieces of a list -/

section Pieces

variable {α : Type}

/-- `bs` takes the place of what the list has from `off` on. -/
def overwrite (l : List α) (off : ℕ) (bs : List α) : List α :=
  l.take off ++ bs ++ l.drop (off + bs.length)

/-- The piece of `n` from `off` on, as far as the list goes; none if `off` is behind the end or the
end of the piece is not a `uint`. -/
def readAt (l : List α) (off n : ℕ) : List α :=
  if l.length < off ∨ 2 ^ 32 ≤ off + n then [] else (l.drop off).take n

lemma overwrite_nil (l : List α) (off : ℕ) : overwrite l off [] = l := by
  simp [overwrite]

lemma length_overwrite {l : List α} (bs : List α) (h : off ≤ l.length) :
    (overwrite l off bs).length = max l.length (off + bs.length) := by
  simp only [overwrite, List.length_append, List.length_take, List.length_drop]
  omega

lemma overwrite_range {m d : ℕ} (f g : ℕ → α) (h : off ≤ m) :
    overwrite ((List.range m).map f) off ((List.range d).map g) =
      (List.range (max m (off + d))).map fun o =>
        if off ≤ o ∧ o < off + d then g (o - off) else f o := by
  refine List.ext_getElem ?_ fun o h1 h2 => ?_
  · rw [length_overwrite _ (by simpa using h)]
    simp
  · simp only [List.length_map, List.length_range] at h2
    rw [List.getElem_map, List.getElem_range]
    simp only [overwrite, List.getElem_append, List.length_append, List.length_take,
      List.length_map, List.length_range, List.getElem_take, List.getElem_map, List.getElem_range,
      List.getElem_drop, Nat.min_eq_left h]
    by_cases ho : o < off
    · rw [dif_pos (by omega), dif_pos ho, if_neg (by omega)]
    · by_cases hd : o < off + d
      · rw [dif_pos hd, dif_neg ho, if_pos (by omega)]
      · rw [dif_neg hd, if_neg (by omega)]
        congr 1
        omega

lemma readAt_range (f : ℕ → α) {m : ℕ} (h1 : off ≤ m) (h2 : off + n < 2 ^ 32) :
    readAt ((List.range m).map f) off n =
      (List.range (min n (m - off))).map fun k => f (off + k) := by
  rw [readAt, if_neg (by simp; omega)]
  refine List.ext_getElem ?_ fun o _ _ => ?_
  · simp
  · simp

end Pieces

/-! ### Files -/

/-- Table entry `i` is a file of a well-formed file system, held in memory. -/
structure FileOk (sb : Superblock) (i : ℕ) (s : Disk) : Prop where
  acct : Acct sb s.bits (refs s i)
  type : (s.inodes i).copy.type ≠ .free
  size : (s.inodes i).copy.size ≤ MAXFILE * BSIZE
  inum : Logged.IBLOCK sb (s.inodes i).inum < sb.nmeta

/-- There is a block for every byte of the file. -/
def HoleFree (s : Disk) (i : ℕ) : Prop :=
  ∀ o, o < (s.inodes i).copy.size → blockIn s i (slot (o / BSIZE)) ≠ 0

def fileBytes (s : Disk) (i : ℕ) : List Byte :=
  (List.range (s.inodes i).copy.size).map (content s i)

lemma length_fileBytes (s : Disk) (i : ℕ) : (fileBytes s i).length = (s.inodes i).copy.size := by
  simp [fileBytes]

lemma div_lt_maxfile {o : ℕ} (h : o < MAXFILE * BSIZE) : o / BSIZE < MAXFILE :=
  Nat.div_lt_of_lt_mul (by rwa [Nat.mul_comm])

/-! ### readi -/

lemma bmap_content (h : Acct sb s.bits (refs s i)) (ht : (s.inodes i).copy.type ≠ .free) {bn : ℕ}
    (hbn : bn < MAXFILE) :
    wp (bmap sb i bn) (fun addr t => (∃ K, Filled sb i K s t) ∧
      (∀ o, content t i o = content s i o) ∧ blockIn t i (slot bn) = addr ∧
      (blockIn s i (slot bn) ≠ 0 → t = s)) E s := by
  have hlog := (@Logged.forgets_bmap sb i bn).wp (t := ⟨s, ∅⟩) (E := E)
    (Q := fun addr t => (∃ K, Filled sb i K s t) ∧ (∀ o, content t i o = content s i o) ∧
      blockIn t i (slot bn) = addr) <| by
    refine wp_post (Logged.bmap_wrote (fun _ => none) 0 h ht hbn) ?_
    rintro addr t ⟨K, -, hw, ha, -⟩
    refine ⟨⟨K, hw.filled⟩, fun o => ?_, ha⟩
    rw [hw.result, if_neg (by omega)]
  refine wp_mono (wp_and hlog (bmap_spec (E := E) h ht hbn)) ?_ fun e he => he.1
  rintro addr t ⟨⟨h1, h2, h3⟩, -, -, h6⟩
  exact ⟨h1, h2, h3, fun hr => (h6 hr).2⟩

lemma readiLoop_content (n : ℕ) : ∀ fuel tot off acc (s : Disk), tot ≤ n → n - tot < fuel →
    Acct sb s.bits (refs s i) → (s.inodes i).copy.type ≠ .free →
    (∀ j, j < n - tot → (off + j) / BSIZE < MAXFILE) →
    wp (readiLoop sb i kernelDst n fuel tot off acc) (fun r t => ∃ d ≤ n - tot,
      r = (((tot + d : ℕ) : ℤ), acc ++ (List.range d).map fun k => content s i (off + k)) ∧
      ((∀ j, j < n - tot → blockIn s i (slot ((off + j) / BSIZE)) ≠ 0) →
        d = n - tot ∧ t = s)) E s := by
  intro fuel
  induction fuel with
  | zero => intro tot off acc s _ hf; omega
  | succ fuel ih =>
    intro tot off acc s hle hf h ht hbn
    rw [readiLoop]
    by_cases hn : tot < n
    swap
    · rw [if_neg hn]
      exact ⟨0, Nat.zero_le _, by simp, fun _ => ⟨by omega, rfl⟩⟩
    rw [if_pos hn, wp_bind]
    have hbn0 : off / BSIZE < MAXFILE := by simpa only [Nat.add_zero] using hbn 0 (by omega)
    refine wp_post (bmap_content h ht hbn0) ?_
    rintro addr t ⟨⟨K, hfill⟩, hsame, ha, hkept⟩
    by_cases ha0 : addr = 0
    · rw [if_pos ha0]
      refine ⟨0, Nat.zero_le _, by simp, fun hall => ?_⟩
      have hr : blockIn s i (slot (off / BSIZE)) ≠ 0 := by
        simpa only [Nat.add_zero] using hall 0 (by omega)
      rw [hkept hr] at ha
      exact absurd (ha.trans ha0) hr
    rw [if_neg ha0, wp_bind, wp_get]
    dsimp only
    set m := min (n - tot) (BSIZE - off % BSIZE) with hm
    rw [show kernelDst tot m = true from rfl, if_pos rfl]
    have hpos : 0 < m := by
      have := Nat.mod_lt off (show BSIZE > 0 by decide)
      omega
    have hpiece : bytes (t.blocks addr) (off % BSIZE) m =
        (List.range m).map fun k => content s i (off + k) := by
      refine List.map_congr_left fun k hk => ?_
      have hk : k < BSIZE - off % BSIZE :=
        Nat.lt_of_lt_of_le (List.mem_range.mp hk) (Nat.min_le_right _ _)
      have hdiv := div_add_of_lt hk
      have hmod : (off + k) % BSIZE = off % BSIZE + k := by
        have h1 := Nat.div_add_mod (off + k) BSIZE
        have h2 := Nat.div_add_mod off BSIZE
        rw [hdiv] at h1
        omega
      rw [← hsame, content_eq, hdiv, ha, if_neg ha0, hmod]
    refine wp_post (ih (tot + m) (off + m) _ t (by omega) (by omega) hfill.acct
      (by rw [hfill.copy_type]; exact ht) fun j hj => ?_) ?_
    · have := hbn (m + j) (by omega)
      rwa [← Nat.add_assoc] at this
    rintro r u ⟨d, hd, rfl, hall⟩
    refine ⟨m + d, by omega, ?_, fun hpres => ?_⟩
    · rw [hpiece, List.append_assoc, List.range_add, List.map_append, List.map_map, Nat.add_assoc]
      congr 3
      refine List.map_congr_left fun k _ => ?_
      simp only [Function.comp, hsame, Nat.add_assoc]
    · have hts : t = s := hkept (by simpa only [Nat.add_zero] using hpres 0 (by omega))
      subst hts
      obtain ⟨h1, h2⟩ := hall fun j hj => by
        have := hpres (m + j) (by omega)
        rwa [← Nat.add_assoc] at this
      exact ⟨by omega, h2⟩

/-- **Reading**: what `readi` returns are bytes of the file, from `off` on, and all of them if it
meets no hole. -/
theorem readi_content (h : Acct sb s.bits (refs s i)) (ht : (s.inodes i).copy.type ≠ .free)
    (hsize : (s.inodes i).copy.size ≤ MAXFILE * BSIZE) (hoff : off < 2 ^ 32) (hn : n < 2 ^ 32) :
    wp (readi sb i kernelDst off n) (fun r t => ∃ bs, r = (((bs.length : ℕ) : ℤ), bs) ∧
      bs <+: readAt (fileBytes s i) off n ∧
      ((∀ o, off ≤ o → o < off + n → o < (s.inodes i).copy.size →
        blockIn s i (slot (o / BSIZE)) ≠ 0) →
        bs = readAt (fileBytes s i) off n ∧ t = s)) E s := by
  unfold readi
  simp only [wp_bind, wp_get]
  set size := (s.inodes i).copy.size with hsz
  by_cases hc : size < off ∨ (off + n) % 2 ^ 32 < off
  · rw [if_pos hc]
    have hnil : readAt (fileBytes s i) off n = [] := by
      rw [readAt, length_fileBytes, if_pos]
      rcases hc with hc | hc
      · exact Or.inl hc
      · refine Or.inr ?_
        by_contra hlt
        rw [Nat.mod_eq_of_lt (by omega)] at hc
        omega
    rw [hnil]
    exact ⟨[], rfl, List.prefix_refl _, fun _ => ⟨rfl, rfl⟩⟩
  rw [if_neg hc]
  push Not at hc
  have hlt : off + n < 2 ^ 32 := by
    by_contra hge
    have := hc.2
    rw [Nat.mod_eq_sub_mod (by omega), Nat.mod_eq_of_lt (by omega)] at this
    omega
  rw [Nat.mod_eq_of_lt hlt]
  have hm : (if size < off + n then size - off else n) = min n (size - off) := by
    split_ifs <;> omega
  rw [hm]
  refine wp_post (readiLoop_content _ _ 0 off [] s (Nat.zero_le _) (by omega) h ht
    fun j hj => div_lt_maxfile (by omega)) ?_
  rintro r t ⟨d, hd, rfl, hall⟩
  have hread : readAt (fileBytes s i) off n =
      (List.range (min n (size - off))).map fun k => content s i (off + k) :=
    readAt_range _ hc.1 hlt
  rw [hread]
  refine ⟨(List.range d).map fun k => content s i (off + k), ?_, ?_, fun hpres => ?_⟩
  · simp
  · rw [Nat.sub_zero] at hd
    obtain ⟨e, he⟩ := Nat.exists_eq_add_of_le hd
    rw [he, List.range_add, List.map_append]
    exact List.prefix_append _ _
  · obtain ⟨h1, h2⟩ := hall fun j hj => hpres (off + j) (by omega) (by omega) (by omega)
    rw [Nat.sub_zero] at h1
    rw [h1]
    exact ⟨rfl, h2⟩

/-! ### writei -/

/-- The end of `writei`: the file reaches to `e` at least, and the inode is on disk. -/
def finish (s : Disk) (i e : ℕ) : Disk :=
  let d := { (s.inodes i).copy with size := max (s.inodes i).copy.size e }
  { s with
    dinodes := Function.update s.dinodes (s.inodes i).inum d
    inodes := Function.update s.inodes i { s.inodes i with copy := d } }

lemma finish_self (s : Disk) (i e : ℕ) : (finish s i e).inodes i = { s.inodes i with
    copy := { (s.inodes i).copy with size := max (s.inodes i).copy.size e } } :=
  Function.update_self _ _ _

lemma refs_finish (s : Disk) (i e : ℕ) : refs (finish s i e) i = refs s i := by
  have hcur : cur (finish s i e) i = Function.update (cur s i) (s.inodes i).inum
      { (s.inodes i).copy with size := max (s.inodes i).copy.size e } := by
    unfold cur
    rw [finish_self, Function.update_idem]
    exact Function.update_idem _ _ _
  funext y l
  unfold refs refAt slotAt
  rw [hcur]
  by_cases hy : y = (s.inodes i).inum
  · rw [hy, Function.update_self, cur_self]
    rfl
  · rw [Function.update_of_ne hy]
    rfl

lemma blockIn_finish (s : Disk) (i e k : ℕ) : blockIn (finish s i e) i k = blockIn s i k := by
  rw [blockIn, refs_finish, finish_self]

lemma content_finish (s : Disk) (i e o : ℕ) : content (finish s i e) i o = content s i o := by
  rw [content_eq, content_eq, blockIn_finish]
  rfl

/-- The requests that `writei` turns down. -/
def Rejected (s : Disk) (i off n : ℕ) : Prop :=
  (s.inodes i).copy.size < off ∨ 2 ^ 32 ≤ off + n ∨ MAXFILE * BSIZE < off + n

instance (s : Disk) (i off n : ℕ) : Decidable (Rejected s i off n) :=
  inferInstanceAs (Decidable (_ ∨ _ ∨ _))

namespace Logged

variable {s t : Traced} {K : Finset ℕ} {d p : ℕ} {src : ℕ → Option Byte}

lemma writei_rejected (src : ℕ → Option Byte) (hoff : off < 2 ^ 32) (hn : n < 2 ^ 32)
    (hr : Rejected s.disk i off n) : wp (writei sb i src off n) (fun r t => r = -1 ∧ t = s) E s := by
  unfold writei
  simp only [wp_bind, wp_get]
  by_cases hc : (s.disk.inodes i).copy.size < off ∨ (off + n) % 2 ^ 32 < off
  · rw [if_pos hc]
    exact ⟨rfl, rfl⟩
  rw [if_neg hc, if_pos]
  · exact ⟨rfl, rfl⟩
  push Not at hc
  have hlt : off + n < 2 ^ 32 := by
    by_contra hge
    have := hc.2
    rw [Nat.mod_eq_sub_mod (by omega), Nat.mod_eq_of_lt (by omega)] at this
    omega
  rw [Nat.mod_eq_of_lt hlt]
  rcases hr with hr | hr | hr
  · omega
  · omega
  · exact hr

/-- **Writing**: a request that is not turned down runs the loop and then writes the inode back. -/
theorem writei_wrote (src : ℕ → Option Byte) (h : Acct sb s.disk.bits (refs s.disk i))
    (ht : (s.disk.inodes i).copy.type ≠ .free) (hr : ¬Rejected s.disk i off n) :
    wp (writei sb i src off n) (fun r u => ∃ (d p : ℕ) (K : Finset ℕ) (t : Traced), r = d ∧
      Wrote sb i src off d p K s t ∧ Stop sb i src off n d p K t.disk ∧
      u = ⟨finish t.disk i (off + d), insert (IBLOCK sb (s.disk.inodes i).inum) t.logged⟩) E s := by
  unfold Rejected at hr
  push Not at hr
  unfold writei
  simp only [wp_bind, wp_get]
  rw [Nat.mod_eq_of_lt hr.2.1, if_neg (by omega), if_neg (by omega), wp_bind]
  refine wp_post (writeiLoop_wrote src n (n + 1) 0 off s (Nat.zero_le _) (by omega) h ht
    fun j hj => div_lt_maxfile (by omega)) ?_
  rintro r t ⟨d, p, K, rfl, hw, hstop⟩
  simp only [Nat.zero_add, Nat.sub_zero] at hw hstop ⊢
  simp only [wp_bind, fs, wp_zoom, setCopy, setInode, iupdate, wp_get, log_write, wp_modify,
    Fs.iupdate, wp_pure, Function.update_self]
  refine ⟨d, p, K, t, rfl, hw, hstop, ?_⟩
  rw [← hw.filled.inum]
  rfl

/-- The file after a write. What has been copied of a chunk that was given up must be what was
there, or lie behind the end. -/
lemma Wrote.fileBytes (hw : Wrote sb i src off d p K s t)
    (hoff : off ≤ (s.disk.inodes i).copy.size)
    (hp : ∀ o, off + d ≤ o → o < off + d + p → o < (s.disk.inodes i).copy.size →
      content s.disk i o = (src (o - off)).getD 0) :
    Fs.fileBytes (finish t.disk i (off + d)) i =
      overwrite (Fs.fileBytes s.disk i) off ((List.range d).map fun k => (src k).getD 0) := by
  rw [Fs.fileBytes, Fs.fileBytes, overwrite_range _ _ hoff, finish_self, hw.filled.copy_size]
  refine List.map_congr_left fun o ho => ?_
  have ho : o < max (s.disk.inodes i).copy.size (off + d) := List.mem_range.mp ho
  rw [content_finish, hw.result]
  by_cases h1 : off ≤ o ∧ o < off + d
  · rw [if_pos h1, if_pos (by omega)]
  · rw [if_neg h1]
    by_cases h2 : off ≤ o ∧ o < off + d + p
    · rw [if_pos h2, hp o (by omega) h2.2 (by omega)]
    · rw [if_neg h2]

lemma Wrote.fileOk (h : FileOk sb i s.disk) (hw : Wrote sb i src off d p K s t)
    (hend : off + d ≤ MAXFILE * BSIZE) : FileOk sb i (finish t.disk i (off + d)) := by
  have hsize := h.size
  refine ⟨?_, ?_, ?_, ?_⟩
  · rw [refs_finish]
    exact hw.filled.acct
  · rw [finish_self]
    dsimp only
    rw [hw.filled.copy_type]
    exact h.type
  · rw [finish_self, hw.filled.copy_size]
    exact Nat.max_le.mpr ⟨hsize, hend⟩
  · rw [finish_self]
    dsimp only
    rw [hw.filled.inum]
    exact h.inum

lemma Wrote.holeFree (h : HoleFree s.disk i) (hw : Wrote sb i src off d p K s t)
    (hoff : off ≤ (s.disk.inodes i).copy.size) : HoleFree (finish t.disk i (off + d)) i := by
  intro o ho
  rw [finish_self, hw.filled.copy_size] at ho
  rw [blockIn_finish]
  by_cases hlt : o < (s.disk.inodes i).copy.size
  · rw [hw.filled.block_kept (h o hlt)]
    exact h o hlt
  · have hle : o < off + d := by
      simp only [lt_sup_iff] at ho
      omega
    have := hw.present (o - off) (by omega)
    rwa [show off + (o - off) = o by omega] at this

lemma Wrote.full_card (h : Acct sb s.disk.bits (refs s.disk i)) (hw : Wrote sb i src off d p K s t)
    (hK : K ⊆ slotsOf off (d + 1)) (hempty : freeBlocks sb t.disk = ∅)
    (hlacks : blockIn t.disk i (slot ((off + d) / BSIZE)) = 0) :
    (freeBlocks sb s.disk).card < (missing s.disk i (slotsOf off (d + 1))).card := by
  set k := slot ((off + d) / BSIZE) with hk
  have hnot : k ∉ K := fun hc => (hw.filled.fresh k hc).2 hlacks
  have hsub : insert k K ⊆ missing s.disk i (slotsOf off (d + 1)) := by
    intro l hl
    refine Finset.mem_filter.mpr ?_
    rcases Finset.mem_insert.mp hl with rfl | hl
    · refine ⟨blockSlots_subset (Nat.lt_succ_self d) (slot_mem_blockSlots _), ?_⟩
      rwa [← hw.filled.block_old hnot]
    · exact ⟨hK hl, (hw.filled.fresh l hl).1⟩
  have hle := Finset.card_le_card hsub
  rw [Finset.card_insert_of_notMem hnot] at hle
  have hfree := hw.filled.card_free h
  rw [hempty, Finset.card_empty] at hfree
  omega

lemma Wrote.enough_card (h : FileOk sb i s.disk) (hw : Wrote sb i src off d p K s t)
    (hhas : blockIn t.disk i (slot ((off + d) / BSIZE)) ≠ 0) :
    (missing s.disk i (slotsOf off (d + 1))).card ≤ (freeBlocks sb s.disk).card := by
  have ht : (t.disk.inodes i).copy.type ≠ .free := by
    rw [hw.filled.copy_type]
    exact h.type
  have hsub : missing s.disk i (slotsOf off (d + 1)) ⊆ K := by
    intro k hk
    obtain ⟨hmem, h0⟩ := Finset.mem_filter.mp hk
    obtain ⟨j, hj, hkj⟩ := Finset.mem_biUnion.mp hmem
    have hj : j < d + 1 := Finset.mem_range.mp hj
    have hpres : blockIn t.disk i (slot ((off + j) / BSIZE)) ≠ 0 := by
      rcases Nat.lt_succ_iff_lt_or_eq.mp hj with hj | rfl
      · exact hw.present j hj
      · exact hhas
    by_contra hnot
    exact blockSlots_present ht hpres k hkj ((hw.filled.block_old hnot).trans h0)
  have hle := Finset.card_le_card hsub
  have hfree := hw.filled.card_free h.acct
  omega

end Logged

lemma readi_run (h : Acct sb s.bits (refs s i)) (ht : (s.inodes i).copy.type ≠ .free)
    (hsize : (s.inodes i).copy.size ≤ MAXFILE * BSIZE) (hh : HoleFree s i) (hoff : off < 2 ^ 32)
    (hn : n < 2 ^ 32) :
    readi sb i kernelDst off n s = .ok (if (s.inodes i).copy.size < off ∨ 2 ^ 32 ≤ off + n
      then (0, []) else (((min n ((s.inodes i).copy.size - off) : ℕ) : ℤ),
        ((fileBytes s i).drop off).take n), s) := by
  obtain ⟨r, t, hrun, bs, rfl, -, hall⟩ := wp_returns (readi_content h ht hsize hoff hn)
  obtain ⟨rfl, rfl⟩ := hall fun o _ _ ho => hh o ho
  rw [hrun, readAt, length_fileBytes]
  split_ifs with hc
  · rfl
  · rw [List.length_take, List.length_drop, length_fileBytes]

lemma writei_run {bs : List Byte} {src : ℕ → Option Byte} (h : FileOk sb i s) (hh : HoleFree s i)
    (hoff : off ≤ (s.inodes i).copy.size) (hend : off + bs.length ≤ MAXFILE * BSIZE)
    (hfree : (missing s i (slotsOf off bs.length)).card ≤ (freeBlocks sb s).card)
    (hsrc : ∀ k (hk : k < bs.length), src k = some bs[k]) :
    ∃ t, writei sb i src off bs.length s = .ok ((bs.length : ℤ), t) ∧ FileOk sb i t ∧
      HoleFree t i ∧ fileBytes t i = overwrite (fileBytes s i) off bs := by
  have hmax : MAXFILE * BSIZE < 2 ^ 32 := by decide
  have hr : ¬Rejected s i off bs.length := by
    unfold Rejected
    omega
  have hlog := (@Logged.forgets_writei sb i src off bs.length).wp (t := ⟨s, ∅⟩)
    (E := fun _ => False) (Q := fun r t => r = (bs.length : ℤ) ∧ FileOk sb i t ∧ HoleFree t i ∧
      fileBytes t i = overwrite (fileBytes s i) off bs) <| by
    refine wp_post (Logged.writei_wrote src h.acct h.type hr) ?_
    rintro _ _ ⟨d, p, K, t, rfl, hw, hstop, rfl⟩
    cases hstop with
    | done all clean slots =>
      subst clean all
      refine ⟨rfl, hw.fileOk h hend, hw.holeFree hh hoff, ?_⟩
      rw [hw.fileBytes hoff fun o _ _ _ => by omega]
      congr 1
      refine List.ext_getElem (by simp) fun k h1 h2 => ?_
      rw [List.getElem_map, List.getElem_range, hsrc k h2]
      rfl
    | full short clean start slots none_left lacks =>
      have hlt := hw.full_card h.acct slots none_left lacks
      have hle := Finset.card_le_card (Finset.filter_subset_filter (fun k => blockIn s i k = 0)
        (@slotsOf_mono off _ _ (Nat.succ_le_of_lt short)))
      exact absurd (Nat.lt_of_lt_of_le hlt (hle.trans hfree)) (Nat.lt_irrefl _)
    | fault short start slots part unmapped has =>
      rw [hsrc (d + p) (by omega)] at unmapped
      cases unmapped
  obtain ⟨r, t, hrun, rfl, h1, h2, h3⟩ := wp_returns hlog
  exact ⟨t, hrun, h1, h2, h3⟩

/-- **A file is an array of bytes**: on an inode without holes `writei` puts the string in its place
and `readi` returns what is there; what `writei` turns down changes nothing. -/
theorem writei_readi (h : FileOk sb i s) (hh : HoleFree s i) :
    (∀ (off : ℕ) (src : ℕ → Option Byte) (bs : List Byte), off ≤ (s.inodes i).copy.size →
      off + bs.length ≤ MAXFILE * BSIZE →
      (missing s i (slotsOf off bs.length)).card ≤ (freeBlocks sb s).card →
      (∀ k (hk : k < bs.length), src k = some bs[k]) →
      ∃ t, writei sb i src off bs.length s = .ok ((bs.length : ℤ), t) ∧
        (t.inodes i).copy.size = max (s.inodes i).copy.size (off + bs.length) ∧
        (FileOk sb i t ∧ HoleFree t i) ∧
        ∀ off2 n2, off2 < 2 ^ 32 → n2 < 2 ^ 32 → readi sb i kernelDst off2 n2 t =
          .ok (if (t.inodes i).copy.size < off2 ∨ 2 ^ 32 ≤ off2 + n2 then (0, [])
            else (((min n2 ((t.inodes i).copy.size - off2) : ℕ) : ℤ),
              ((overwrite (fileBytes s i) off bs).drop off2).take n2), t)) ∧
    ∀ (off n : ℕ) (src : ℕ → Option Byte), off < 2 ^ 32 → n < 2 ^ 32 →
      ((s.inodes i).copy.size < off ∨ 2 ^ 32 ≤ off + n ∨ MAXFILE * BSIZE < off + n) →
      writei sb i src off n s = .ok (-1, s) := by
  refine ⟨fun off src bs hoff hend hfree hsrc => ?_, fun off n src hoff hn hr => ?_⟩
  · obtain ⟨t, hrun, hok, hhole, hbytes⟩ := writei_run h hh hoff hend hfree hsrc
    refine ⟨t, hrun, ?_, ⟨hok, hhole⟩, fun off2 n2 h1 h2 => ?_⟩
    · rw [← length_fileBytes, hbytes, length_overwrite _ (by rwa [length_fileBytes]),
        length_fileBytes]
    · rw [readi_run hok.acct hok.type hok.size hhole h1 h2, hbytes]
  · have hlog := (@Logged.forgets_writei sb i src off n).wp (t := ⟨s, ∅⟩)
      (E := fun _ => False) (Q := fun r t => r = -1 ∧ t = s) <| by
      refine wp_post (Logged.writei_rejected src hoff hn hr) ?_
      rintro r t ⟨rfl, rfl⟩
      exact ⟨rfl, rfl⟩
    obtain ⟨r, t, hrun, rfl, rfl⟩ := wp_returns hlog
    exact hrun

/-! ### A small disk -/

/-- Five blocks come before the 25 data blocks. -/
def smallDisk : Superblock := ⟨30, 16, 0, 2, 3, 4, by decide⟩

def emptyDinode : Dinode := ⟨.file, 0, 0, 1, 0, fun _ => 0⟩

/-- Inode 1 is an empty file, in entry 0 of the table. -/
def emptyFile : Disk where
  bits := fun b => decide (b < 5)
  dinodes := Function.update (fun _ => Dinode.zero) 1 emptyDinode
  blocks := fun _ _ => 0
  inodes := fun i => if i = 0 then ⟨ROOTDEV, 1, 1, true, emptyDinode⟩
    else ⟨0, 0, 0, false, Dinode.zero⟩

lemma refs_emptyFile (y k : ℕ) : refs emptyFile 0 y k = 0 := by
  unfold refs refAt
  split_ifs with hf
  · rfl
  · refine slotAt_empty (fun l _ => ?_) _ _
    by_cases hy : y = 1
    · subst hy
      rfl
    · have hfree : emptyFile.dinodes y = Dinode.zero := by simp [emptyFile, hy]
      refine absurd ?_ hf
      rw [cur_ne hy, hfree]
      rfl

lemma emptyFile_ok : FileOk smallDisk 0 emptyFile := by
  have hmeta : smallDisk.nmeta = 5 := rfl
  refine ⟨⟨fun x y k l hk => ?_, fun x k hk => ?_, fun b _ => ?_⟩, by decide, by decide, by decide⟩
  · exact absurd (refs_emptyFile x k) hk
  · exact absurd (refs_emptyFile x k) hk
  · rw [hmeta]
    constructor
    · exact fun hb => Or.inl (of_decide_eq_true hb)
    · rintro (hb | ⟨x, k, he⟩)
      · exact decide_eq_true hb
      · rw [refs_emptyFile] at he
        subst he
        rfl

lemma emptyFile_holeFree : HoleFree emptyFile 0 := fun o ho => absurd ho (Nat.not_lt_zero o)

/-- A string that ends in the second block. -/
def longText : List Byte := List.replicate 1020 0 ++ [1, 2, 3, 4, 5, 6, 7, 8, 9, 10]

/-- Ten bytes are read across the end of the first block. -/
theorem writei_readi_empty : ∃ t,
    writei smallDisk 0 (kernelSrc longText) 0 1030 emptyFile = .ok (1030, t) ∧
    readi smallDisk 0 kernelDst 1018 10 t = .ok ((10, [0, 0, 1, 2, 3, 4, 5, 6, 7, 8]), t) := by
  have hlen : longText.length = 1030 := by decide +kernel
  have hsrc : ∀ k (hk : k < longText.length), kernelSrc longText k = some longText[k] :=
    fun k hk => congrArg some (List.getD_eq_getElem _ _ hk)
  obtain ⟨t, h1, h2, -, h4⟩ := (writei_readi emptyFile_ok emptyFile_holeFree).1 0
    (kernelSrc longText) longText (by decide) (by decide +kernel) (by decide +kernel) hsrc
  have hread : ((overwrite (fileBytes emptyFile 0) 0 longText).drop 1018).take 10 =
      [0, 0, 1, 2, 3, 4, 5, 6, 7, 8] := by decide +kernel
  rw [hlen] at h1 h2
  refine ⟨t, h1, (h4 1018 10 (by decide) (by decide)).trans ?_⟩
  rw [hread, h2]
  simp [emptyFile, emptyDinode]

end Xv6.Fs
