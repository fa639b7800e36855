import Xv6.FsFile
import Xv6.Log
import Mathlib.Order.Interval.Finset.Nat

/-!
How many blocks a transaction of `filewrite` logs. A section writes at most three blocks' worth of
bytes; they lie in four blocks if they do not begin at one, and then the first of the four is there
already, for a file has no holes.
-/

namespace Xv6.FsTrans

open Xv6.ByteMem Xv6.Wp Xv6.Fs Xv6.Fs.Logged
open Xv6.Log (MAXOPBLOCKS)

/-- A process in `filewrite`: the file system with what the transaction has logged, `f->off`, and
what each section from `begin_op` to `end_op` has logged, of those that are over. -/
structure Writer where
  trans : Traced
  off : ℕ
  sections : List (Finset ℕ)

abbrev W := StateT Writer (Except Panic)

variable (sb : Superblock) (others : ℕ → Disk × ℕ → Disk × ℕ)

def inTrans {α : Type} (m : T α) : W α := zoom Writer.trans (fun s t => { s with trans := t }) m

/-- `begin_op`, before byte `j` of the call; while it waits, others change the file system and the
offset of the file. -/
def begin_op (j : ℕ) : W Unit := modify fun s =>
  { s with
    trans := ⟨(others j (s.trans.disk, s.off)).1, ∅⟩
    off := (others j (s.trans.disk, s.off)).2 }

def end_op : W Unit := modify fun s => { s with sections := s.sections ++ [s.trans.logged] }

/-- The file's offset moves on by what was written. -/
def advance (r : ℤ) : W Unit :=
  if 0 < r then modify fun s => { s with off := (s.off + r.toNat) % 2 ^ 32 } else pure ()

/-- The bytes of one section: `((MAXOPBLOCKS-1-1-2) / 2) * BSIZE`. -/
def maxBytes : ℕ := ((MAXOPBLOCKS - 1 - 1 - 2) / 2) * BSIZE

/-- The loop of `filewrite` of a file on disk, from byte `j` of `n` on. -/
def filewriteLoop (i : ℕ) (src : ℕ → Option Byte) (n : ℕ) : ℕ → ℕ → W ℕ
  | 0, _ => throw .diverge
  | fuel + 1, j =>
    if j < n then do
      let n1 := min (n - j) maxBytes
      begin_op others j
      inTrans (fs (ilock i))
      let s ← get
      let r ← inTrans (writei sb i (fun k => src (j + k)) s.off n1)
      advance r
      inTrans (fs (iunlock i))
      end_op
      if r ≠ n1 then pure j else filewriteLoop i src n fuel (j + n1)
    else pure j

/-- `filewrite` of a file whose type is `FD_INODE`. -/
def filewrite (writable : Bool) (i : ℕ) (src : ℕ → Option Byte) (n : ℤ) : W ℤ :=
  if writable = false then pure (-1)
  else do
    let j ← filewriteLoop sb others i src n.toNat (n.toNat + 1) 0
    pure (if j = n then n else -1)

variable {sb others}
variable {s t : Traced} {i off n d p w : ℕ} {K : Finset ℕ} {src : ℕ → Option Byte}
  {E : Panic → Prop}

/-! ### The blocks of a section -/

/-- The blocks of the file that `n` bytes from `off` on lie in. -/
def fileBlocks (off n : ℕ) : Finset ℕ := (Finset.range n).image fun j => (off + j) / BSIZE

/-- Those that have to be allocated. -/
def newBlocks (s : Disk) (i off n : ℕ) : Finset ℕ :=
  (fileBlocks off n).filter fun bn => blockIn s i (slot bn) = 0

/-- **The exact count**: the blocks of one section and those to be allocated among them are seven at
most. -/
lemma card_blocks (hh : HoleFree s.disk i) (hoff : off ≤ (s.disk.inodes i).copy.size)
    (hw : w ≤ maxBytes) :
    (fileBlocks off w).card + (newBlocks s.disk i off w).card ≤ 7 := by
  have hmax : maxBytes = 3072 := rfl
  have hsub : fileBlocks off w ⊆ Finset.Icc (off / BSIZE) ((off + w - 1) / BSIZE) := by
    intro bn hbn
    obtain ⟨j, hj, rfl⟩ := Finset.mem_image.mp hbn
    have hj : j < w := Finset.mem_range.mp hj
    refine Finset.mem_Icc.mpr ⟨Nat.div_le_div_right (by omega), Nat.div_le_div_right (by omega)⟩
  have hfile := Finset.card_le_card hsub
  rw [Nat.card_Icc] at hfile
  by_cases h0 : off % BSIZE = 0
  · have hnew : (newBlocks s.disk i off w).card ≤ (fileBlocks off w).card :=
      Finset.card_filter_le _ _
    unfold BSIZE at *
    omega
  · -- the first block is there, for the bytes before `off` are in it
    have hfirst : blockIn s.disk i (slot (off / BSIZE)) ≠ 0 := by
      have := hh (off / BSIZE * BSIZE) (by
        have := Nat.div_add_mod off BSIZE
        rw [Nat.mul_comm] at this
        omega)
      rwa [Nat.mul_div_cancel _ (by decide)] at this
    have hsub' : newBlocks s.disk i off w ⊆
        Finset.Icc (off / BSIZE + 1) ((off + w - 1) / BSIZE) := by
      intro bn hbn
      obtain ⟨hmem, hz⟩ := Finset.mem_filter.mp hbn
      obtain ⟨hle, hge⟩ := Finset.mem_Icc.mp (hsub hmem)
      refine Finset.mem_Icc.mpr ⟨Nat.lt_of_le_of_ne hle ?_, hge⟩
      rintro rfl
      exact hfirst hz
    have hnew := Finset.card_le_card hsub'
    rw [Nat.card_Icc] at hnew
    unfold BSIZE at *
    omega

/-- What is logged: the blocks of the file, the indirect block, and the blocks of the map with the
bits of the new blocks and of the indirect block. -/
lemma logged_subset (hw : Wrote sb i src off d p K ⟨s.disk, ∅⟩ t) (hK : K ⊆ slotsOf off w)
    (hd : d ≤ w) : t.logged ⊆
      (fileBlocks off w).image (fun bn => blockIn t.disk i (slot bn)) ∪ {blockIn t.disk i NDIRECT} ∪
        (insert NDIRECT ((newBlocks s.disk i off w).image slot)).image
          (fun k => BBLOCK sb (blockIn t.disk i k)) := by
  intro b hb
  rw [hw.logged, Finset.empty_union] at hb
  simp only [Finset.mem_union]
  rcases Finset.mem_union.mp hb with hb | hb
  · obtain ⟨k, hk, hb⟩ := Finset.mem_biUnion.mp hb
    obtain ⟨j, hj, hkj⟩ := Finset.mem_biUnion.mp (hK hk)
    have hbn : (off + j) / BSIZE ∈ fileBlocks off w := Finset.mem_image_of_mem _ hj
    have hslot : k = NDIRECT ∨ k = slot ((off + j) / BSIZE) := by
      unfold blockSlots at hkj
      split_ifs at hkj with hlt
      · rw [Finset.mem_singleton.mp hkj, slot, if_pos hlt]
        exact Or.inr rfl
      · simpa using hkj
    have hnew : k = slot ((off + j) / BSIZE) → (off + j) / BSIZE ∈ newBlocks s.disk i off w := by
      rintro rfl
      exact Finset.mem_filter.mpr ⟨hbn, (hw.filled.fresh _ hk).1⟩
    rcases Finset.mem_union.mp hb with hb | hb
    · rcases Finset.mem_insert.mp hb with rfl | hb
      · rcases hslot with rfl | rfl
        · exact Or.inl (Or.inr (Finset.mem_singleton_self _))
        · exact Or.inl (Or.inl (Finset.mem_image_of_mem _ hbn))
      · rw [Finset.mem_singleton.mp hb]
        refine Or.inr (Finset.mem_image_of_mem (fun k => BBLOCK sb (blockIn t.disk i k)) ?_)
        rcases hslot with rfl | hk
        · exact Finset.mem_insert_self _ _
        · rw [hk]
          exact Finset.mem_insert_of_mem (Finset.mem_image_of_mem _ (hnew hk))
    · split_ifs at hb with hn
      · exact Or.inl (Or.inr hb)
      · exact absurd hb (Finset.notMem_empty b)
  · obtain ⟨j, hj, rfl⟩ := Finset.mem_image.mp hb
    have hj : j < w := Nat.lt_of_lt_of_le (Finset.mem_range.mp hj) hd
    exact Or.inl (Or.inl (Finset.mem_image_of_mem (fun bn => blockIn t.disk i (slot bn))
      (Finset.mem_image_of_mem _ (Finset.mem_range.mpr hj))))

lemma card_logged (hh : HoleFree s.disk i) (hoff : off ≤ (s.disk.inodes i).copy.size)
    (hw : Wrote sb i src off d p K ⟨s.disk, ∅⟩ t) (hK : K ⊆ slotsOf off w) (hd : d ≤ w)
    (hmax : w ≤ maxBytes) (b : ℕ) : (insert b t.logged).card ≤ MAXOPBLOCKS := by
  have hcount := card_blocks hh hoff hmax
  have hsub := Finset.card_le_card (logged_subset hw hK hd)
  calc (insert b t.logged).card
      ≤ t.logged.card + 1 := Finset.card_insert_le _ _
    _ ≤ ((fileBlocks off w).card + 1 + ((newBlocks s.disk i off w).card + 1)) + 1 := by
        refine Nat.add_le_add_right (hsub.trans ((Finset.card_union_le _ _).trans ?_)) 1
        refine Nat.add_le_add ((Finset.card_union_le _ _).trans ?_) ?_
        · rw [Finset.card_singleton]
          exact Nat.add_le_add_right Finset.card_image_le 1
        · exact Finset.card_image_le.trans ((Finset.card_insert_le _ _).trans
            (Nat.add_le_add_right Finset.card_image_le 1))
    _ ≤ MAXOPBLOCKS := by
        unfold MAXOPBLOCKS
        omega

/-! ### Runs of filewrite -/

/-- Table entry `i` is a file without holes that is open. -/
structure Writable (sb : Superblock) (i : ℕ) (s : Disk) : Prop where
  ok : FileOk sb i s
  holeFree : HoleFree s i
  ref : 0 < (s.inodes i).ref
  valid : (s.inodes i).valid = true

lemma Writable.written {s : Disk} (h : Writable sb i s) (hw : Wrote sb i src off d p K ⟨s, ∅⟩ t)
    (hoff : off ≤ (s.inodes i).copy.size) (hend : off + d ≤ MAXFILE * BSIZE) :
    Writable sb i (finish t.disk i (off + d)) := by
  obtain ⟨a, ha⟩ := hw.filled.self
  refine ⟨hw.fileOk h.ok hend, hw.holeFree h.holeFree hoff, ?_, ?_⟩
  · rw [finish_self, ha]
    exact h.ref
  · rw [finish_self, ha]
    exact h.valid

/-- A `writei` of one section logs ten blocks at most. -/
lemma writei_fits {s : Disk} (h : Writable sb i s) (src : ℕ → Option Byte) (hn : n ≤ maxBytes) :
    wp (Logged.writei sb i src off n) (fun _ u => u.logged.card ≤ MAXOPBLOCKS ∧
      Writable sb i u.disk) E ⟨s, ∅⟩ := by
  have hmax : maxBytes = 3072 := rfl
  by_cases hr : Rejected s i off n
  · have hrej : wp (Logged.writei sb i src off n) (fun r t => r = -1 ∧ t = ⟨s, ∅⟩) E ⟨s, ∅⟩ := by
      by_cases hlt : (s.inodes i).copy.size < off
      · unfold Logged.writei
        simp only [wp_bind, wp_get]
        rw [if_pos (Or.inl hlt)]
        exact ⟨rfl, rfl⟩
      · have hsize := h.ok.size
        have hMB : MAXFILE * BSIZE < 2 ^ 32 := by decide
        exact writei_rejected (s := ⟨s, ∅⟩) src (by omega) (by omega) hr
    refine wp_post hrej ?_
    rintro _ _ ⟨-, rfl⟩
    exact ⟨Nat.zero_le _, h⟩
  refine wp_post (writei_wrote (s := ⟨s, ∅⟩) src h.ok.acct h.ok.type hr) ?_
  rintro _ _ ⟨d, p, K, t, -, hw, hstop, rfl⟩
  unfold Rejected at hr
  push Not at hr
  have hcard : ∀ w, K ⊆ slotsOf off w → d ≤ w → w ≤ n →
      (insert (IBLOCK sb (s.inodes i).inum) t.logged).card ≤ MAXOPBLOCKS := fun w hK hd hw' =>
    card_logged (s := ⟨s, ∅⟩) h.holeFree hr.1 hw hK hd (hw'.trans hn) _
  cases hstop with
  | done all clean slots =>
    exact ⟨hcard n slots (Nat.le_of_eq all) (Nat.le_refl n), h.written hw hr.1 (by omega)⟩
  | full short clean start slots none_left lacks =>
    exact ⟨hcard (d + 1) slots (Nat.le_succ d) short, h.written hw hr.1 (by omega)⟩
  | fault short start slots part unmapped has =>
    exact ⟨hcard (d + 1) slots (Nat.le_succ d) short, h.written hw hr.1 (by omega)⟩

/-- Every section that is over has kept to its allowance, and the file is as it should be. -/
structure Fits (sb : Superblock) (i : ℕ) (s : Writer) : Prop where
  writable : Writable sb i s.trans.disk
  sections : ∀ L ∈ s.sections, L.card ≤ MAXOPBLOCKS

lemma advance_same {s : Writer} (r : ℤ) : wp (advance r)
    (fun _ t => t.trans = s.trans ∧ t.sections = s.sections) E s := by
  unfold advance
  split_ifs
  · exact ⟨rfl, rfl⟩
  · exact ⟨rfl, rfl⟩

lemma wp_ilock {s : Disk} (h : Writable sb i s) : wp (ilock i) (fun _ t => t = s) E s := by
  unfold ilock
  simp only [wp_bind, wp_get]
  rw [if_neg (Nat.not_lt.mpr h.ref), if_pos h.valid]
  rfl

lemma wp_iunlock {s : Disk} (h : Writable sb i s) : wp (iunlock i) (fun _ t => t = s) E s := by
  unfold iunlock
  simp only [wp_bind, wp_get]
  rw [if_neg (Nat.not_lt.mpr h.ref)]
  rfl

lemma filewriteLoop_fits
    (ho : ∀ j d o, Writable sb i d → Writable sb i (others j (d, o)).1) (src : ℕ → Option Byte)
    (n : ℕ) : ∀ fuel j (s : Writer), n - j < fuel → Fits sb i s →
    wp (filewriteLoop sb others i src n fuel j) (fun _ t => Fits sb i t) E s := by
  intro fuel
  induction fuel with
  | zero => intro j s hf; omega
  | succ fuel ih =>
    intro j s hf h
    unfold filewriteLoop
    by_cases hn : j < n
    swap
    · rw [if_neg hn]
      exact h
    rw [if_pos hn]
    have hmax : 0 < maxBytes := by decide
    have hw := ho j _ s.off h.writable
    simp only [wp_bind, begin_op, wp_modify, inTrans, fs, wp_zoom, wp_get]
    refine wp_post (wp_ilock hw) ?_
    rintro _ _ rfl
    refine wp_post (writei_fits hw _ (Nat.min_le_right _ _)) ?_
    rintro r u ⟨hcard, hwu⟩
    refine wp_post (advance_same r) ?_
    rintro _ v ⟨hv, hsec⟩
    rw [hv]
    refine wp_post (wp_iunlock hwu) ?_
    rintro _ _ rfl
    simp only [end_op, wp_modify]
    have hfits : Fits sb i { v with
        trans := { u with disk := u.disk }
        sections := v.sections ++ [u.logged] } := by
      refine ⟨hwu, fun L hL => ?_⟩
      rcases List.mem_append.mp hL with hL | hL
      · rw [hsec] at hL
        exact h.sections L hL
      · rw [List.mem_singleton.mp hL]
        exact hcard
    rw [wp_ite]
    split_ifs
    · exact hfits
    · exact ih _ _ (by omega) hfits

/-- **Every transaction fits**: in a `filewrite` to a file without holes, whatever others do to the
file system and to the offset between its sections as long as they leave the file so, each section
logs no more blocks than an operation may. -/
theorem filewrite_fits (writable : Bool) {i : ℕ} (src : ℕ → Option Byte) (n : ℤ) {s : Writer}
    (h : Writable sb i s.trans.disk) (hs : s.sections = [])
    (ho : ∀ j d o, Writable sb i d → Writable sb i (others j (d, o)).1) :
    ∃ r t, filewrite sb others writable i src n s = .ok (r, t) ∧
      ∀ L ∈ t.sections, L.card ≤ MAXOPBLOCKS := by
  have hfits : Fits sb i s := by
    refine ⟨h, fun L hL => ?_⟩
    rw [hs] at hL
    exact absurd hL List.not_mem_nil
  have hrun : wp (filewrite sb others writable i src n) (fun _ t => Fits sb i t)
      (fun _ => False) s := by
    unfold filewrite
    rw [wp_ite]
    split_ifs
    · exact hfits
    · rw [wp_bind]
      refine wp_post (filewriteLoop_fits ho src _ _ 0 s (by omega) hfits) fun j t ht => ?_
      exact ht
  obtain ⟨r, t, hr, ht⟩ := wp_returns hrun
  exact ⟨r, t, hr, ht.sections⟩

/-- Two sections put 5000 bytes into the empty file, while another process rewinds it. -/
theorem filewrite_fits_empty : ∃ r t,
    filewrite smallDisk (fun _ x => (x.1, 0)) true 0 (kernelSrc (List.replicate 5000 7)) 5000
      ⟨⟨emptyFile, ∅⟩, 0, []⟩ = .ok (r, t) ∧ ∀ L ∈ t.sections, L.card ≤ MAXOPBLOCKS :=
  filewrite_fits true (kernelSrc (List.replicate 5000 7)) 5000 (s := ⟨⟨emptyFile, ∅⟩, 0, []⟩)
    ⟨emptyFile_ok, emptyFile_holeFree, by decide, rfl⟩ rfl fun _ _ _ h => h

end Xv6.FsTrans
