import Xv6.FsFile
import Xv6.FsCalls

/-!
The file system as it is between two functions of `fs.c`: the copies in memory are those of the disk
inodes, the free map and the slots of the disk inodes agree, and no file has a hole. Every function
on a single inode keeps it so, and none of them frees a free block.
-/

namespace Xv6.Fs

open Xv6.ByteMem Xv6.Wp

variable {sb : Superblock} {ρ : ℕ → ℕ} {s t u : Disk} {i j k x y : ℕ} {E : Panic → Prop}

/-- The slots as they are on disk. -/
def diskRefs (s : Disk) : ℕ → ℕ → ℕ := refAt s.dinodes s.blocks

/-- There is a block for every byte of every inode. -/
def NoHoles (s : Disk) : Prop :=
  ∀ x o, (s.dinodes x).type ≠ .free → o < (s.dinodes x).size → diskRefs s x (slot (o / BSIZE)) ≠ 0

/-- What is in memory of an inode is what is on disk. -/
def Synced (s : Disk) : Prop :=
  ∀ i, 0 < (s.inodes i).ref → (s.inodes i).valid = true →
    s.dinodes (s.inodes i).inum = (s.inodes i).copy ∧ (s.inodes i).copy.type ≠ .free

structure Consistent (sb : Superblock) (s : Disk) : Prop where
  acct : Acct sb s.bits (diskRefs s)
  noHoles : NoHoles s
  synced : Synced s

/-! ### Entries of the table -/

lemma Synced.cur_eq (h : Synced s) (hr : 0 < (s.inodes i).ref) (hv : (s.inodes i).valid = true) :
    cur s i = s.dinodes := by
  unfold cur
  rw [← (h i hr hv).1]
  exact Function.update_eq_self _ _

lemma Synced.refs_eq (h : Synced s) (hr : 0 < (s.inodes i).ref) (hv : (s.inodes i).valid = true) :
    refs s i = diskRefs s := by
  unfold refs diskRefs
  rw [h.cur_eq hr hv]

lemma Synced.entries (h : Synced s) (hd : t.dinodes = s.dinodes)
    (he : ∀ j, 0 < (t.inodes j).ref → (t.inodes j).valid = true → 0 < (s.inodes j).ref ∧
      (s.inodes j).valid = true ∧ (t.inodes j).inum = (s.inodes j).inum ∧
      (t.inodes j).copy = (s.inodes j).copy) : Synced t := by
  intro j hr hv
  obtain ⟨h1, h2, h3, h4⟩ := he j hr hv
  rw [hd, h3, h4]
  exact h j h1 h2

lemma Synced.set (h : Synced s) (hρ : Held ρ s) (hi : 0 < ρ i)
    (hne : ∀ j, j ≠ i → t.inodes j = s.inodes j)
    (hd : ∀ y, y ≠ (s.inodes i).inum → t.dinodes y = s.dinodes y)
    (hself : 0 < (t.inodes i).ref → (t.inodes i).valid = true →
      t.dinodes (t.inodes i).inum = (t.inodes i).copy ∧ (t.inodes i).copy.type ≠ .free) :
    Synced t := by
  intro j hr hv
  by_cases hj : j = i
  · rw [hj] at hr hv ⊢
    exact hself hr hv
  · rw [hne j hj] at hr hv ⊢
    rw [hd]
    · exact h j hr hv
    · intro he
      rw [hρ.ref j] at hr
      exact hj (hρ.uniq j i hr hi he)

section Entry

variable (h : Consistent sb s) (hρ : Held ρ s) (hi : 0 < ρ i) (hv : (s.inodes i).valid = true)

include h hρ hi hv

lemma Consistent.copy_eq : s.dinodes (s.inodes i).inum = (s.inodes i).copy :=
  (h.synced i (by rw [hρ.ref i]; exact hi) hv).1

lemma Consistent.type_ne : (s.inodes i).copy.type ≠ .free :=
  (h.synced i (by rw [hρ.ref i]; exact hi) hv).2

lemma Consistent.refs_eq : refs s i = diskRefs s :=
  h.synced.refs_eq (by rw [hρ.ref i]; exact hi) hv

lemma Consistent.acct_at : Acct sb s.bits (refs s i) := by
  rw [h.refs_eq hρ hi hv]
  exact h.acct

lemma Consistent.holeFree : HoleFree s i := by
  intro o ho
  rw [blockIn, h.refs_eq hρ hi hv]
  refine h.noHoles _ o ?_ ?_
  · rw [h.copy_eq hρ hi hv]
    exact h.type_ne hρ hi hv
  · rwa [h.copy_eq hρ hi hv]

end Entry

lemma NoHoles.size_le (h : NoHoles s) (hx : (s.dinodes x).type ≠ .free) :
    (s.dinodes x).size ≤ MAXFILE * BSIZE := by
  by_contra hlt
  refine h x (MAXFILE * BSIZE) hx (by omega) (refAt_beyond _ _ _ ?_)
  decide

lemma Consistent.size_le (h : Consistent sb s) (hρ : Held ρ s) (hi : 0 < ρ i)
    (hv : (s.inodes i).valid = true) : (s.inodes i).copy.size ≤ MAXFILE * BSIZE := by
  rw [← h.copy_eq hρ hi hv]
  refine h.noHoles.size_le ?_
  rw [h.copy_eq hρ hi hv]
  exact h.type_ne hρ hi hv

/-! ### Slots after a change of one inode -/

lemma refAt_shallow {D : ℕ → Dinode} {d : Dinode} (m : ℕ → Mem) (ht : d.type = (D x).type)
    (ha : d.addrs = (D x).addrs) : refAt (Function.update D x d) m = refAt D m := by
  funext y l
  by_cases hy : y = x
  · subst hy
    unfold refAt slotAt
    rw [Function.update_self, ht, ha]
  · unfold refAt
    rw [Function.update_of_ne hy]

lemma clearInode_free {D : ℕ → Dinode} {m : ℕ → Mem} (hx : (D x).type = .free) :
    clearInode (refAt D m) x = refAt D m := by
  funext y l
  unfold clearInode
  split_ifs with hy
  · rw [hy, refAt, if_pos hx]
  · rfl

lemma NoHoles.empty (h : NoHoles s) (hd : ∀ y, y ≠ x → t.dinodes y = s.dinodes y)
    (hx : (t.dinodes x).size = 0) (hr : diskRefs t = clearInode (diskRefs s) x) : NoHoles t := by
  intro y o hy ho
  by_cases hyx : y = x
  · rw [hyx, hx] at ho
    exact absurd ho (Nat.not_lt_zero o)
  · rw [hd y hyx] at hy ho
    rw [hr, clearInode, if_neg hyx]
    exact h y o hy ho

/-! ### The functions on single inodes -/

lemma consistent_iget (h : Consistent sb s) (inum : ℕ) :
    wp (iget ROOTDEV inum) (fun _ t => Consistent sb t) (· ≠ .bfree) s := by
  unfold iget
  simp only [wp_bind, wp_get]
  split
  · simp only [wp_bind, setInode, wp_modify, wp_pure]
    rename_i i hf
    have hfound := List.find?_some hf
    rw [decide_eq_true_eq] at hfound
    refine ⟨h.acct, h.noHoles, h.synced.entries rfl fun j hr hv => ?_⟩
    by_cases hj : j = i
    · subst hj
      simp only [Function.update_self] at hv ⊢
      exact ⟨hfound.1, hv, trivial, trivial⟩
    · simp only [Function.update_of_ne hj] at hr hv ⊢
      exact ⟨hr, hv, trivial, trivial⟩
  · split
    · simp only [wp_bind, setInode, wp_modify, wp_pure]
      rename_i i _
      refine ⟨h.acct, h.noHoles, h.synced.entries rfl fun j hr hv => ?_⟩
      by_cases hj : j = i
      · subst hj
        simp only [Function.update_self] at hv
        cases hv
      · simp only [Function.update_of_ne hj] at hr hv ⊢
        exact ⟨hr, hv, trivial, trivial⟩
    · exact (by decide : Panic.iget ≠ .bfree)

lemma consistent_idup (h : Consistent sb s) (hρ : Held ρ s) (hi : 0 < ρ i) :
    wp (idup i) (fun _ t => Consistent sb t) E s := by
  unfold idup
  simp only [wp_bind, setInode, wp_modify, wp_pure]
  refine ⟨h.acct, h.noHoles, h.synced.entries rfl fun j hr hv => ?_⟩
  by_cases hj : j = i
  · subst hj
    simp only [Function.update_self] at hv ⊢
    exact ⟨by rw [hρ.ref j]; exact hi, hv, trivial, trivial⟩
  · simp only [Function.update_of_ne hj] at hr hv ⊢
    exact ⟨hr, hv, trivial, trivial⟩

lemma consistent_ilock (h : Consistent sb s) (hρ : Held ρ s) (i : ℕ) :
    wp (ilock i) (fun _ t => Consistent sb t) (· ≠ .bfree) s := by
  unfold ilock
  simp only [wp_bind, wp_get]
  split
  · exact (by decide : Panic.ilock ≠ .bfree)
  rename_i hr
  rw [hρ.ref i] at hr
  split
  · exact h
  · simp only [wp_bind, setInode, wp_modify]
    split
    · exact (by decide : Panic.ilock_no_type ≠ .bfree)
    · rename_i ht
      refine ⟨h.acct, h.noHoles, h.synced.set hρ (by omega : 0 < ρ i) update_other
        (fun _ _ => rfl) fun _ _ => ?_⟩
      simp only [Function.update_self]
      exact ⟨trivial, ht⟩

lemma consistent_itrunc (h : Consistent sb s) (hρ : Held ρ s) (hi : 0 < ρ i)
    (hv : (s.inodes i).valid = true) :
    wp (itrunc i) (fun _ t => Consistent sb t ∧ diskRefs t = clearInode (diskRefs s) (s.inodes i).inum ∧
      t.blocks = s.blocks ∧ (∃ a, (∀ k, k ≤ NDIRECT → a k = 0) ∧
        t.dinodes = Function.update s.dinodes (s.inodes i).inum (truncated (s.inodes i).copy a) ∧
        t.inodes = Function.update s.inodes i
          { s.inodes i with copy := truncated (s.inodes i).copy a })) E s := by
  refine wp_post (itrunc_spec (h.acct_at hρ hi hv) (h.type_ne hρ hi hv)) ?_
  rintro _ t ⟨bits, a, ha, rfl, hacct⟩
  rw [h.refs_eq hρ hi hv] at hacct
  have hrefs : refAt (Function.update s.dinodes (s.inodes i).inum
      (truncated (s.inodes i).copy a)) s.blocks = clearInode (diskRefs s) (s.inodes i).inum :=
    refAt_truncated ha
  refine ⟨⟨?_, ?_, ?_⟩, hrefs, rfl, a, ha, rfl, rfl⟩
  · unfold diskRefs
    rw [hrefs]
    exact hacct
  · refine h.noHoles.empty (x := (s.inodes i).inum) (fun y hy => Function.update_of_ne hy _ _) ?_
      hrefs
    simp only [Function.update_self, truncated]
  · refine h.synced.set hρ hi update_other (fun y hy => Function.update_of_ne hy _ _) fun _ _ => ?_
    simp only [Function.update_self]
    exact ⟨trivial, h.type_ne hρ hi hv⟩

/-- The disk is the same, whatever has become of the table. -/
structure SameDisk (s t : Disk) : Prop where
  bits : t.bits = s.bits
  dinodes : t.dinodes = s.dinodes
  blocks : t.blocks = s.blocks

lemma SameDisk.refl (s : Disk) : SameDisk s s := ⟨rfl, rfl, rfl⟩

/-- Inode `x`, to which there was no link, is free, and so are its blocks. -/
structure Freed (x : ℕ) (s t : Disk) : Prop where
  was : (s.dinodes x).type ≠ .free
  nlink : (s.dinodes x).nlink = 0
  type : (t.dinodes x).type = .free
  other : ∀ y, y ≠ x → t.dinodes y = s.dinodes y
  blocks : t.blocks = s.blocks
  refs : diskRefs t = clearInode (diskRefs s) x

/-- The only reference to entry `i` is to an inode without links. -/
def Dying (s : Disk) (i : ℕ) : Prop :=
  (s.inodes i).ref = 1 ∧ (s.inodes i).valid = true ∧ (s.inodes i).copy.nlink = 0

/-- **iput** changes the disk only if it drops the last reference to an inode without links. -/
lemma iput_disk (h : Consistent sb s) (hρ : Held ρ s) (hi : 0 < ρ i) :
    wp (iput i) (fun _ t => Consistent sb t ∧
      (¬Dying s i ∧ SameDisk s t ∨ Dying s i ∧ Freed (s.inodes i).inum s t)) E s := by
  unfold iput
  simp only [wp_bind, wp_get]
  split
  · rename_i hlast
    obtain ⟨hone, hv, hlink⟩ := hlast
    rw [wp_bind]
    refine wp_post (consistent_itrunc h hρ hi hv) ?_
    rintro _ t ⟨ht, hrefs, hblocks, a, ha, hd, hino⟩
    have hself : t.inodes i = { s.inodes i with copy := truncated (s.inodes i).copy a } := by
      rw [hino, Function.update_self]
    simp only [wp_bind, setCopy, setInode, iupdate, wp_modify, Function.update_self,
      Function.update_idem]
    have hdi : Function.update t.dinodes (t.inodes i).inum
        { (t.inodes i).copy with type := .free } = Function.update s.dinodes (s.inodes i).inum
        { truncated (s.inodes i).copy a with type := .free } := by
      rw [hself, hd, Function.update_idem]
    have hrefs' : refAt (Function.update t.dinodes (t.inodes i).inum
        { (t.inodes i).copy with type := .free }) t.blocks =
        clearInode (diskRefs s) (s.inodes i).inum := by
      rw [hdi, hblocks]
      exact refAt_truncated ha
    have hne : ∀ y, y ≠ (s.inodes i).inum → Function.update t.dinodes (t.inodes i).inum
        { (t.inodes i).copy with type := .free } y = s.dinodes y := by
      intro y hy
      rw [hdi, Function.update_of_ne hy]
    have hfree : Function.update t.dinodes (t.inodes i).inum
        { (t.inodes i).copy with type := .free } (s.inodes i).inum =
        { truncated (s.inodes i).copy a with type := .free } := by
      rw [hdi, Function.update_self]
    refine ⟨⟨?_, ?_, ?_⟩, Or.inr ⟨⟨hone, hv, hlink⟩, ?_⟩⟩
    · unfold diskRefs
      rw [hrefs', ← hrefs]
      exact ht.acct
    · refine h.noHoles.empty (x := (s.inodes i).inum) hne ?_ hrefs'
      exact congrArg Dinode.size hfree
    · refine h.synced.set hρ hi (fun j hj => ?_) hne fun _ hc => ?_
      · rw [hino]
        simp only [Function.update_of_ne hj]
      · simp only [Function.update_self] at hc
        cases hc
    · refine ⟨?_, ?_, congrArg Dinode.type hfree, hne, hblocks, hrefs'⟩
      · rw [h.copy_eq hρ hi hv]
        exact h.type_ne hρ hi hv
      · rw [h.copy_eq hρ hi hv]
        exact hlink
  · rename_i hlast
    simp only [setInode, wp_modify]
    refine ⟨⟨h.acct, h.noHoles, h.synced.entries rfl fun j hr hv => ?_⟩,
      Or.inl ⟨hlast, rfl, rfl, rfl⟩⟩
    by_cases hj : j = i
    · subst hj
      simp only [Function.update_self] at hr hv ⊢
      exact ⟨by omega, hv, trivial, trivial⟩
    · simp only [Function.update_of_ne hj] at hr hv ⊢
      exact ⟨hr, hv, trivial, trivial⟩

lemma consistent_type (h : Consistent sb s) (hx : (s.dinodes x).type = .free) (type : Ftype) :
    Consistent sb { s with
      dinodes := Function.update s.dinodes x { Dinode.zero with type := type } } := by
  have hrefs : refAt (Function.update s.dinodes x { Dinode.zero with type := type }) s.blocks =
      clearInode (diskRefs s) x := refAt_truncated fun _ _ => rfl
  refine ⟨?_, ?_, fun j hr hv => ?_⟩
  · unfold diskRefs
    rw [hrefs, diskRefs, clearInode_free hx]
    exact h.acct
  · refine h.noHoles.empty (x := x) (fun y hy => Function.update_of_ne hy _ _) ?_ hrefs
    simp only [Function.update_self, Dinode.zero]
  · obtain ⟨h1, h2⟩ := h.synced j hr hv
    refine ⟨?_, h2⟩
    have hjx : (s.inodes j).inum ≠ x := by
      rintro rfl
      rw [← h1] at h2
      exact h2 hx
    exact (Function.update_of_ne hjx _ _).trans h1

lemma consistent_ialloc (h : Consistent sb s) (type : Ftype) :
    wp (ialloc sb ROOTDEV type) (fun _ t => Consistent sb t) (· ≠ .bfree) s := by
  unfold ialloc
  simp only [wp_bind, wp_get]
  split
  · rename_i inum hf
    have hfree := List.find?_some hf
    rw [decide_eq_true_eq] at hfree
    simp only [wp_bind, wp_set, wp_pure]
    exact consistent_iget (consistent_type h hfree.2 type) inum
  · exact h

/-- `readi` changes nothing: it meets no hole. -/
lemma readi_same (h : Consistent sb s) (hρ : Held ρ s) (hi : 0 < ρ i)
    (hv : (s.inodes i).valid = true) (ok : ℕ → ℕ → Bool) (off : ℕ) {n : ℕ} (hn : n < 2 ^ 32) :
    wp (readi sb i ok off n) (fun _ t => t = s) E s := by
  have hacct := h.acct_at hρ hi hv
  have htype := h.type_ne hρ hi hv
  have hhole := h.holeFree hρ hi hv
  have hloop : ∀ n fuel tot off acc, tot ≤ n → n - tot < fuel →
      off + (n - tot) ≤ (s.inodes i).copy.size →
      wp (readiLoop sb i ok n fuel tot off acc) (fun _ t => t = s) E s := by
    intro n fuel
    induction fuel with
    | zero => intro tot off acc _ hf; omega
    | succ fuel ih =>
      intro tot off acc hle hf hsize
      rw [readiLoop]
      by_cases hlt : tot < n
      swap
      · rw [if_neg hlt]
        exact rfl
      have hr := hhole off (by omega)
      have hmax := h.size_le hρ hi hv
      rw [if_pos hlt, wp_bind]
      refine wp_post (bmap_spec hacct htype (div_lt_maxfile (by omega))) ?_
      rintro addr t ⟨-, -, hfound⟩
      obtain ⟨rfl, rfl⟩ := hfound hr
      rw [if_neg hr, wp_bind, wp_get]
      dsimp only
      have hpos := Nat.mod_lt off (show BSIZE > 0 by decide)
      split
      · exact ih _ _ _ (by omega) (by omega) (by omega)
      · exact rfl
  unfold readi
  simp only [wp_bind, wp_get]
  split
  · exact rfl
  · rename_i hc
    push Not at hc
    refine hloop _ _ 0 off [] (Nat.zero_le _) (by omega) ?_
    have hsum : off + n < 2 ^ 32 := by
      by_contra hge
      have := hc.2
      omega
    rw [Nat.mod_eq_of_lt hsum]
    split_ifs <;> omega

/-- **writei** turns a request down or does a part of it. -/
lemma writei_cases (h : Acct sb s.bits (refs s i)) (ht : (s.inodes i).copy.type ≠ .free)
    (src : ℕ → Option Byte) (off : ℕ) {n : ℕ} (hn : n < 2 ^ 32) :
    wp (writei sb i src off n) (fun r u => (r = -1 ∧ u = s ∧ Rejected s i off n) ∨
      ∃ (d p : ℕ) (K : Finset ℕ)
      (t : Logged.Traced), r = d ∧ off ≤ (s.inodes i).copy.size ∧ off + n ≤ MAXFILE * BSIZE ∧
      Logged.Wrote sb i src off d p K ⟨s, ∅⟩ t ∧ Logged.Stop sb i src off n d p K t.disk ∧
      u = finish t.disk i (off + d)) E s := by
  by_cases hoff : off < 2 ^ 32
  · refine (@Logged.forgets_writei sb i src off n).wp (t := ⟨s, ∅⟩) ?_
    by_cases hr : Rejected s i off n
    · refine wp_post (Logged.writei_rejected (s := ⟨s, ∅⟩) src hoff hn hr) ?_
      rintro r t ⟨rfl, rfl⟩
      exact Or.inl ⟨rfl, rfl, hr⟩
    · refine wp_post (Logged.writei_wrote (s := ⟨s, ∅⟩) src h ht hr) ?_
      rintro _ _ ⟨d, p, K, t, rfl, hw, hstop, rfl⟩
      unfold Rejected at hr
      push Not at hr
      exact Or.inr ⟨d, p, K, t, rfl, hr.1, hr.2.2, hw, hstop, rfl⟩
  · unfold writei
    simp only [wp_bind, wp_get]
    rw [if_pos (Or.inr (by omega))]
    exact Or.inl ⟨rfl, rfl, Or.inr (Or.inl (by omega))⟩

lemma finish_other (s : Disk) (e : ℕ) (hj : j ≠ i) : (finish s i e).inodes j = s.inodes j :=
  Function.update_of_ne hj _ _

lemma diskRefs_finish (s : Disk) (i e : ℕ) : diskRefs (finish s i e) = refs s i := by
  rw [← refs_finish s i e]
  unfold refs diskRefs
  congr 1
  unfold cur
  rw [finish_self]
  exact (Function.update_idem _ _ _).symm

lemma consistent_finish {src : ℕ → Option Byte} {off d p : ℕ} {K : Finset ℕ} {t : Logged.Traced}
    (h : Consistent sb s) (hρ : Held ρ s) (hi : 0 < ρ i) (hv : (s.inodes i).valid = true)
    (hw : Logged.Wrote sb i src off d p K ⟨s, ∅⟩ t) (hoff : off ≤ (s.inodes i).copy.size) :
    Consistent sb (finish t.disk i (off + d)) := by
  have hd : ∀ y, y ≠ (s.inodes i).inum →
      (finish t.disk i (off + d)).dinodes y = s.dinodes y := by
    intro y hy
    rw [← hw.filled.dinodes]
    refine Function.update_of_ne ?_ _ _
    rw [hw.filled.inum]
    exact hy
  have hself : (finish t.disk i (off + d)).dinodes (s.inodes i).inum =
      ((finish t.disk i (off + d)).inodes i).copy := by
    rw [finish_self, ← hw.filled.inum]
    exact Function.update_self _ _ _
  have hinum : ((finish t.disk i (off + d)).inodes i).inum = (s.inodes i).inum := by
    rw [finish_self]
    exact hw.filled.inum
  refine ⟨?_, fun y o hy ho => ?_, h.synced.set hρ hi (fun j hj => ?_) hd fun _ _ => ?_⟩
  · rw [diskRefs_finish]
    exact hw.filled.acct
  · by_cases hyi : y = (s.inodes i).inum
    · subst hyi
      rw [hself] at ho
      have := hw.holeFree (h.holeFree hρ hi hv) hoff o ho
      rwa [blockIn, refs_finish, hinum, ← diskRefs_finish t.disk i (off + d)] at this
    · rw [hd y hyi] at hy ho
      have hs := h.noHoles y o hy ho
      rw [← h.refs_eq hρ hi hv] at hs
      rw [diskRefs_finish, hw.filled.kept hs]
      exact hs
  · rw [finish_other _ _ hj]
    exact hw.filled.other j hj
  · rw [hinum]
    refine ⟨hself, ?_⟩
    rw [finish_self]
    exact hw.filled.copy_type ▸ h.type_ne hρ hi hv

lemma consistent_writei (h : Consistent sb s) (hρ : Held ρ s) (hi : 0 < ρ i)
    (hv : (s.inodes i).valid = true) (src : ℕ → Option Byte) (off : ℕ) {n : ℕ} (hn : n < 2 ^ 32) :
    wp (writei sb i src off n) (fun _ t => Consistent sb t) E s := by
  refine wp_post (writei_cases (h.acct_at hρ hi hv) (h.type_ne hρ hi hv) src off hn) ?_
  rintro r u (⟨-, rfl, -⟩ | ⟨d, p, K, t, -, hoff, -, hw, -, rfl⟩)
  · exact h
  · exact consistent_finish h hρ hi hv hw hoff

/-- Another link count, or another device number. -/
lemma consistent_relink (h : Consistent sb s) (hρ : Held ρ s) (hi : 0 < ρ i)
    (hv : (s.inodes i).valid = true) {f : Dinode → Dinode} (hf : Shallow f) :
    wp (setCopy i f) (fun _ t => wp (iupdate i) (fun _ u => Consistent sb u ∧
      u.dinodes = Function.update s.dinodes (s.inodes i).inum (f (s.inodes i).copy) ∧
      u.blocks = s.blocks) E t) E s := by
  simp only [setCopy, setInode, iupdate, wp_modify, Function.update_self]
  obtain ⟨h1, h2, h3⟩ := hf (s.inodes i).copy
  have hcopy := h.copy_eq hρ hi hv
  have htype := h.type_ne hρ hi hv
  have hrefs : refAt (Function.update s.dinodes (s.inodes i).inum (f (s.inodes i).copy)) s.blocks =
      diskRefs s := refAt_shallow _ (by rw [h1, hcopy]) (by rw [h3, hcopy])
  refine ⟨⟨?_, fun y o hy ho => ?_, ?_⟩, trivial, trivial⟩
  · unfold diskRefs
    rw [hrefs]
    exact h.acct
  · unfold diskRefs at *
    rw [hrefs]
    by_cases hyi : y = (s.inodes i).inum
    · subst hyi
      simp only [Function.update_self, h1, h2] at hy ho
      rw [← hcopy] at hy ho
      exact h.noHoles _ o hy ho
    · simp only [Function.update_of_ne hyi] at hy ho
      exact h.noHoles y o hy ho
  · refine h.synced.set hρ hi update_other (fun y hy => Function.update_of_ne hy _ _) fun _ _ => ?_
    simp only [Function.update_self, h1]
    exact ⟨trivial, htype⟩

/-- **Consistent file systems stay consistent**, and no free block is freed. -/
theorem stable_consistent (sb : Superblock) : Stable sb (Consistent sb) (· ≠ .bfree) where
  panic _ := id
  iget _ h inum := consistent_iget h inum
  idup hρ h hi := consistent_idup h hρ hi
  ilock hρ h i := consistent_ilock h hρ i
  iput hρ h hi := wp_post (iput_disk h hρ hi) fun _ _ ht => ht.1
  ialloc _ h type := consistent_ialloc h type
  readi hρ h hi hv ok off _ hn :=
    wp_post (readi_same h hρ hi hv ok off hn) fun _ _ ht => ht ▸ h
  writei hρ h hi hv src off _ hn := consistent_writei h hρ hi hv src off hn
  relink hρ h hi hv hf :=
    wp_post (consistent_relink h hρ hi hv hf) fun _ _ ht => wp_post ht fun _ _ hu => hu.1

end Xv6.Fs
