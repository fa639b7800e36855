import Xv6.FsBlocks

/-!
References to the inode table. `Held ρ s` says that `ρ i` references to entry `i` are held; every
function of `fs.c` is described by the references it takes and drops, whatever is on the disk. An
entry that somebody holds keeps its inode number and stays valid.
-/

namespace Xv6.Fs

open Xv6.ByteMem Xv6.Wp

variable {sb : Superblock} {ρ : ℕ → ℕ} {s t u : Disk} {i j : ℕ}

/-- One more reference to entry `i`. -/
def take (ρ : ℕ → ℕ) (i : ℕ) : ℕ → ℕ := Function.update ρ i (ρ i + 1)

/-- One reference to entry `i` less. -/
def drop (ρ : ℕ → ℕ) (i : ℕ) : ℕ → ℕ := Function.update ρ i (ρ i - 1)

@[simp] lemma take_self (ρ : ℕ → ℕ) (i : ℕ) : take ρ i i = ρ i + 1 := Function.update_self _ _ _

lemma take_ne (ρ : ℕ → ℕ) (h : j ≠ i) : take ρ i j = ρ j := Function.update_of_ne h _ _

lemma le_take (ρ : ℕ → ℕ) (i j : ℕ) : ρ j ≤ take ρ i j := by
  by_cases h : j = i
  · rw [h, take_self]
    exact Nat.le_succ _
  · exact Nat.le_of_eq (take_ne ρ h).symm

lemma take_pos (h : 0 < ρ j) : 0 < take ρ i j := Nat.lt_of_lt_of_le h (le_take ρ i j)

lemma take_self_pos (ρ : ℕ → ℕ) (i : ℕ) : 0 < take ρ i i := by
  rw [take_self]
  exact Nat.succ_pos _

@[simp] lemma drop_self (ρ : ℕ → ℕ) (i : ℕ) : drop ρ i i = ρ i - 1 := Function.update_self _ _ _

lemma drop_ne (ρ : ℕ → ℕ) (h : j ≠ i) : drop ρ i j = ρ j := Function.update_of_ne h _ _

lemma drop_pos (h : 0 < drop ρ i j) : 0 < ρ j := by
  by_cases hj : j = i
  · rw [hj, drop_self] at h
    rw [hj]
    omega
  · rwa [drop_ne ρ hj] at h

@[simp] lemma drop_take (ρ : ℕ → ℕ) (i : ℕ) : drop (take ρ i) i = ρ := by
  unfold drop
  rw [take_self]
  unfold take
  rw [Function.update_idem]
  exact Function.update_eq_self _ _

lemma take_comm (ρ : ℕ → ℕ) (i j : ℕ) : take (take ρ i) j = take (take ρ j) i := by
  by_cases h : i = j
  · rw [h]
  · unfold take
    rw [Function.update_of_ne (Ne.symm h), Function.update_of_ne h, Function.update_comm h]

@[simp] lemma drop_take_take (ρ : ℕ → ℕ) (i j : ℕ) : drop (take (take ρ i) j) i = take ρ j := by
  rw [take_comm, drop_take]

/-- Entry `i` has `ρ i` references; two entries in use are not of the same inode. -/
structure Held (ρ : ℕ → ℕ) (s : Disk) : Prop where
  ref : ∀ i, (s.inodes i).ref = ρ i
  lt : ∀ i, 0 < ρ i → i < NINODE
  dev : ∀ i, 0 < ρ i → (s.inodes i).dev = ROOTDEV
  uniq : ∀ i j, 0 < ρ i → 0 < ρ j → (s.inodes i).inum = (s.inodes j).inum → i = j

/-- An entry to which a reference is held stays what it is. -/
def Keep (ρ : ℕ → ℕ) (s t : Disk) : Prop :=
  ∀ i, 0 < ρ i → (t.inodes i).inum = (s.inodes i).inum ∧
    ((s.inodes i).valid = true → (t.inodes i).valid = true)

lemma Keep.refl (ρ : ℕ → ℕ) (s : Disk) : Keep ρ s s := fun _ _ => ⟨rfl, id⟩

lemma Keep.trans (h1 : Keep ρ s t) (h2 : Keep ρ t u) : Keep ρ s u := fun i hi =>
  ⟨(h2 i hi).1.trans (h1 i hi).1, fun hv => (h2 i hi).2 ((h1 i hi).2 hv)⟩

lemma Keep.mono {σ : ℕ → ℕ} (h : Keep σ s t) (hle : ∀ i, 0 < ρ i → 0 < σ i) : Keep ρ s t :=
  fun i hi => h i (hle i hi)

lemma Keep.of_take (h : Keep (take ρ j) s t) : Keep ρ s t := h.mono fun _ => take_pos

/-! ### Functions that leave the table alone -/

/-- What `Held` and `Keep` see of an entry of the table. -/
def tab (s : Disk) : ℕ → ℕ × ℕ × ℕ × Bool := fun i =>
  ((s.inodes i).dev, (s.inodes i).inum, (s.inodes i).ref, (s.inodes i).valid)

lemma tab_eq_iff : tab t = tab s ↔ ∀ i, (t.inodes i).dev = (s.inodes i).dev ∧
    (t.inodes i).inum = (s.inodes i).inum ∧ (t.inodes i).ref = (s.inodes i).ref ∧
    (t.inodes i).valid = (s.inodes i).valid := by
  simp only [tab, funext_iff, Prod.mk.injEq]

lemma Held.of_tab (h : Held ρ s) (ht : tab t = tab s) : Held ρ t := by
  rw [tab_eq_iff] at ht
  refine ⟨fun i => ?_, h.lt, fun i hi => ?_, fun i j hi hj he => h.uniq i j hi hj ?_⟩
  · rw [(ht i).2.2.1, h.ref i]
  · rw [(ht i).1, h.dev i hi]
  · rwa [(ht i).2.1, (ht j).2.1] at he

lemma Keep.of_tab (ht : tab t = tab s) : Keep ρ s t := by
  rw [tab_eq_iff] at ht
  exact fun i _ => ⟨(ht i).2.1, fun hv => by rw [(ht i).2.2.2, hv]⟩

lemma tab_setBlock (b : ℕ) (m : Mem) : Keeps tab (setBlock b m) := Keeps.modify fun _ => rfl

lemma tab_setCopy (i : ℕ) (f : Dinode → Dinode) : Keeps tab (setCopy i f) := by
  refine Keeps.modify fun s => tab_eq_iff.mpr fun j => ?_
  by_cases hj : j = i
  · subst hj
    simp only [Function.update_self, and_self]
  · simp only [Function.update_of_ne hj, and_self]

lemma tab_iupdate (i : ℕ) : Keeps tab (iupdate i) := Keeps.modify fun _ => rfl

lemma tab_balloc (sb : Superblock) : Keeps tab (balloc sb) := by
  intro s
  unfold balloc
  simp only [wp_bind, wp_get]
  cases (List.range sb.size).find? fun b => !s.bits b with
  | none => rfl
  | some b => rfl

lemma tab_bfree (b : ℕ) : Keeps tab (bfree b) := by
  intro s
  unfold bfree
  simp only [wp_bind, wp_get]
  split
  · trivial
  · rfl

lemma tab_truncDirect (i : ℕ) (ks : List ℕ) : Keeps tab (truncDirect i ks) := by
  induction ks with
  | nil => exact Keeps.pure ()
  | cons k ks ih =>
    unfold truncDirect
    refine Keeps.bind Keeps.get fun s => Keeps.ite ?_ ih
    exact Keeps.bind (tab_bfree _) fun _ => Keeps.bind (tab_setCopy _ _) fun _ => ih

lemma tab_truncIndirect (m : Mem) (js : List ℕ) : Keeps tab (truncIndirect m js) := by
  induction js with
  | nil => exact Keeps.pure ()
  | cons j js ih =>
    unfold truncIndirect
    exact Keeps.ite (Keeps.bind (tab_bfree _) fun _ => ih) ih

lemma tab_itrunc (i : ℕ) : Keeps tab (itrunc i) := by
  have hend : Keeps tab (do
      setCopy i fun d => { d with size := 0 }
      iupdate i) := Keeps.bind (tab_setCopy _ _) fun _ => tab_iupdate _
  unfold itrunc
  refine Keeps.bind (tab_truncDirect _ _) fun _ => Keeps.bind Keeps.get fun s => Keeps.ite ?_ hend
  refine Keeps.bind (tab_truncIndirect _ _) fun _ => Keeps.bind (tab_bfree _) fun _ => ?_
  exact Keeps.bind (tab_setCopy _ _) fun _ => hend

lemma tab_bmapAddr (i k : ℕ) : Keeps tab (bmapAddr sb i k) := by
  unfold bmapAddr
  refine Keeps.bind Keeps.get fun s => Keeps.ite ?_ (Keeps.pure _)
  refine Keeps.bind (tab_balloc sb) fun addr => Keeps.ite (Keeps.pure _) ?_
  exact Keeps.bind (tab_setCopy _ _) fun _ => Keeps.pure _

lemma tab_bmap (i bn : ℕ) : Keeps tab (bmap sb i bn) := by
  unfold bmap
  refine Keeps.ite (tab_bmapAddr i bn) (Keeps.ite ?_ (Keeps.throw _))
  refine Keeps.bind (tab_bmapAddr i _) fun ind => Keeps.ite (Keeps.pure _) ?_
  refine Keeps.bind Keeps.get fun s => Keeps.ite ?_ (Keeps.pure _)
  refine Keeps.bind (tab_balloc sb) fun addr => Keeps.ite (Keeps.pure _) ?_
  refine Keeps.bind Keeps.get fun s => Keeps.bind (tab_setBlock _ _) fun _ => Keeps.pure _

lemma tab_readi (i : ℕ) (ok : ℕ → ℕ → Bool) (off n : ℕ) : Keeps tab (readi sb i ok off n) := by
  have hloop : ∀ n fuel tot off acc, Keeps tab (readiLoop sb i ok n fuel tot off acc) := by
    intro n fuel
    induction fuel with
    | zero => exact fun _ _ _ => Keeps.throw _
    | succ fuel ih =>
      intro tot off acc
      unfold readiLoop
      refine Keeps.ite ?_ (Keeps.pure _)
      refine Keeps.bind (tab_bmap i _) fun addr => Keeps.ite (Keeps.pure _) ?_
      exact Keeps.bind Keeps.get fun s => Keeps.ite (ih _ _ _) (Keeps.pure _)
  unfold readi
  exact Keeps.bind Keeps.get fun s => Keeps.ite (Keeps.pure _) (hloop _ _ _ _ _)

lemma tab_writei (i : ℕ) (src : ℕ → Option Byte) (off n : ℕ) :
    Keeps tab (writei sb i src off n) := by
  have hloop : ∀ fuel tot off, Keeps tab (writeiLoop sb i src n fuel tot off) := by
    intro fuel
    induction fuel with
    | zero => exact fun _ _ => Keeps.throw _
    | succ fuel ih =>
      intro tot off
      unfold writeiLoop
      refine Keeps.ite ?_ (Keeps.pure _)
      refine Keeps.bind (tab_bmap i _) fun addr => Keeps.ite (Keeps.pure _) ?_
      refine Keeps.bind Keeps.get fun s => Keeps.bind (tab_setBlock _ _) fun _ => ?_
      exact Keeps.ite (ih _ _) (Keeps.pure _)
  unfold writei
  refine Keeps.bind Keeps.get fun s => Keeps.ite (Keeps.pure _) (Keeps.ite (Keeps.pure _) ?_)
  refine Keeps.bind (hloop _ _ _) fun r => Keeps.bind (tab_setCopy _ _) fun _ => ?_
  exact Keeps.bind (tab_iupdate _) fun _ => Keeps.pure _

lemma Held.calm {α : Type} {m : F α} (h : Held ρ s) (hm : Keeps tab m) :
    wp m (fun _ t => Held ρ t ∧ Keep ρ s t) (fun _ => True) s :=
  wp_post (hm s) fun _ _ ht => ⟨h.of_tab ht, Keep.of_tab ht⟩

/-! ### Functions that take and drop references -/

lemma Held.set {σ : ℕ → ℕ} (h : Held ρ s) (hne : ∀ j, j ≠ i → t.inodes j = s.inodes j)
    (hσ : ∀ j, j ≠ i → σ j = ρ j) (href : (t.inodes i).ref = σ i)
    (hi : 0 < σ i → i < NINODE ∧ (t.inodes i).dev = ROOTDEV ∧
      ∀ j, j ≠ i → 0 < ρ j → (s.inodes j).inum ≠ (t.inodes i).inum) : Held σ t := by
  refine ⟨fun j => ?_, fun j hj => ?_, fun j hj => ?_, fun j k hj hk he => ?_⟩
  · by_cases hji : j = i
    · rw [hji, href]
    · rw [hne j hji, hσ j hji, h.ref j]
  · by_cases hji : j = i
    · exact hji ▸ (hi (hji ▸ hj)).1
    · exact h.lt j (hσ j hji ▸ hj)
  · by_cases hji : j = i
    · exact hji ▸ (hi (hji ▸ hj)).2.1
    · rw [hne j hji, h.dev j (hσ j hji ▸ hj)]
  · by_cases hji : j = i
    · by_cases hki : k = i
      · rw [hji, hki]
      · rw [hji, hne k hki] at he
        exact absurd he.symm ((hi (hji ▸ hj)).2.2 k hki (hσ k hki ▸ hk))
    · by_cases hki : k = i
      · rw [hki, hne j hji] at he
        exact absurd he ((hi (hki ▸ hk)).2.2 j hji (hσ j hji ▸ hj))
      · rw [hne j hji, hne k hki] at he
        exact h.uniq j k (hσ j hji ▸ hj) (hσ k hki ▸ hk) he

lemma Keep.set (hne : ∀ j, j ≠ i → t.inodes j = s.inodes j)
    (hi : 0 < ρ i → (t.inodes i).inum = (s.inodes i).inum ∧
      ((s.inodes i).valid = true → (t.inodes i).valid = true)) : Keep ρ s t := by
  intro j hj
  by_cases hji : j = i
  · rw [hji] at hj ⊢
    exact hi hj
  · rw [hne j hji]
    exact ⟨rfl, id⟩

lemma Held.set_ref {σ : ℕ → ℕ} (h : Held ρ s) (hi : 0 < ρ i)
    (hne : ∀ j, j ≠ i → t.inodes j = s.inodes j) (hσ : ∀ j, j ≠ i → σ j = ρ j)
    (href : (t.inodes i).ref = σ i) (hdev : (t.inodes i).dev = (s.inodes i).dev)
    (hinum : (t.inodes i).inum = (s.inodes i).inum) : Held σ t := by
  refine h.set hne hσ href fun _ => ⟨h.lt i hi, hdev.trans (h.dev i hi), fun j hji hj he => ?_⟩
  exact hji (h.uniq j i hj hi (he.trans hinum))

lemma update_other {f : ℕ → Inode} {c : Inode} : ∀ j, j ≠ i → Function.update f i c j = f j :=
  fun _ hj => Function.update_of_ne hj _ _

lemma iget_held (h : Held ρ s) (inum : ℕ) :
    wp (iget ROOTDEV inum) (fun i t => Held (take ρ i) t ∧ Keep ρ s t ∧
      (t.inodes i).inum = inum) (fun _ => True) s := by
  unfold iget
  simp only [wp_bind, wp_get]
  cases hf : (List.range NINODE).find? fun i =>
      decide (0 < (s.inodes i).ref ∧ (s.inodes i).dev = ROOTDEV ∧ (s.inodes i).inum = inum) with
  | some i =>
    -- somebody has the inode already
    have hi := List.find?_some hf
    simp only [decide_eq_true_eq] at hi
    simp only [wp_bind, setInode, wp_modify, wp_pure]
    have hpos : 0 < ρ i := by rw [← h.ref i]; exact hi.1
    refine ⟨h.set_ref hpos update_other (fun _ => take_ne ρ) ?_ ?_ ?_,
      Keep.set update_other fun _ => ?_, ?_⟩
    · simp only [Function.update_self, take_self, h.ref i]
    · simp only [Function.update_self]
    · simp only [Function.update_self]
    · simp only [Function.update_self, imp_self, and_self]
    · simp only [Function.update_self, hi.2.2]
  | none =>
    cases hg : (List.range NINODE).find? fun i => decide ((s.inodes i).ref = 0) with
    | none => trivial
    | some i =>
      have hi := List.find?_some hg
      have hlt := List.mem_range.mp (List.mem_of_find?_eq_some hg)
      simp only [decide_eq_true_eq] at hi
      simp only [wp_bind, setInode, wp_modify, wp_pure]
      have hzero : ρ i = 0 := by rw [← h.ref i, hi]
      refine ⟨h.set update_other (fun _ => take_ne ρ) ?_ fun _ => ⟨hlt, ?_, fun j _ hj he => ?_⟩,
        Keep.set update_other fun hc => absurd hzero (Nat.pos_iff_ne_zero.mp hc), ?_⟩
      · simp only [Function.update_self, take_self, hzero]
      · simp only [Function.update_self]
      · -- the search for the inode has passed entry `j`
        have hnone := List.find?_eq_none.mp hf j (List.mem_range.mpr (h.lt j hj))
        rw [decide_eq_true_eq] at hnone
        simp only [Function.update_self] at he
        exact hnone ⟨by rw [h.ref j]; exact hj, h.dev j hj, he⟩
      · simp only [Function.update_self]

lemma idup_held (h : Held ρ s) (hi : 0 < ρ i) :
    wp (idup i) (fun j t => j = i ∧ Held (take ρ i) t ∧ Keep ρ s t ∧
      (t.inodes i).inum = (s.inodes i).inum) (fun _ => True) s := by
  unfold idup
  simp only [wp_bind, setInode, wp_modify, wp_pure]
  refine ⟨trivial, h.set_ref hi update_other (fun _ => take_ne ρ) ?_ ?_ ?_,
    Keep.set update_other fun _ => ?_, ?_⟩
  · simp only [Function.update_self, take_self, h.ref i]
  · simp only [Function.update_self]
  · simp only [Function.update_self]
  · simp only [Function.update_self, imp_self, and_self]
  · simp only [Function.update_self]

lemma ilock_held (h : Held ρ s) (i : ℕ) :
    wp (ilock i) (fun _ t => Held ρ t ∧ Keep ρ s t ∧ 0 < ρ i ∧ (t.inodes i).valid = true)
      (fun _ => True) s := by
  unfold ilock
  simp only [wp_bind, wp_get]
  by_cases hr : (s.inodes i).ref < 1
  · rw [if_pos hr]
    trivial
  rw [if_neg hr]
  have hi : 0 < ρ i := by rw [h.ref i] at hr; omega
  by_cases hv : (s.inodes i).valid = true
  · rw [if_pos hv]
    exact ⟨h, Keep.refl ρ s, hi, hv⟩
  · rw [if_neg hv]
    simp only [wp_bind, setInode, wp_modify]
    split
    · trivial
    · refine ⟨h.set_ref hi update_other (fun _ _ => rfl) ?_ ?_ ?_,
        Keep.set update_other fun _ => ?_, hi, ?_⟩
      · simp only [Function.update_self, h.ref i]
      · simp only [Function.update_self]
      · simp only [Function.update_self]
      · simp only [Function.update_self, implies_true, and_self]
      · simp only [Function.update_self]

lemma iunlock_held (h : Held ρ s) (i : ℕ) :
    wp (iunlock i) (fun _ t => t = s ∧ 0 < ρ i) (fun _ => True) s := by
  unfold iunlock
  simp only [wp_bind, wp_get]
  split
  · trivial
  · rename_i hr
    rw [h.ref i] at hr
    exact ⟨rfl, by omega⟩

lemma iput_held (h : Held ρ s) (hi : 0 < ρ i) :
    wp (iput i) (fun _ t => Held (drop ρ i) t ∧ Keep (drop ρ i) s t) (fun _ => True) s := by
  -- the count goes down by one, whatever has become of the copy
  have hlast : ∀ u, Held ρ u → Keep (drop ρ i) s u →
      wp (setInode i fun ip => { ip with ref := ip.ref - 1 })
        (fun _ t => Held (drop ρ i) t ∧ Keep (drop ρ i) s t) (fun _ => True) u := by
    intro u hu hk
    simp only [setInode, wp_modify]
    refine ⟨hu.set_ref hi update_other (fun _ => drop_ne ρ) ?_ ?_ ?_,
      hk.trans (Keep.set update_other fun _ => ?_)⟩
    · simp only [Function.update_self, drop_self, hu.ref i]
    · simp only [Function.update_self]
    · simp only [Function.update_self]
    · simp only [Function.update_self, imp_self, and_self]
  unfold iput
  simp only [wp_bind, wp_get]
  split
  · rename_i hlink
    have hone : ρ i = 1 := by rw [← h.ref i]; exact hlink.1
    rw [wp_bind]
    refine wp_post (h.calm (tab_itrunc i)) ?_
    rintro _ t1 ⟨h1, k1⟩
    rw [wp_bind]
    refine wp_post (h1.calm (tab_setCopy i _)) ?_
    rintro _ t2 ⟨h2, k2⟩
    rw [wp_bind]
    refine wp_post (h2.calm (tab_iupdate i)) ?_
    rintro _ t3 ⟨h3, k3⟩
    have hkeep : Keep (drop ρ i) s t3 :=
      ((k1.trans k2).trans k3).mono fun _ => drop_pos
    rw [wp_bind, setInode, wp_modify]
    refine hlast _ ?_ (hkeep.trans ?_)
    · refine h3.set_ref hi update_other (fun _ _ => rfl) ?_ ?_ ?_
      · simp only [Function.update_self, h3.ref i]
      · simp only [Function.update_self]
      · simp only [Function.update_self]
    · refine Keep.set update_other fun hc => ?_
      rw [drop_self, hone] at hc
      exact absurd hc (Nat.lt_irrefl _)
  · exact hlast s h (Keep.refl _ s)

lemma iunlockput_held (h : Held ρ s) (hi : 0 < ρ i) :
    wp (iunlockput i) (fun _ t => Held (drop ρ i) t ∧ Keep (drop ρ i) s t) (fun _ => True) s := by
  unfold iunlockput
  rw [wp_bind]
  refine wp_post (iunlock_held h i) ?_
  rintro _ t ⟨rfl, -⟩
  exact iput_held h hi

lemma ialloc_held (h : Held ρ s) (type : Ftype) :
    wp (ialloc sb ROOTDEV type) (fun r t => Keep ρ s t ∧
      match r with
      | some i => Held (take ρ i) t
      | none => Held ρ t) (fun _ => True) s := by
  unfold ialloc
  simp only [wp_bind, wp_get]
  split
  · rename_i inum _
    simp only [wp_bind, wp_set]
    have ht : ∀ D, Held ρ { s with dinodes := D } := fun D => h.of_tab rfl
    refine wp_post (iget_held (ht _) inum) ?_
    rintro i t ⟨h1, k1, _⟩
    refine ⟨?_, h1⟩
    exact k1
  · exact ⟨Keep.refl ρ s, h⟩

end Xv6.Fs
