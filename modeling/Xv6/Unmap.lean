import Xv6.Walk

/-!
Removing mappings (`uvmunmap`) and the references that leaf entries hold.

A valid leaf entry below the trapframe counts as one reference to the page it maps. `uvmunmap`
clears a range of entries; with `do_free` it drops exactly the references those entries held.
-/

namespace Xv6.Unmap

open Xv6.ByteMem Xv6.Riscv Xv6.Kalloc Xv6.Vm Xv6.Wp Xv6.PageTable Xv6.Walk

/-- The virtual page of the trapframe: user memory lies below it. -/
@[irreducible] def TFV : ℕ := TRAPFRAME / PGSIZE
/-- The virtual page of the trampoline. -/
@[irreducible] def TRV : ℕ := TRAMPOLINE / PGSIZE

lemma tfv_eq : TFV = 2 ^ 26 - 2 := by unfold TFV TRAPFRAME TRAMPOLINE MAXVA PGSIZE; norm_num
lemma trv_eq : TRV = 2 ^ 26 - 1 := by unfold TRV TRAMPOLINE MAXVA PGSIZE; norm_num

/-- The entry is valid and maps page `p`. -/
def Maps (e : Word) (p : ℕ) : Prop := has e PTE_V = true ∧ PTE2PA e = p

instance (e : Word) (p : ℕ) : Decidable (Maps e p) := inferInstanceAs (Decidable (_ ∧ _))

/-- The references to each page from the leaf entries `f` of user memory. -/
noncomputable def leaves (f : ℕ → Word) : ℕ → ℕ := fun p => {v | v < TFV ∧ Maps (f v) p}.ncard

variable {L : Layout} {root : ℕ} {A : PTab} {s s' : KState} {R : ℕ → ℕ} {E : Panic → Prop}
  {f : ℕ → Word} {v : ℕ} {e : Word} {p : ℕ}

lemma leaves_finite (f : ℕ → Word) (p : ℕ) : {v | v < TFV ∧ Maps (f v) p}.Finite :=
  (Set.finite_lt_nat TFV).subset fun _ h => h.1

lemma leaves_update (hv : v < TFV) (e : Word) (p : ℕ) :
    leaves (Function.update f v e) p + (if Maps (f v) p then 1 else 0) =
      leaves f p + (if Maps e p then 1 else 0) := by
  -- the entries other than `v`, which the update leaves alone
  have key : ∀ g : ℕ → Word, leaves g p =
      {w | w < TFV ∧ w ≠ v ∧ Maps (g w) p}.ncard + (if Maps (g v) p then 1 else 0) := by
    intro g
    have hfin : {w | w < TFV ∧ w ≠ v ∧ Maps (g w) p}.Finite :=
      (leaves_finite g p).subset fun _ h => ⟨h.1, h.2.2⟩
    unfold leaves
    split_ifs with h
    · rw [← Set.ncard_insert_of_notMem (a := v) (by simp) hfin]
      congr 1
      ext w
      by_cases hw : w = v
      · subst hw; simp [hv, h]
      · simp [hw]
    · rw [add_zero]
      congr 1
      ext w
      by_cases hw : w = v
      · subst hw; simp [h]
      · simp [hw]
  have hsame : {w | w < TFV ∧ w ≠ v ∧ Maps (Function.update f v e w) p} =
      {w | w < TFV ∧ w ≠ v ∧ Maps (f w) p} := by
    ext w
    refine and_congr_right fun _ => and_congr_right fun hw => ?_
    rw [Function.update_of_ne hw]
  rw [key f, key (Function.update f v e), hsame, Function.update_self]
  omega

lemma leaves_update_high (hv : TFV ≤ v) (e : Word) : leaves (Function.update f v e) = leaves f := by
  funext p
  unfold leaves
  congr 1
  ext w
  refine and_congr_right fun hw => ?_
  rw [Function.update_of_ne (by omega)]

lemma leaves_ne_zero : leaves f p ≠ 0 ↔ ∃ v < TFV, Maps (f v) p := by
  unfold leaves
  rw [Ne, Set.ncard_eq_zero (leaves_finite f p), ← Ne, ← Set.nonempty_iff_ne_empty]
  rfl

lemma leaves_pos (hv : v < TFV) (h : has (f v) PTE_V = true) : leaves f (PTE2PA (f v)) ≠ 0 :=
  leaves_ne_zero.mpr ⟨v, hv, h, rfl⟩

lemma not_maps_zero : ¬ Maps 0 p := fun h => by
  have := h.1
  rw [has_zero] at this
  cases this

lemma leaves_clear (hv : v < TFV) (h : has (f v) PTE_V = true) :
    leaves f = leaves (Function.update f v 0) + ref (PTE2PA (f v)) := by
  funext p
  have := leaves_update (f := f) hv 0 p
  simp only [not_maps_zero, if_false] at this
  rw [Pi.add_apply]
  by_cases hp : p = PTE2PA (f v)
  · subst hp; rw [if_pos ⟨h, rfl⟩] at this; rw [ref_self]; omega
  · rw [if_neg fun hm => hp hm.2.symm] at this; rw [ref_ne hp]; omega

lemma leaves_set (hv : v < TFV) (h : has (f v) PTE_V = false) (he : Maps e p) :
    leaves (Function.update f v e) = leaves f + ref p := by
  funext q
  have := leaves_update (f := f) hv e q
  rw [if_neg fun hm => by rw [hm.1] at h; cases h] at this
  rw [Pi.add_apply]
  by_cases hq : q = p
  · subst hq; rw [if_pos he] at this; rw [ref_self]; omega
  · rw [if_neg fun hm => hq (hm.2.symm.trans he.2)] at this; rw [ref_ne hq]; omega

/-! ### `uvmunmap` -/

/-- The entries from page `lo` up to `hi` are cleared. -/
def clearRange (f : ℕ → Word) (lo hi : ℕ) : ℕ → Word := fun v => if lo ≤ v ∧ v < hi then 0 else f v

lemma clearRange_step (f : ℕ → Word) {lo hi : ℕ} (h : lo < hi) :
    clearRange (Function.update f lo 0) (lo + 1) hi = clearRange f lo hi := by
  funext v
  unfold clearRange
  by_cases hv : v = lo
  · subst hv; rw [if_neg (by omega), if_pos (by omega), Function.update_self]
  · rw [Function.update_of_ne hv]
    by_cases h1 : lo + 1 ≤ v ∧ v < hi
    · rw [if_pos h1, if_pos (by omega)]
    · rw [if_neg h1, if_neg (by omega)]

lemma clearRange_empty (f : ℕ → Word) {lo hi : ℕ} (h : hi ≤ lo) : clearRange f lo hi = f := by
  funext v; exact if_neg (by omega)

/-- An entry `uvmunmap` accepts. -/
def IsLeaf (e : Word) : Prop := has e PTE_V = true ∧ PTE_FLAGS e ≠ PTE_V

/-- How clearing entry `v` of `f` changes the references `acc` counts: with `do_free` one to
the mapped page goes, without it nothing changes. -/
def Drops (do_free : Bool) (acc : (ℕ → Word) → ℕ → ℕ) (f : ℕ → Word) (v : ℕ) : Prop :=
  if do_free then acc f = acc (Function.update f v 0) + ref (PTE2PA (f v))
  else acc f = acc (Function.update f v 0)

/-- One iteration: the entry of an existing leaf is cleared. -/
lemma uvmunmapPage_spec {do_free : Bool} {acc : (ℕ → Word) → ℕ → ℕ} {a : ℕ}
    (h : Owns L s root A (R + acc A.leaf)) (ha : a < MAXVA) (hl : IsLeaf (A.leaf (a / PGSIZE)))
    (hd : Drops do_free acc A.leaf (a / PGSIZE)) :
    wp (uvmunmapPage root a do_free) (fun _ s' =>
      Owns L s' root (setLeaf A (a / PGSIZE) 0) (R + acc (setLeaf A (a / PGSIZE) 0).leaf) ∧
        Keeps (R + acc (setLeaf A (a / PGSIZE) 0).leaf) s s') E s := by
  have hne0 : A.leaf (a / PGSIZE) ≠ 0 := fun h0 => by
    have := hl.1
    rw [h0, has_zero] at this
    cases this
  have hne := pteAddr_ne_zero h.wf hne0
  unfold uvmunmapPage
  simp only [wp_bind, wp_ite, wp_throw, wp_ld, wp_of_run (walk_read h.wf h.rep ha)]
  rw [if_neg hne, ld_pteAddr h.rep hne, hl.1, if_neg (by simp), if_neg hl.2]
  set g := Function.update A.leaf (a / PGSIZE) 0 with hg
  -- after the page is dropped the entry still stands
  have hcont : ∀ s1, Owns L s1 root A (R + acc g) → Keeps (R + acc g) s s1 →
      wp (st (pteAddr A a) 0) (fun _ s' => Owns L s' root (setLeaf A (a / PGSIZE) 0)
        (R + acc g) ∧ Keeps (R + acc g) s s') E s1 := by
    intro s1 h1 hk1
    obtain ⟨h2, hk2⟩ := h1.st_leaf hne 0
    exact ⟨h2, hk1.trans hk2 fun _ => id⟩
  cases do_free with
  | false =>
      have hd' : acc A.leaf = acc g := hd
      rw [hd'] at h
      exact hcont s h Keeps.refl
  | true =>
      have hd' : acc A.leaf = acc g + ref (PTE2PA (A.leaf (a / PGSIZE))) := hd
      have hacct := h.acct
      rw [hd'] at hacct
      simp only [if_true]
      refine wp_post (kfree_spec (U := R + acc g + tabs A)
        (hacct.congr fun p => by simp only [Pi.add_apply]; omega)) ?_
      rintro _ s1 ⟨h1, h2, -⟩
      have hexcl : ∀ p, IsTab A p → (R + acc g) p = 0 := by
        intro p hp
        have := h.excl p hp
        rw [hd'] at this
        simp only [Pi.add_apply] at this ⊢
        omega
      refine hcont s1 ⟨h.wf, h.rep.keeps h.wf h2 fun p hp => ?_, h1, hexcl⟩
        (h2.mono fun p hp => by simp only [Pi.add_apply] at hp ⊢; omega)
      have := isTab_iff.mpr hp
      simp only [Pi.add_apply]; omega

/-- What clearing the pages from `lo` to `hi` leaves. -/
structure Cleared (L : Layout) (root : ℕ) (R : ℕ → ℕ) (acc : (ℕ → Word) → ℕ → ℕ) (A : PTab)
    (lo hi : ℕ) (s s' : KState) : Prop where
  owns : Owns L s' root { A with leaf := clearRange A.leaf lo hi }
    (R + acc (clearRange A.leaf lo hi))
  keeps : Keeps (R + acc (clearRange A.leaf lo hi)) s s'

lemma uvmunmapLoop_spec (do_free : Bool) (acc : (ℕ → Word) → ℕ → ℕ) {bound : ℕ}
    (hmono : ∀ f lo hi p, acc (clearRange f lo hi) p ≤ acc f p) (hb : bound ≤ MAXVA)
    (hbal : bound % PGSIZE = 0) (n : ℕ) : ∀ {a : ℕ} {A : PTab} {s : KState},
    a % PGSIZE = 0 → bound < a + n * PGSIZE → 0 < n →
    Owns L s root A (R + acc A.leaf) →
    (∀ v, a / PGSIZE ≤ v → v < bound / PGSIZE → IsLeaf (A.leaf v)) →
    (∀ v, a / PGSIZE ≤ v → v < bound / PGSIZE → ∀ g : ℕ → Word, g v = A.leaf v →
      Drops do_free acc g v) →
    wp (uvmunmapLoop root bound do_free n a)
      (fun _ s' => Cleared L root R acc A (a / PGSIZE) (bound / PGSIZE) s s') E s := by
  induction n with
  | zero => intro a A s _ _ hpos; omega
  | succ n ih =>
      intro a A s hal hn _ h hleaf hdrop
      unfold uvmunmapLoop
      by_cases hlt : a < bound
      · have hv : a / PGSIZE < bound / PGSIZE := by unfold PGSIZE at *; omega
        have hnext : u64 (a + PGSIZE) = a + PGSIZE := by
          unfold u64 MAXVA PGSIZE at *; omega
        have hdiv : (a + PGSIZE) / PGSIZE = a / PGSIZE + 1 := by unfold PGSIZE; omega
        rw [if_pos hlt, hnext]
        simp only [wp_bind]
        refine wp_post (uvmunmapPage_spec h (by omega) (hleaf _ le_rfl hv)
          (hdrop _ le_rfl hv _ rfl)) ?_
        rintro _ s1 ⟨h1, hk1⟩
        have hsame : ∀ v, a / PGSIZE + 1 ≤ v → (setLeaf A (a / PGSIZE) 0).leaf v = A.leaf v :=
          fun v hv => Function.update_of_ne (by omega) _ _
        refine wp_post (ih (by unfold PGSIZE at *; omega) (by unfold PGSIZE at *; omega)
          (by unfold PGSIZE at *; omega) h1 ?_ ?_) ?_
        · intro v h2 h3
          rw [hdiv] at h2
          rw [hsame v h2]
          exact hleaf v (by omega) h3
        · intro v h2 h3 g hg
          rw [hdiv] at h2
          rw [hsame v h2] at hg
          exact hdrop v (by omega) h3 g hg
        · rintro _ s2 ⟨h2, hk2⟩
          have hcl : clearRange (setLeaf A (a / PGSIZE) 0).leaf ((a + PGSIZE) / PGSIZE)
              (bound / PGSIZE) = clearRange A.leaf (a / PGSIZE) (bound / PGSIZE) := by
            rw [hdiv]; exact clearRange_step A.leaf hv
          have hle := hmono (setLeaf A (a / PGSIZE) 0).leaf ((a + PGSIZE) / PGSIZE)
            (bound / PGSIZE)
          rw [hcl] at h2 hk2 hle
          refine ⟨h2, (hk1.mono fun p hp => ?_).trans hk2 fun _ => id⟩
          have := hle p
          simp only [Pi.add_apply] at hp ⊢
          omega
      · rw [if_neg hlt, wp_pure]
        have he : bound / PGSIZE ≤ a / PGSIZE := Nat.div_le_div_right (by omega)
        refine ⟨?_, Keeps.refl⟩
        rw [clearRange_empty _ he]; exact h

lemma leaves_clearRange_le (f : ℕ → Word) (lo hi p : ℕ) :
    leaves (clearRange f lo hi) p ≤ leaves f p := by
  refine Set.ncard_le_ncard ?_ (leaves_finite f p)
  rintro v ⟨hv, hm⟩
  refine ⟨hv, ?_⟩
  unfold clearRange at hm
  split_ifs at hm with hc
  · exact absurd hm not_maps_zero
  · exact hm

/-- **`uvmunmap` with `do_free`** on mapped pages of user memory: their entries are cleared and
their references dropped. -/
lemma uvmunmap_free {va npages : ℕ} (hal : va % PGSIZE = 0)
    (hb : va + npages * PGSIZE ≤ TRAPFRAME) (h : Owns L s root A (R + leaves A.leaf))
    (hleaf : ∀ v, va / PGSIZE ≤ v → v < va / PGSIZE + npages → IsLeaf (A.leaf v)) :
    wp (uvmunmap root va npages true) (fun _ s' =>
      Cleared L root R leaves A (va / PGSIZE) (va / PGSIZE + npages) s s') E s := by
  have hT : TRAPFRAME = 2 ^ 38 - 8192 := by unfold TRAPFRAME TRAMPOLINE MAXVA PGSIZE; norm_num
  have hbound : u64 (va + u64 (npages * PGSIZE)) = va + npages * PGSIZE := by
    unfold u64 PGSIZE at *; omega
  have hdiv : (va + npages * PGSIZE) / PGSIZE = va / PGSIZE + npages := by
    unfold PGSIZE; omega
  unfold uvmunmap
  rw [if_neg (by simpa using hal)]
  simp only [hbound]
  rw [← hdiv] at hleaf ⊢
  refine uvmunmapLoop_spec true leaves leaves_clearRange_le (by unfold MAXVA; omega)
    (by unfold PGSIZE at *; omega) _ hal (by unfold PGSIZE; omega) (Nat.succ_pos _) h hleaf ?_
  intro v h1 h2 g hg
  have hv : v < TFV := by
    rw [tfv_eq]; unfold PGSIZE at *; omega
  have hval := (hleaf v h1 h2).1
  rw [← hg] at hval
  exact leaves_clear hv hval

/-- **`uvmunmap` without `do_free`** on one mapped page. -/
lemma uvmunmap_keep {va : ℕ} (hal : va % PGSIZE = 0) (hb : va < MAXVA) (h : Owns L s root A R)
    (hleaf : IsLeaf (A.leaf (va / PGSIZE))) :
    wp (uvmunmap root va 1 false) (fun _ s' =>
      Owns L s' root (setLeaf A (va / PGSIZE) 0) R ∧ Keeps R s s') E s := by
  have hbound : u64 (va + u64 (1 * PGSIZE)) = va + PGSIZE := by
    unfold u64 MAXVA PGSIZE at *; omega
  have hdiv : (va + PGSIZE) / PGSIZE = va / PGSIZE + 1 := by unfold PGSIZE; omega
  unfold uvmunmap
  rw [if_neg (by simpa using hal)]
  simp only [hbound]
  have h0 : Owns L s root A (R + (fun _ => 0 : (ℕ → Word) → ℕ → ℕ) A.leaf) := by
    rw [add_zero]; exact h
  refine wp_post (uvmunmapLoop_spec false (fun _ => 0) (fun _ _ _ _ => le_rfl)
    (by unfold MAXVA PGSIZE at *; omega) (by unfold PGSIZE at *; omega) _
    hal (by unfold PGSIZE; omega) (Nat.succ_pos _) h0 ?_ ?_) ?_
  · intro v h1 h2
    rw [hdiv] at h2
    rw [show v = va / PGSIZE by omega]; exact hleaf
  · intro v _ _ g _; rfl
  · rintro _ s' ⟨h1, h2⟩
    have hcl : clearRange A.leaf (va / PGSIZE) ((va + PGSIZE) / PGSIZE) =
        Function.update A.leaf (va / PGSIZE) 0 := by
      rw [hdiv, ← clearRange_step _ (Nat.lt_succ_self _), clearRange_empty _ le_rfl]
    rw [hcl, add_zero] at h1
    rw [add_zero] at h2
    exact ⟨h1, h2⟩

end Xv6.Unmap
