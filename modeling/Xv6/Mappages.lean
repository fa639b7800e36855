import Xv6.StoreFault

/-!
`mappages` and `uvmunmap` over ranges of pages: they edit the entries of the named pages and leave
every other page as it is.
-/

namespace Xv6.Mappages

open Xv6.ByteMem Xv6.Riscv Xv6.Kalloc Xv6.Vm Xv6.Wp Xv6.PageTable Xv6.Walk Xv6.Unmap
open Xv6.AddrSpace Xv6.Create Xv6.Cow Xv6.Reach Xv6.StoreFault

/-- The entry that `walk` without allocation finds for page `v`, `0` when there is none. -/
def entryOf (root v : ℕ) (s : KState) : Word :=
  match walk root (v * PGSIZE) false s with
  | .ok (pte, s') => if pte = 0 then 0 else ld64 s'.mem pte
  | .error _ => 0

/-- What `walkaddr` says of an address. -/
def translate (root va : ℕ) (s : KState) : ℕ :=
  match walkaddr root va s with
  | .ok (pa, _) => pa
  | .error _ => 0

/-- The first page of a range, and how many pages it touches. -/
def firstPage (va : ℕ) : ℕ := va / PGSIZE

def pageCount (va size : ℕ) : ℕ := (va + size - 1) / PGSIZE - va / PGSIZE + 1

/-- The entries `f` with `k` pages from `v` on mapped to the pages from `pa` on. -/
def mapRange (f : ℕ → Word) (v pa : ℕ) (perm : Word) (k : ℕ) : ℕ → Word := fun w =>
  if v ≤ w ∧ w < v + k then PA2PTE (pa + (w - v) * PGSIZE) ||| perm ||| PTE_V else f w

variable {L : Layout} {root : ℕ} {A A' : PTab} {s s' : KState} {R : ℕ → ℕ} {E : Panic → Prop}
  {f : ℕ → Word} {v va size pa k n : ℕ} {perm : Word}

/-! ### Looking up -/

lemma entryOf_eq (h : Owns L s root A R) (hv : v * PGSIZE < MAXVA) :
    entryOf root v s = A.leaf v := by
  have hdiv : v * PGSIZE / PGSIZE = v := Nat.mul_div_cancel _ (by unfold PGSIZE; omega)
  unfold entryOf
  rw [walk_read h.wf h.rep hv]
  dsimp only
  by_cases h0 : pteAddr A (v * PGSIZE) = 0
  · rw [if_pos h0]
    by_contra hne
    rw [← hdiv] at hne
    exact pteAddr_ne_zero h.wf (Ne.symm hne) h0
  · rw [if_neg h0, ld_pteAddr h.rep h0, hdiv]

lemma translate_eq (h : Owns L s root A R) (va : ℕ) :
    translate root va s = userPa A.leaf va := by
  unfold translate
  rw [walkaddr_read h.wf h.rep]

/-! ### `mappages` -/

lemma mapRange_zero : mapRange f v pa perm 0 = f := by
  funext w
  exact if_neg (by omega)

lemma mapRange_succ : Function.update (mapRange f v pa perm k) (v + k)
    (PA2PTE (pa + k * PGSIZE) ||| perm ||| PTE_V) = mapRange f v pa perm (k + 1) := by
  funext w
  unfold mapRange
  by_cases hw : w = v + k
  · subst hw
    rw [Function.update_self, if_pos (by omega), Nat.add_sub_cancel_left]
  · rw [Function.update_of_ne hw]
    exact if_congr (by omega) rfl rfl

/-- The loop of `mappages`, when the pages before `v + k` are mapped and `n` are left. -/
lemma mappagesLoop_spec {total : ℕ} (hva : (v + total) * PGSIZE ≤ MAXVA) (hpa : pa < 2 ^ 55)
    (hun : ∀ w, v ≤ w → w < v + total → has (f w) PTE_V = false) (n : ℕ) :
    ∀ {k : ℕ} {A : PTab} {s : KState}, k + n = total → 0 < n → Owns L s root A R →
    A.leaf = mapRange f v pa perm k →
    wp (mappagesLoop root ((v + total - 1) * PGSIZE) perm n ((v + k) * PGSIZE)
        (pa + k * PGSIZE)) (fun r s' => ∃ A' j, Owns L s' root A' R ∧
      A'.leaf = mapRange f v pa perm j ∧ (r = 0 ∧ j = total ∨ r = -1 ∧ j < total)) E s := by
  induction n with
  | zero => intro k A s _ h0; omega
  | succ n ih =>
    intro k A s hk _ h hleaf
    have hmul : (v + k + 1) * PGSIZE ≤ (v + total) * PGSIZE :=
      Nat.mul_le_mul_right _ (by omega)
    have hkm : k * PGSIZE ≤ (v + k) * PGSIZE := Nat.mul_le_mul_right _ (by omega)
    have hsucc : (v + k + 1) * PGSIZE = (v + k) * PGSIZE + PGSIZE := Nat.succ_mul _ _
    have hlt : (v + k) * PGSIZE < MAXVA := by unfold PGSIZE at *; omega
    have hdiv : (v + k) * PGSIZE / PGSIZE = v + k := Nat.mul_div_cancel _ (by unfold PGSIZE; omega)
    unfold mappagesLoop
    rw [wp_bind]
    refine wp_post (walk_alloc h hlt) ?_
    rintro r s1 ⟨A1, hg, ⟨rfl, -⟩ | ⟨rfl, hne⟩⟩
    · rw [if_pos rfl, wp_pure]
      exact ⟨A1, k, hg.owns, hg.leaf.trans hleaf, Or.inr ⟨rfl, by omega⟩⟩
    · have hold : A1.leaf (v + k) = f (v + k) := by
        rw [hg.leaf, hleaf]
        exact if_neg (by omega)
      rw [if_neg hne, wp_bind, wp_ld, ld_pteAddr hg.owns.rep hne, hdiv, hold,
        hun _ (by omega) (by omega), if_neg (by simp), wp_bind, wp_st]
      have h1 := (hg.owns.st_leaf hne (PA2PTE (pa + k * PGSIZE) ||| perm ||| PTE_V)).1
      rw [hdiv] at h1
      have hleaf1 : (setLeaf A1 (v + k) (PA2PTE (pa + k * PGSIZE) ||| perm ||| PTE_V)).leaf =
          mapRange f v pa perm (k + 1) := by
        rw [← mapRange_succ, ← hleaf, ← hg.leaf]
        rfl
      by_cases hlast : n = 0
      · have heq : (v + k) * PGSIZE = (v + total - 1) * PGSIZE := by
          congr 1
          omega
        rw [if_pos heq, wp_pure]
        exact ⟨_, k + 1, h1, hleaf1, Or.inl ⟨rfl, by omega⟩⟩
      · have hnext : u64 ((v + k) * PGSIZE + PGSIZE) = (v + (k + 1)) * PGSIZE := by
          rw [← Nat.add_assoc, hsucc]
          unfold u64 MAXVA at *
          omega
        have hpnext : u64 (pa + k * PGSIZE + PGSIZE) = pa + (k + 1) * PGSIZE := by
          rw [Nat.succ_mul]
          unfold u64 MAXVA PGSIZE at *
          omega
        have hne' : (v + k) * PGSIZE ≠ (v + total - 1) * PGSIZE := fun hc => by
          have := Nat.eq_of_mul_eq_mul_right (by unfold PGSIZE; omega) hc
          omega
        rw [if_neg hne', hnext, hpnext]
        exact ih (by omega) (by omega) h1 hleaf1

lemma range_pages (hsize : 1 ≤ size) (hva : va + size ≤ MAXVA) :
    PGROUNDDOWN va = firstPage va * PGSIZE ∧
    PGROUNDDOWN (u64 (va + size - 1)) = (firstPage va + pageCount va size - 1) * PGSIZE ∧
    sub64 (PGROUNDDOWN (u64 (va + size - 1))) (PGROUNDDOWN va) / PGSIZE + 1 =
      pageCount va size ∧
    (firstPage va + pageCount va size) * PGSIZE ≤ MAXVA := by
  have hle : va / PGSIZE ≤ (va + size - 1) / PGSIZE := Nat.div_le_div_right (by omega)
  have hu : u64 (va + size - 1) = va + size - 1 := by unfold u64 MAXVA at *; omega
  unfold firstPage pageCount PGROUNDDOWN
  rw [hu]
  refine ⟨rfl, ?_, ?_, ?_⟩
  · congr 1
    generalize (va + size - 1) / PGSIZE = b at hle ⊢
    generalize va / PGSIZE = a at hle ⊢
    omega
  · unfold sub64 u64 MAXVA PGSIZE at *
    omega
  · unfold MAXVA PGSIZE at *
    omega

/-- **`mappages`** maps the range, or a part of it from the first page on. -/
lemma mappages_range (h : Owns L s root A R) (hsize : 1 ≤ size) (hva : va + size ≤ MAXVA)
    (hpa : pa < 2 ^ 55) (hun : ∀ w, firstPage va ≤ w → w < firstPage va + pageCount va size →
      has (A.leaf w) PTE_V = false) :
    wp (mappages root va size pa perm) (fun r s' => ∃ A' k, Owns L s' root A' R ∧
      A'.leaf = mapRange A.leaf (firstPage va) pa perm k ∧
      (r = 0 ∧ k = pageCount va size ∨ r = -1 ∧ k < pageCount va size)) E s := by
  obtain ⟨h1, h2, h3, h4⟩ := range_pages hsize hva
  have hloop := @mappagesLoop_spec L root R E A.leaf (firstPage va) pa perm _ h4 hpa hun
    (pageCount va size) 0 A s (Nat.zero_add _) (Nat.succ_pos _) h mapRange_zero.symm
  unfold mappages
  rw [if_neg (by omega)]
  dsimp only
  rw [h3, h2, h1]
  rw [Nat.add_zero, Nat.zero_mul, Nat.add_zero] at hloop
  exact hloop

/-! ### `uvmunmap` -/

lemma isLeaf_entry (hpa : pa < 2 ^ 64) (hperm : IsFlags perm)
    (hrwx : has perm (PTE_R ||| PTE_W ||| PTE_X) = true) :
    IsLeaf (PA2PTE pa ||| perm ||| PTE_V) := by
  have hfl : IsFlags (perm ||| PTE_V) := isFlags_or hperm isFlags_V
  rw [BitVec.or_assoc]
  refine ⟨?_, ?_⟩
  · rw [has_V, getLsbD_mk hpa (by omega), BitVec.getLsbD_or]
    simp [PTE_V]
  · rw [flags_mk hpa hfl]
    intro hc
    have hbit : ∀ k, 0 < k → k < 64 → perm.getLsbD k = false := by
      intro k h0 hk
      have := congrArg (fun x : Word => x.getLsbD k) hc
      simp only [BitVec.getLsbD_or, PTE_V] at this
      simpa [show ¬ k = 0 by omega] using this
    rw [has_or, has_or, has_R, has_W, has_X, hbit 1 (by omega) (by omega),
      hbit 2 (by omega) (by omega), hbit 3 (by omega) (by omega)] at hrwx
    cases hrwx

/-- **`uvmunmap` without `do_free`** clears the entries of mapped pages. -/
lemma uvmunmap_range (h : Owns L s root A R) (hb : (v + k) * PGSIZE ≤ MAXVA)
    (hleaf : ∀ w, v ≤ w → w < v + k → IsLeaf (A.leaf w)) :
    wp (uvmunmap root (v * PGSIZE) k false) (fun _ s' =>
      Owns L s' root { A with leaf := clearRange A.leaf v (v + k) } R) E s := by
  have hsum : (v + k) * PGSIZE = v * PGSIZE + k * PGSIZE := Nat.add_mul _ _ _
  have hbound : u64 (v * PGSIZE + u64 (k * PGSIZE)) = (v + k) * PGSIZE := by
    rw [hsum] at hb ⊢
    unfold u64 MAXVA at *
    omega
  have hdiv : v * PGSIZE / PGSIZE = v := Nat.mul_div_cancel _ (by unfold PGSIZE; omega)
  have hdiv' : (v + k) * PGSIZE / PGSIZE = v + k := Nat.mul_div_cancel _ (by unfold PGSIZE; omega)
  have h0 : Owns L s root A (R + (fun _ => 0 : (ℕ → Word) → ℕ → ℕ) A.leaf) := by
    rw [add_zero]; exact h
  unfold uvmunmap
  rw [if_neg (by simp)]
  simp only [hbound]
  refine wp_post (uvmunmapLoop_spec false (fun _ => 0) (fun _ _ _ _ => le_rfl) hb
    (Nat.mul_mod_left _ _) _ (Nat.mul_mod_left _ _) ?_ (Nat.succ_pos _) h0 ?_ ?_) ?_
  · rw [hdiv', Nat.add_mul]
    unfold PGSIZE
    omega
  · intro w h1 h2
    rw [hdiv] at h1
    rw [hdiv'] at h2
    exact hleaf w h1 h2
  · intro w _ _ g _; rfl
  · rintro _ s' ⟨h1, -⟩
    rw [hdiv, hdiv', add_zero] at h1
    exact h1

/-! ### Both -/

/-- What `mappages` returning `r` has done: the first `k` pages of the range are mapped, all of
them when `r` is `0`, and every other page looks up as before. -/
structure Mapped (root va size pa : ℕ) (perm : Word) (s : KState) (r : ℤ) (k : ℕ) (s' : KState) :
    Prop where
  ret : r = 0 ∧ k = pageCount va size ∨ r = -1 ∧ k < pageCount va size
  pages : ∀ i < k, entryOf root (firstPage va + i) s' = PA2PTE (pa + i * PGSIZE) ||| perm ||| PTE_V
  others : ∀ v, v * PGSIZE < MAXVA → ¬ (firstPage va ≤ v ∧ v < firstPage va + k) →
    entryOf root v s' = entryOf root v s

/-- Every address translates as before, and the same pages are valid. -/
structure Restored (root : ℕ) (s s' : KState) : Prop where
  translate : ∀ va, translate root va s' = translate root va s
  valid : ∀ v, v * PGSIZE < MAXVA → has (entryOf root v s') PTE_V = has (entryOf root v s) PTE_V

lemma mapped_of (h : Owns L s root A R) (h' : Owns L s' root A' R) {r : ℤ}
    (hret : r = 0 ∧ k = pageCount va size ∨ r = -1 ∧ k < pageCount va size)
    (hend : (firstPage va + k) * PGSIZE ≤ MAXVA)
    (hf : A'.leaf = mapRange A.leaf (firstPage va) pa perm k) :
    Mapped root va size pa perm s r k s' := by
  refine ⟨hret, fun i hi => ?_, fun v hv hout => ?_⟩
  · have hlt : (firstPage va + i) * PGSIZE < MAXVA := by
      have : (firstPage va + i + 1) * PGSIZE ≤ (firstPage va + k) * PGSIZE :=
        Nat.mul_le_mul_right _ (by omega)
      rw [Nat.succ_mul] at this
      unfold PGSIZE at *
      omega
    rw [entryOf_eq h' hlt, hf, mapRange, if_pos (by omega), Nat.add_sub_cancel_left]
  · rw [entryOf_eq h' hv, entryOf_eq h hv, hf]
    exact if_neg hout

lemma clear_mapRange (hun : ∀ w, v ≤ w → w < v + k → has (f w) PTE_V = false) (w : ℕ) :
    clearRange (mapRange f v pa perm k) v (v + k) w = f w ∨
      clearRange (mapRange f v pa perm k) v (v + k) w = 0 ∧ has (f w) PTE_V = false := by
  unfold clearRange mapRange
  by_cases hw : v ≤ w ∧ w < v + k
  · rw [if_pos hw]
    exact Or.inr ⟨rfl, hun w hw.1 hw.2⟩
  · rw [if_neg hw, if_neg hw]
    exact Or.inl rfl

lemma restored_of (h : Owns L s root A R) (h' : Owns L s' root A' R)
    (hg : ∀ w, A'.leaf w = A.leaf w ∨ A'.leaf w = 0 ∧ has (A.leaf w) PTE_V = false) :
    Restored root s s' := by
  refine ⟨fun va => ?_, fun v hv => ?_⟩
  · rw [translate_eq h', translate_eq h]
    unfold userPa UserOk
    rcases hg (va / PGSIZE) with he | ⟨h0, hV⟩
    · simp only [he]
      exact if_congr Iff.rfl rfl rfl
    · simp only [h0, hV, has_zero, Bool.false_eq_true, false_and, and_false, if_false]
  · rw [entryOf_eq h' hv, entryOf_eq h hv]
    rcases hg v with he | ⟨h0, hV⟩
    · rw [he]
    · rw [h0, hV, has_zero]

/-- **`mappages` and `uvmunmap` edit exactly the named pages**: on every well-formed page table, for
every range of unmapped pages below `MAXVA`, whatever the allocator has left. -/
theorem mappages_uvmunmap_exact (h : Owns L s root A R) (hsize : 1 ≤ size)
    (hva : va + size ≤ MAXVA) (hun : ∀ v, firstPage va ≤ v → v < firstPage va + pageCount va size →
      has (entryOf root v s) PTE_V = false) (hpa : pa < 2 ^ 55)
    (hperm : perm.toNat < 2 ^ 10) (hrwx : has perm (PTE_R ||| PTE_W ||| PTE_X) = true) :
    ∃ r k s', mappages root va size pa perm s = .ok (r, s') ∧
      Mapped root va size pa perm s r k s' ∧
      ∃ s'', uvmunmap root (firstPage va * PGSIZE) k false s' = .ok ((), s'') ∧
        Restored root s s'' := by
  obtain ⟨-, -, -, hend⟩ := range_pages hsize hva
  have hpage : ∀ v, v < firstPage va + pageCount va size → v * PGSIZE < MAXVA := by
    intro v hv
    have : (v + 1) * PGSIZE ≤ (firstPage va + pageCount va size) * PGSIZE :=
      Nat.mul_le_mul_right _ (by omega)
    rw [Nat.succ_mul] at this
    unfold PGSIZE at *
    omega
  have hun' : ∀ v, firstPage va ≤ v → v < firstPage va + pageCount va size →
      has (A.leaf v) PTE_V = false := by
    intro v h1 h2
    rw [← entryOf_eq h (hpage v h2)]
    exact hun v h1 h2
  have hflags : IsFlags perm := by
    intro i hi
    rw [BitVec.getLsbD, Nat.testBit_lt_two_pow]
    exact lt_of_lt_of_le hperm (Nat.pow_le_pow_right (by norm_num) hi)
  obtain ⟨r, s1, hrun, A1, k, h1, hleaf, hret⟩ := wp_returns
    (mappages_range h hsize hva hpa hun' : wp (mappages root va size pa perm) _ _ s)
  have hk : k ≤ pageCount va size := by omega
  have hkend : (firstPage va + k) * PGSIZE ≤ MAXVA :=
    le_trans (Nat.mul_le_mul_right _ (by omega)) hend
  have hisleaf : ∀ w, firstPage va ≤ w → w < firstPage va + k → IsLeaf (A1.leaf w) := by
    intro w hw1 hw2
    rw [hleaf]
    unfold mapRange
    rw [if_pos ⟨hw1, hw2⟩]
    refine isLeaf_entry ?_ hflags hrwx
    have hmul : (w - firstPage va) * PGSIZE ≤ (firstPage va + k) * PGSIZE :=
      Nat.mul_le_mul_right _ (by omega)
    unfold MAXVA at hkend
    omega
  obtain ⟨u, s2, hrun2, h2⟩ := wp_returns (uvmunmap_range h1 hkend hisleaf)
  refine ⟨r, k, s1, hrun, ?_, s2, hrun2, ?_⟩
  · exact mapped_of h h1 hret hkend hleaf
  · refine restored_of h h2 fun w => ?_
    dsimp only
    rw [hleaf]
    exact clear_mapRange (fun w hw1 hw2 => hun' w hw1 (by omega)) w

/-- Ten thousand bytes from `0x1234` on, in an empty table made right after `kinit`: three pages are
mapped from `0x80000000` on and unmapped again. -/
theorem mappages_uvmunmap_exact_first : ∃ s : KState, ∃ root r k s',
    mappages root 0x1234 10000 0x80000000 (PTE_R ||| PTE_W) s = .ok (r, s') ∧
      Mapped root 0x1234 10000 0x80000000 (PTE_R ||| PTE_W) s r k s' ∧
      ∃ s'', uvmunmap root (firstPage 0x1234 * PGSIZE) k false s' = .ok ((), s'') ∧
        Restored root s s'' := by
  obtain ⟨_, s0, -, hacct⟩ := wp_returns
    (kinit_spec (L := sampleLayout) (E := fun _ => False) (s := ⟨fun _ => 0, [], fun _ => 0⟩) rfl)
  obtain ⟨root, s, -, hroot⟩ := wp_returns (uvmcreate_spec (E := fun _ => False) hacct)
  have hroom := free_length (n := 1) hacct (by
    unfold sampleLayout PHYSTOP KERNBASE PGROUNDUP u64 PGSIZE
    norm_num)
  rcases hroot with ⟨-, -, hnil⟩ | ⟨hown, -, -⟩
  · rw [hnil] at hroom
    exact absurd hroom (by norm_num)
  have hrange : firstPage 0x1234 = 1 ∧ pageCount 0x1234 10000 = 3 := by
    unfold firstPage pageCount PGSIZE
    norm_num
  refine ⟨s, root, mappages_uvmunmap_exact hown (by norm_num) (by unfold MAXVA; norm_num) ?_
    (by norm_num) (by decide) (by decide)⟩
  intro v _ h2
  rw [entryOf_eq hown (by unfold MAXVA PGSIZE; omega)]
  exact has_zero _

end Xv6.Mappages
