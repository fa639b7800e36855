import Xv6.Mappages

/-!
`uvmalloc` is all or nothing, and `uvmdealloc` undoes it.
-/

namespace Xv6.GrowUndo

open Xv6.ByteMem Xv6.Riscv Xv6.Kalloc Xv6.Vm Xv6.Wp Xv6.PageTable Xv6.Walk Xv6.Unmap
open Xv6.AddrSpace Xv6.Grow Xv6.Process Xv6.Ops Xv6.Steps Xv6.Kernel Xv6.RefCount Xv6.Reach Xv6.StoreFault
open Xv6.Mappages (entryOf entryOf_eq)

/-- Page `p` is a table of the page table at `root`. -/
def IsTable (root p : ℕ) (s : KState) : Prop := ∃ l x, tableAt s.mem root l x = some p

/-- Every page looks up as before, and the pages that were free are, except those that became
tables. -/
structure Undone (root : ℕ) (s s' : KState) : Prop where
  entries : ∀ v, v * PGSIZE < MAXVA → entryOf root v s' = entryOf root v s
  free : ∀ p ∈ s.freelist, p ∈ s'.freelist ∨ IsTable root p s'

/-- The pages from `np` up to `np'` are new: mapped with the permissions asked for, and zero. -/
structure Extended (root np np' : ℕ) (perm : Word) (s s' : KState) : Prop where
  entries : ∀ v, v * PGSIZE < MAXVA → ¬ (np ≤ v ∧ v < np') → entryOf root v s' = entryOf root v s
  pages : ∀ v, np ≤ v → v < np' → ∃ p, PTE2PA (entryOf root v s') = p ∧
    entryOf root v s' = PA2PTE p ||| (PTE_R ||| PTE_U ||| perm) ||| PTE_V ∧ Zeroed s'.mem p

/-- From `s'` to `s''` exactly the new pages are freed, and every page looks up as in `s`. -/
structure Shrunk (root np np' : ℕ) (s s' s'' : KState) : Prop where
  entries : ∀ v, v * PGSIZE < MAXVA → entryOf root v s'' = entryOf root v s
  freed : ∀ p, p ∈ s''.freelist ↔
    p ∈ s'.freelist ∨ ∃ v, np ≤ v ∧ v < np' ∧ PTE2PA (entryOf root v s') = p

variable {L : Layout} {root : ℕ} {A A' : PTab} {s s' s'' : KState} {R : ℕ → ℕ} {E : Panic → Prop}
  {np np' tf oldsz newsz p : ℕ} {perm : Word}

/-! ### What the accounting says -/

lemma free_iff (h : AS L s root A R np tf) :
    p ∈ s.freelist ↔ InRange L p ∧ R p = 0 ∧ leaves A.leaf p = 0 ∧ ¬ IsTab A p := by
  rw [h.owns.acct.mem_free, ← isTab_iff]
  simp only [Pi.add_apply]
  constructor
  · rintro ⟨h1, h2⟩
    exact ⟨h1, by omega, by omega, by omega⟩
  · rintro ⟨h1, h2, h3, h4⟩
    exact ⟨h1, by omega⟩

lemma isTable_iff (h : AS L s root A R np tf) : IsTable root p s ↔ IsTab A p := by
  unfold IsTable IsTab
  simp only [tableAt_eq h.owns.wf h.owns.rep]

lemma undone_of (h : AS L s root A R np tf) (h' : Failed L root R A.leaf np tf s s') :
    Undone root s s' := by
  obtain ⟨⟨A', has, hleaf⟩, -⟩ := h'
  refine ⟨fun v hv => ?_, fun p hp => ?_⟩
  · rw [entryOf_eq has.owns hv, entryOf_eq h.owns hv, hleaf]
  · obtain ⟨h1, h2, h3, -⟩ := (free_iff h).mp hp
    rw [isTable_iff has, free_iff has, hleaf]
    by_cases hc : IsTab A' p
    · exact Or.inr hc
    · exact Or.inl ⟨h1, h2, h3, hc⟩

lemma page_lt (h : AS L s root A R np tf) {v : ℕ} (hv : v < np) : v * PGSIZE < MAXVA := by
  have := h.space.np_le
  unfold MAXVA PGSIZE
  omega

lemma extended_of (h : AS L s root A R np tf)
    (h' : Grown L root R A.leaf perm np tf np' A' s s') : Extended root np np' perm s s' := by
  refine ⟨fun v hv hout => ?_, fun v h1 h2 => ?_⟩
  · rw [entryOf_eq h'.as.owns hv, entryOf_eq h.owns hv, ← h'.base, clearRange, if_neg hout]
  · rw [entryOf_eq h'.as.owns (page_lt h'.as h2)]
    exact ⟨_, rfl, h'.entry v h1 h2, h'.zero v h1 h2⟩

/-- Clearing the new entries frees the pages they mapped. -/
lemma shrunk_of (h : AS L s root A R np tf) (h' : Grown L root R A.leaf perm np tf np' A' s s')
    (h'' : AS L s'' root { A' with leaf := clearRange A'.leaf np np' } R np tf) :
    Shrunk root np np' s s' s'' := by
  have hbase := h'.base
  have hsame : ∀ p, IsTab { A' with leaf := clearRange A'.leaf np np' } p ↔ IsTab A' p :=
    fun _ => Iff.rfl
  have hlt := h'.as.space.lt_tfv le_rfl
  refine ⟨fun v hv => ?_, fun p => ?_⟩
  · rw [entryOf_eq h''.owns hv, entryOf_eq h.owns hv, ← hbase]
  rw [free_iff h'', free_iff h'.as, hsame]
  dsimp only
  constructor
  · rintro ⟨h1, h2, h3, h4⟩
    by_cases hl : leaves A'.leaf p = 0
    · exact Or.inl ⟨h1, h2, hl, h4⟩
    · -- only the entries that were cleared map the page
      obtain ⟨v, hv, hm⟩ := leaves_ne_zero.mp hl
      refine Or.inr ⟨v, ?_⟩
      have hin : np ≤ v ∧ v < np' := by
        by_contra hc
        refine leaves_ne_zero.mpr ⟨v, hv, ?_⟩ h3
        rw [clearRange, if_neg hc]
        exact hm
      rw [entryOf_eq h'.as.owns (page_lt h'.as hin.2)]
      exact ⟨hin.1, hin.2, hm.2⟩
  · rintro (⟨h1, h2, h3, h4⟩ | ⟨v, hv1, hv2, rfl⟩)
    · refine ⟨h1, h2, ?_, h4⟩
      have := leaves_clearRange_le A'.leaf np np' p
      omega
    · rw [entryOf_eq h'.as.owns (page_lt h'.as hv2)]
      have hu := h'.as.space.user v hv2
      have hpos := leaves_pos (f := A'.leaf) (by omega) hu.valid
      refine ⟨hu.range, h'.fresh v hv1 hv2, ?_, fun hc => ?_⟩
      · by_contra hne
        obtain ⟨w, hw, hm⟩ := leaves_ne_zero.mp hne
        unfold clearRange at hm
        split_ifs at hm with hc
        · exact not_maps_zero hm
        · -- no other entry maps a user page
          have hwnp : w < np' := by
            rcases (h'.as.space.valid_iff w).mp hm.1 with h1 | h1 | h1
            · exact h1
            · omega
            · rw [h1, trv_eq, tfv_eq] at hw
              omega
          have := h'.as.space.inj w hwnp v hv2 hm.2
          omega
      · have := h'.as.owns.excl _ hc
        rw [Pi.add_apply] at this
        omega

/-! ### The calls -/

lemma uvmalloc_cases (h : AS L s root A R (pgs oldsz) tf) (hx : Perm perm) (hle : oldsz ≤ newsz) :
    wp (uvmalloc root oldsz newsz perm) (fun r s' =>
      (r = 0 ∧ Failed L root R A.leaf (pgs oldsz) tf s s') ∨
      (r = newsz ∧ newsz ≤ 2 ^ 27 ∧
        ∃ A', Grown L root R A.leaf perm (pgs oldsz) tf (pgs newsz) A' s s')) E s := by
  have hround : pgs oldsz * PGSIZE ≤ oldsz + 4095 := by
    unfold pgs PGROUNDUP u64 PGSIZE
    omega
  unfold uvmalloc
  rw [if_neg (by omega)]
  simp only [roundup_eq]
  refine uvmallocLoop_spec hx _ (Grown.refl h) ?_ ?_
  · unfold PGSIZE at *
    omega
  · unfold PGSIZE
    omega

lemma growproc_fails {t : Kern} {i : Fin NPROC} {n : ℤ} (hn : 0 < n)
    (hrun : uvmalloc (t.proc i).pagetable (t.proc i).sz (u64 ((t.proc i).sz + intU64 n)) PTE_W t.k =
      .ok (0, s')) : growproc i n t = .ok (-1, { t with k := s' }) := by
  have hwp : wp (growproc i n) (fun r t' => r = -1 ∧ t' = { t with k := s' }) (fun _ => False) t := by
    unfold growproc
    rw [wp_bind, wp_get]
    dsimp only
    rw [if_pos hn, wp_bind, wp_vm, wp_of_run hrun, if_pos rfl]
    exact ⟨rfl, rfl⟩
  obtain ⟨r, t', hrun', rfl, rfl⟩ := wp_returns hwp
  exact hrun'

/-- **Growing memory is all or nothing and shrinking undoes it**: for the page table of any address
space of size `oldsz` and every `newsz` that is not smaller, wherever the allocator runs out. -/
theorem uvmalloc_all_or_nothing (h : AS L s root A R (pgs oldsz) tf) (h0 : 0 < oldsz)
    (hle : oldsz ≤ newsz) (hx : Perm perm) :
    ∃ r s', uvmalloc root oldsz newsz perm s = .ok (r, s') ∧
      (r = 0 ∧ Undone root s s' ∧
        (∀ (t : Kern) i n, t.k = s → (t.proc i).pagetable = root → (t.proc i).sz = oldsz → 0 < n →
          u64 (oldsz + intU64 n) = newsz → perm = PTE_W →
          growproc i n t = .ok (-1, { t with k := s' })) ∨
      r = newsz ∧ r ≠ 0 ∧ Extended root (pgs oldsz) (pgs newsz) perm s s' ∧
        ∃ s'', uvmdealloc root newsz oldsz s' = .ok (oldsz, s'') ∧
          Shrunk root (pgs oldsz) (pgs newsz) s s' s'') := by
  obtain ⟨r, s', hrun, ⟨rfl, hf⟩ | ⟨rfl, hlt, A', hg⟩⟩ := wp_returns (uvmalloc_cases h hx hle)
  · refine ⟨0, s', hrun, Or.inl ⟨rfl, undone_of h hf, ?_⟩⟩
    rintro t i n rfl rfl rfl hn rfl rfl
    exact growproc_fails hn hrun
  · obtain ⟨r', s'', hrun', hr, has, -⟩ := wp_returns
      (uvmdealloc_spec hg.as (by omega) : wp (uvmdealloc root r oldsz) _ (fun _ => False) _)
    have hold : r' = oldsz := by
      rw [hr]
      split_ifs <;> omega
    subst hold
    exact ⟨r, s', hrun, Or.inr ⟨rfl, by omega, extended_of h hg, s'', hrun', shrunk_of h hg has⟩⟩

/-- The first process of the system grows by a page and shrinks again, or fails to grow. -/
theorem uvmalloc_all_or_nothing_first :
    wp (system sampleLayout []) (fun _ t => ∃ root, ∃ r s',
      uvmalloc root PGSIZE (2 * PGSIZE) PTE_W t.k = .ok (r, s') ∧
      (r = 0 ∧ Undone root t.k s' ∨ r = 2 * PGSIZE ∧
        Extended root (pgs PGSIZE) (pgs (2 * PGSIZE)) PTE_W t.k s')) (fun _ => False)
      (powerOn fun _ => 0) := by
  unfold system
  rw [wp_bind]
  refine wp_post (boot_spec _ le_rfl sampleLayout.room) ?_
  rintro _ t ⟨T, i, hb, -⟩
  have hi := Inv.live hb.inv (i := i) (by rw [hb.state]; simp)
  rw [Kernel.run, wp_pure]
  have has := hb.inv.as hi
  rw [hb.sz] at has
  obtain ⟨r, s', hrun, ⟨rfl, hu, -⟩ | ⟨rfl, -, he, -⟩⟩ := uvmalloc_all_or_nothing has
    (by unfold PGSIZE; norm_num) (by omega : PGSIZE ≤ 2 * PGSIZE) (⟨isFlags_W, rfl⟩ : Perm PTE_W)
  · exact ⟨_, 0, s', hrun, Or.inl ⟨rfl, hu⟩⟩
  · exact ⟨_, _, s', hrun, Or.inr ⟨rfl, he⟩⟩

end Xv6.GrowUndo
