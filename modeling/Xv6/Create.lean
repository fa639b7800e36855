import Xv6.Process
import Xv6.Grow

/-!
Making and freeing the page table of a process (`proc_pagetable`, `proc_freepagetable`).

`proc_pagetable` takes at most five pages and gives them all back when it fails.
`proc_freepagetable` drops every reference the address space held, to its tables and from its
user pages, and touches nothing that is referenced elsewhere.
-/

namespace Xv6.Create

open Xv6.ByteMem Xv6.Riscv Xv6.Kalloc Xv6.Vm Xv6.Wp Xv6.PageTable Xv6.Walk Xv6.Unmap
open Xv6.Freewalk Xv6.AddrSpace Xv6.Grow Xv6.Process

variable {L : Layout} {root : ℕ} {A : PTab} {s s' : KState} {R U : ℕ → ℕ} {E : Panic → Prop}
  {f : ℕ → Word} {np tf : ℕ}

/-! ### An empty table -/

def emptyTab (root : ℕ) : PTab where
  tab := fun l x => if l = 2 ∧ x = 0 then some root else none
  leaf := fun _ => 0

lemma emptyTab_some {l x q : ℕ} (h : (emptyTab root).tab l x = some q) :
    l = 2 ∧ x = 0 ∧ q = root := by
  simp only [emptyTab] at h
  split_ifs at h with hc
  exact ⟨hc.1, hc.2, (Option.some.inj h).symm⟩

lemma emptyTab_root : (emptyTab root).tab 2 0 = some root := by simp [emptyTab]

lemma wf_emptyTab (hr : InRange L root) : Wf L root (emptyTab root) := by
  refine ⟨emptyTab_root, ?_, ?_, fun _ _ => rfl, ?_, ?_⟩
  · intro l x q h
    obtain ⟨rfl, rfl, rfl⟩ := emptyTab_some h
    exact ⟨le_rfl, by norm_num⟩
  · intro l x hl _
    exact if_neg (by omega)
  · intro l x l' x' q h h'
    obtain ⟨rfl, rfl, _⟩ := emptyTab_some h
    obtain ⟨rfl, rfl, _⟩ := emptyTab_some h'
    exact ⟨rfl, rfl⟩
  · intro l x q h
    obtain ⟨_, _, rfl⟩ := emptyTab_some h
    exact hr

lemma rep_emptyTab {m : Mem} (hz : Zeroed m root) (hr : root % PGSIZE = 0) :
    Rep m (emptyTab root) := by
  have hword : ∀ i < 512, ld64 m (root + 8 * i) = 0 := by
    intro i hi
    rw [← ld64_fill_zero (m := m) (a := root) (b := root + 8 * i) (n := PGSIZE) (by omega)
      (by unfold PGSIZE; omega)]
    refine ld64_congr fun y h1 h2 => ?_
    have hy := entry_page hr hi h1 h2
    obtain ⟨h3, h4⟩ := (rounddown_eq hr).mp hy
    rw [hz y hy, fill_in h3 h4]
  constructor
  · intro l x q h i hi
    obtain ⟨h1, rfl, rfl⟩ := emptyTab_some h
    rw [hword i hi]
    simp only [emptyTab]
    rw [if_neg (by omega)]
    rfl
  · intro x q h i hi
    obtain ⟨h1, _, _⟩ := emptyTab_some h
    omega

lemma tabs_emptyTab : tabs (emptyTab root) = ref root := by
  funext p
  unfold tabs ref
  by_cases hp : p = root
  · subst hp
    rw [if_pos ⟨2, 0, emptyTab_root⟩, if_pos rfl]
  · rw [if_neg hp, if_neg]
    rintro ⟨l, x, h⟩
    exact hp (emptyTab_some h).2.2

/-- **`uvmcreate`** makes an empty table of one fresh page. -/
lemma uvmcreate_spec (h : Acct L s U) :
    wp uvmcreate (fun r s' =>
      (r = 0 ∧ s' = s ∧ s.freelist = []) ∨
      (Owns L s' r (emptyTab r) U ∧ Keeps U s s' ∧ s.freelist = r :: s'.freelist)) E s := by
  unfold uvmcreate
  rw [wp_bind]
  refine wp_post (kalloc_spec h) ?_
  rintro r s1 (⟨rfl, rfl, hf⟩ | ⟨hr, hU, hacct, hk, hf⟩)
  · rw [if_pos rfl, wp_pure]
    exact Or.inl ⟨rfl, rfl, hf⟩
  · rw [if_neg hr.pos.ne', wp_bind, wp_memset, wp_pure]
    obtain ⟨h1, h2, h3⟩ := clear_fresh hr hU hacct hk
    refine Or.inr ⟨⟨wf_emptyTab hr, rep_emptyTab h3 hr.1, ?_, ?_⟩, h2, hf⟩
    · rw [tabs_emptyTab]; exact h1
    · rintro p ⟨l, x, hp⟩
      rw [(emptyTab_some hp).2.2]; exact hU

/-! ### Freeing -/

lemma leaves_zero (h : ∀ v < TFV, has (f v) PTE_V = false) : leaves f = 0 := by
  funext p
  by_contra hc
  obtain ⟨v, hv, hm⟩ := leaves_ne_zero.mp hc
  have := h v hv
  rw [hm.1] at this
  cases this

/-- **`uvmfree`** of a page table whose only entries are its `pgs sz` user pages. -/
lemma uvmfree_spec {sz : ℕ} (h : Owns L s root A (R + leaves A.leaf)) (hlt : pgs sz < TFV)
    (hpos : sz = 0 → pgs sz = 0)
    (huser : ∀ v < pgs sz, IsLeaf (A.leaf v))
    (hrest : ∀ v, pgs sz ≤ v → has (A.leaf v) PTE_V = false) :
    wp (uvmfree root sz) (fun _ s' => Acct L s' R ∧ Keeps R s s') E s := by
  unfold uvmfree
  -- what is left once the user pages are unmapped
  have hcont : ∀ s1, Owns L s1 root { A with leaf := clearRange A.leaf 0 (pgs sz) }
      (R + leaves (clearRange A.leaf 0 (pgs sz))) →
      Keeps (R + leaves (clearRange A.leaf 0 (pgs sz))) s s1 →
      wp (freewalk root) (fun _ s' => Acct L s' R ∧ Keeps R s s') E s1 := by
    intro s1 h1 hk1
    have hnone : ∀ v, has (clearRange A.leaf 0 (pgs sz) v) PTE_V = false := by
      intro v
      unfold clearRange
      split_ifs with hc
      · exact has_zero _
      · exact hrest v (by omega)
    rw [leaves_zero fun v _ => hnone v, add_zero] at h1 hk1
    refine wp_post (freewalk_spec h1 fun v _ => hnone v) ?_
    rintro _ s2 ⟨h2, hk2⟩
    exact ⟨h2, hk1.trans hk2 fun _ => id⟩
  dsimp only
  by_cases hsz : 0 < sz
  · rw [if_pos hsz, wp_bind]
    refine wp_post (uvmunmap_free (Nat.zero_mod PGSIZE) ?_ h ?_) ?_
    · rw [Nat.zero_add, trapframe_eq]
      exact Nat.mul_le_mul_right _ hlt.le
    · intro v _ hv
      rw [Nat.zero_div, Nat.zero_add] at hv
      exact huser v hv
    · rintro _ s1 ⟨h1, hk1⟩
      rw [Nat.zero_div, Nat.zero_add] at h1 hk1
      exact hcont s1 h1 hk1
  · rw [if_neg hsz]
    have h0 : pgs sz = 0 := hpos (by omega)
    refine hcont s ?_ ?_
    · rw [h0, clearRange_empty _ le_rfl]; exact h
    · exact Keeps.refl

lemma trampoline_eq : TRAMPOLINE = TRV * PGSIZE := by
  rw [trv_eq]; unfold TRAMPOLINE MAXVA PGSIZE; norm_num

lemma trampoline_vpn : TRAMPOLINE / PGSIZE = TRV := by
  rw [trampoline_eq]; exact Nat.mul_div_cancel _ (by unfold PGSIZE; omega)

lemma trapframe_vpn : TRAPFRAME / PGSIZE = TFV := by
  rw [trapframe_eq]; exact Nat.mul_div_cancel _ (by unfold PGSIZE; omega)

lemma trampoline_lt_maxva : TRAMPOLINE < MAXVA := by unfold TRAMPOLINE MAXVA PGSIZE; norm_num
lemma trapframe_lt_maxva : TRAPFRAME < MAXVA := by
  unfold TRAPFRAME TRAMPOLINE MAXVA PGSIZE; norm_num

lemma pgs_zero : pgs 0 = 0 := by unfold pgs PGROUNDUP u64 PGSIZE; norm_num

lemma tfv_ne_trv : TFV ≠ TRV := by rw [tfv_eq, trv_eq]; norm_num

lemma Space.rest (h : Space L f np tf) {g : ℕ → Word}
    (hg : g = Function.update (Function.update f TRV 0) TFV 0) :
    leaves g = leaves f ∧ (∀ v < np, g v = f v) ∧ ∀ v, np ≤ v → g v = 0 := by
  have h1 := tfv_eq
  have h2 := trv_eq
  have hlt := h.lt_tfv le_rfl
  subst hg
  refine ⟨?_, ?_, ?_⟩
  · rw [leaves_update_high le_rfl, leaves_update_high (by omega)]
  · intro v hv
    rw [Function.update_of_ne (by omega), Function.update_of_ne (by omega)]
  · intro v hv
    by_cases hvt : v = TFV
    · rw [hvt, Function.update_self]
    · rw [Function.update_of_ne hvt]
      by_cases hvr : v = TRV
      · rw [hvr, Function.update_self]
      · rw [Function.update_of_ne hvr]; exact h.none v hv hvt hvr

/-- **`proc_freepagetable`** drops every reference of the address space. -/
lemma proc_freepagetable_spec {sz : ℕ} (h : AS L s root A R (pgs sz) tf) :
    wp (proc_freepagetable root sz) (fun _ s' => Acct L s' R ∧ Keeps R s s') E s := by
  obtain ⟨hown, hsp⟩ := h
  unfold proc_freepagetable
  rw [wp_bind]
  refine wp_post (uvmunmap_keep (by rw [trampoline_eq]; exact Nat.mul_mod_left _ _)
    trampoline_lt_maxva hown (by rw [trampoline_vpn]; exact hsp.isLeaf_trampoline)) ?_
  rintro _ s1 ⟨h1, hk1⟩
  rw [trampoline_vpn] at h1
  rw [wp_bind]
  refine wp_post (uvmunmap_keep (by rw [trapframe_eq]; exact Nat.mul_mod_left _ _)
    trapframe_lt_maxva h1 ?_) ?_
  · rw [trapframe_vpn]
    simp only [setLeaf]
    rw [Function.update_of_ne tfv_ne_trv]
    exact hsp.isLeaf_trapframe
  · rintro _ s2 ⟨h2, hk2⟩
    rw [trapframe_vpn] at h2
    obtain ⟨hl, hu, hr⟩ := Space.rest hsp
      (g := (setLeaf (setLeaf A TRV 0) TFV 0).leaf) rfl
    rw [← hl] at h2
    refine wp_post (uvmfree_spec h2 (hsp.lt_tfv le_rfl) (by rintro rfl; exact pgs_zero) ?_ ?_) ?_
    · intro v hv
      rw [hu v hv]; exact (hsp.user v hv).isLeaf
    · intro v hv
      rw [hr v hv, has_zero]
    · rintro _ s3 ⟨h3, hk3⟩
      refine ⟨h3, Keeps.trans (hk1.mono fun p hp => ?_) (Keeps.trans (hk2.mono fun p hp => ?_) hk3
        fun _ => id) fun _ => id⟩
      all_goals simp only [Pi.add_apply]; omega

/-! ### Making -/

/-- The leaf entries of a new process: the two fixed pages. -/
def fixedLeaf (L : Layout) (tf : ℕ) : ℕ → Word :=
  Function.update (Function.update (fun _ => 0) TRV
    (PA2PTE L.trampoline ||| (PTE_R ||| PTE_X) ||| PTE_V)) TFV
    (PA2PTE tf ||| (PTE_R ||| PTE_W) ||| PTE_V)

lemma fixedLeaf_none {v : ℕ} (h1 : v ≠ TFV) (h2 : v ≠ TRV) : fixedLeaf L tf v = 0 := by
  unfold fixedLeaf
  rw [Function.update_of_ne h1, Function.update_of_ne h2]

lemma leaves_fixedLeaf : leaves (fixedLeaf L tf) = 0 := by
  refine leaves_zero fun v hv => ?_
  have h1 := tfv_eq
  have h2 := trv_eq
  rw [fixedLeaf_none (by omega) (by omega), has_zero]

lemma space_fixedLeaf (htf : InRange L tf) : Space L (fixedLeaf L tf) 0 tf := by
  refine ⟨fun v hv => by omega, ?_, ?_, fun v _ h1 h2 => fixedLeaf_none h1 h2,
    fun v hv => by omega, htf⟩
  · exact Function.update_self ..
  · unfold fixedLeaf
    rw [Function.update_of_ne tfv_ne_trv.symm, Function.update_self]

lemma discard (h : Owns L s' root A U) (hleaf : ∀ v, A.leaf v = 0) (hk : Keeps U s s') :
    wp (uvmfree root 0) (fun _ s'' => Acct L s'' U ∧ Keeps U s s'') E s' := by
  have hnone : ∀ v, has (A.leaf v) PTE_V = false := fun v => by rw [hleaf v, has_zero]
  have h0 : leaves A.leaf = 0 := leaves_zero fun v _ => hnone v
  rw [← add_zero U, ← h0] at h
  have htf : 0 < TFV := by rw [tfv_eq]; norm_num
  refine wp_post (uvmfree_spec h (by rw [pgs_zero]; exact htf) (fun _ => pgs_zero)
    (fun v hv => by rw [pgs_zero] at hv; omega) fun v _ => hnone v) ?_
  rintro _ s2 ⟨h2, hk2⟩
  exact ⟨h2, hk.trans hk2 fun _ => id⟩

/-- **`proc_pagetable`** makes an address space without user pages, or fails for want of pages
and gives back what it took. -/
lemma proc_pagetable_spec (h : Acct L s U) (htf : InRange L tf) :
    wp (proc_pagetable L tf) (fun r s' =>
      (r = 0 ∧ Acct L s' U ∧ Keeps U s s' ∧ s.freelist.length ≤ 5) ∨
      (∃ A, AS L s' r A U 0 tf ∧ A.leaf = fixedLeaf L tf ∧ Keeps U s s' ∧
        s.freelist.length ≤ s'.freelist.length + 5)) E s := by
  unfold proc_pagetable
  rw [wp_bind]
  refine wp_post (uvmcreate_spec h) ?_
  rintro r s1 (⟨rfl, rfl, hf⟩ | ⟨h1, hk1, hf⟩)
  · rw [if_pos rfl, wp_pure]
    exact Or.inl ⟨rfl, h, Keeps.refl, by rw [hf]; simp⟩
  · have hlen1 : s.freelist.length = s1.freelist.length + 1 := by rw [hf]; rfl
    rw [if_neg h1.root_ne, wp_bind]
    refine wp_post (mappages_spec h1 (by rw [trampoline_eq]; exact Nat.mul_mod_left _ _)
      trampoline_lt_maxva (has_zero _)) ?_
    rintro q s2 ⟨A2, ⟨rfl, hf2, h2⟩ | ⟨rfl, h2⟩⟩
    · obtain ⟨ps, hps, hlen⟩ := h2.taken
      rw [if_pos (by norm_num), wp_bind]
      refine wp_post (discard h2.owns (fun v => by rw [h2.leaf]; rfl)
        (hk1.trans h2.keeps fun _ => id)) ?_
      rintro _ s3 ⟨h3, hk3⟩
      refine Or.inl ⟨rfl, h3, hk3, ?_⟩
      rw [hf2, List.append_nil] at hps
      rw [hlen1, hps]; omega
    · obtain ⟨ps, hps, hlen⟩ := h2.taken
      have hleaf2 := h2.leaf
      rw [trampoline_vpn] at hleaf2
      have hlen2 : s1.freelist.length ≤ s2.freelist.length + 2 := by
        rw [hps, List.length_append]; omega
      rw [if_neg (by norm_num), wp_bind]
      refine wp_post (mappages_spec h2.owns (by rw [trapframe_eq]; exact Nat.mul_mod_left _ _)
        trapframe_lt_maxva ?_) ?_
      · rw [trapframe_vpn, hleaf2, Function.update_of_ne tfv_ne_trv]; exact has_zero _
      · rintro q s3 ⟨A3, ⟨rfl, hf3, h3⟩ | ⟨rfl, h3⟩⟩
        · obtain ⟨qs, hqs, hlen'⟩ := h3.taken
          rw [if_pos (by norm_num), wp_bind]
          have htr : IsLeaf (A3.leaf TRV) := by
            have := (space_fixedLeaf htf).isLeaf_trampoline
            rw [h3.leaf, hleaf2, Function.update_self]
            rwa [(space_fixedLeaf htf).trampoline] at this
          refine wp_post (uvmunmap_keep (by rw [trampoline_eq]; exact Nat.mul_mod_left _ _)
            trampoline_lt_maxva h3.owns (by rw [trampoline_vpn]; exact htr)) ?_
          rintro _ s4 ⟨h4, hk4⟩
          rw [wp_bind]
          refine wp_post (discard h4 (fun v => ?_)
            (((hk1.trans h2.keeps fun _ => id).trans h3.keeps fun _ => id).trans hk4
              fun _ => id)) ?_
          · simp only [setLeaf]
            rw [trampoline_vpn, h3.leaf, hleaf2, Function.update_idem]
            by_cases hv : v = TRV
            · rw [hv, Function.update_self]
            · rw [Function.update_of_ne hv]; rfl
          · rintro _ s5 ⟨h5, hk5⟩
            refine Or.inl ⟨rfl, h5, hk5, ?_⟩
            rw [hf3, List.append_nil] at hqs
            rw [hqs] at hlen2
            omega
        · obtain ⟨qs, hqs, hlen'⟩ := h3.taken
          have hleaf3 : A3.leaf = fixedLeaf L tf := by
            rw [h3.leaf, trapframe_vpn, hleaf2]; rfl
          rw [if_neg (by norm_num), wp_pure]
          refine Or.inr ⟨A3, ⟨?_, by rw [hleaf3]; exact space_fixedLeaf htf⟩, hleaf3,
            (hk1.trans h2.keeps fun _ => id).trans h3.keeps fun _ => id, ?_⟩
          · rw [hleaf3, leaves_fixedLeaf, add_zero]; exact h3.owns
          · have : s2.freelist.length ≤ s3.freelist.length + 2 := by
              rw [hqs, List.length_append]; omega
            omega

end Xv6.Create
