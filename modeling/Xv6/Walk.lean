import Xv6.PageTable

/-!
What `walk` and `mappages` do to a page table.

`Owns L s root A R` holds when the page table `A` sits at `root`, its table pages are
referenced by nothing else, and `R` counts every other outstanding reference. The functions
below change only the tables of `A` and pages taken from the free list, so whatever `R` counts
keeps its bytes.
-/

namespace Xv6.Walk

open Xv6.ByteMem Xv6.Riscv Xv6.Kalloc Xv6.Vm Xv6.Wp Xv6.PageTable

structure Owns (L : Layout) (s : KState) (root : ℕ) (A : PTab) (R : ℕ → ℕ) : Prop where
  wf : Wf L root A
  rep : Rep s.mem A
  acct : Acct L s (R + tabs A)
  excl : ∀ p, IsTab A p → R p = 0

variable {L : Layout} {root : ℕ} {A : PTab} {s s' : KState} {R : ℕ → ℕ} {E : Panic → Prop}

lemma Owns.root_ne (h : Owns L s root A R) : root ≠ 0 := (h.wf.range _ _ _ h.wf.root).pos.ne'

/-! ### Writing a leaf entry -/

lemma wf_setLeaf (h : Wf L root A) {v : ℕ} (e : Word) (hv : A.tab 0 (v / 512) ≠ none) :
    Wf L root (setLeaf A v e) := by
  refine ⟨h.root, h.top, h.parent, ?_, h.inj, h.range⟩
  intro w hw
  have hne : w ≠ v := by rintro rfl; exact hv hw
  simp only [setLeaf, Function.update_of_ne hne]
  exact h.noleaf w hw

lemma rep_setLeaf {m : Mem} (h : Rep m A) (hw : Wf L root A) {v q : ℕ} (e : Word)
    (hq : A.tab 0 (v / 512) = some q) :
    Rep (st64 m (q + 8 * (v % 512)) e) (setLeaf A v e) := by
  have hal := (hw.range _ _ _ hq).1
  constructor
  · intro l x r hr i hi
    rw [setLeaf_tab] at hr ⊢
    rw [← h.node l x r hr i hi]
    have hne : r ≠ q := by
      rintro rfl
      have := (hw.inj _ _ _ _ _ hr hq).1
      omega
    have h2 := (hw.range _ _ _ hr).1
    refine ld64_st64_ne ?_
    unfold PGSIZE at *; omega
  · intro x r hr i hi
    rw [setLeaf_tab] at hr
    by_cases hx : x = v / 512
    · subst hx
      have : r = q := by rw [hq] at hr; exact (Option.some.inj hr).symm
      subst this
      by_cases hiv : i = v % 512
      · subst hiv
        rw [ld64_st64, show v / 512 * 512 + v % 512 = v by omega]
        simp [setLeaf]
      · rw [ld64_st64_ne (by omega), h.leaf _ r hr i hi]
        simp only [setLeaf]
        rw [Function.update_of_ne (by omega)]
    · have hne : r ≠ q := by
        rintro rfl
        exact hx (hw.inj _ _ _ _ _ hr hq).2
      have h2 := (hw.range _ _ _ hr).1
      rw [ld64_st64_ne (by unfold PGSIZE at *; omega), h.leaf _ r hr i hi]
      simp only [setLeaf]
      rw [Function.update_of_ne (by omega)]

lemma pteAddr_some {va : ℕ} (h : pteAddr A va ≠ 0) :
    ∃ q, A.tab 0 (va / PGSIZE / 512) = some q ∧ pteAddr A va = q + 8 * (va / PGSIZE % 512) := by
  unfold pteAddr at h ⊢
  rcases hq : A.tab 0 (va / PGSIZE / 512) with _ | q
  · rw [hq] at h; exact absurd rfl h
  · exact ⟨q, rfl, rfl⟩

/-- **Writing the leaf entry** of a virtual page whose tables exist. -/
lemma Owns.st_leaf (h : Owns L s root A R) {va : ℕ} (hp : pteAddr A va ≠ 0) (e : Word) :
    Owns L { s with mem := st64 s.mem (pteAddr A va) e } root (setLeaf A (va / PGSIZE) e) R ∧
      Keeps R s { s with mem := st64 s.mem (pteAddr A va) e } := by
  obtain ⟨q, hq, he⟩ := pteAddr_some hp
  rw [he]
  refine ⟨⟨wf_setLeaf h.wf e (by rw [hq]; simp), rep_setLeaf h.rep h.wf e hq,
    h.acct.of_mem rfl rfl, h.excl⟩, fun x hx => st64_out ?_⟩
  have hal := (h.wf.range _ _ _ hq).1
  have hne : PGROUNDDOWN x ≠ q := by rintro rfl; exact hx (h.excl _ ⟨_, _, hq⟩)
  rw [Ne, rounddown_eq hal] at hne
  unfold PGSIZE at *
  omega

lemma Owns.st_outside (h : Owns L s root A R) {va : ℕ} (hp : pteAddr A va ≠ 0) (e : Word) :
    Keeps (outside L) s { s with mem := st64 s.mem (pteAddr A va) e } := by
  obtain ⟨q, hq, he⟩ := pteAddr_some hp
  have hin := h.wf.range _ _ _ hq
  rw [he]
  intro x hx
  have hne : PGROUNDDOWN x ≠ q := by rintro rfl; exact hx (outside_inRange hin)
  rw [Ne, rounddown_eq hin.1] at hne
  refine st64_out ?_
  unfold PGSIZE at *
  omega

/-! ### Adding a table -/

variable {l x q t i : ℕ}

lemma tabs_setTab (hnone : A.tab l x = none) (hq : ¬ IsTab A q) :
    tabs (setTab A l x q) = tabs A + ref q := by
  funext p
  simp only [Pi.add_apply, tabs, ref]
  by_cases hp : p = q
  · subst hp
    have : IsTab (setTab A l x p) p := ⟨l, x, if_pos ⟨rfl, rfl⟩⟩
    simp [hq, this]
  · have hiff : IsTab (setTab A l x q) p ↔ IsTab A p := by
      constructor
      · rintro ⟨l', x', h⟩
        simp only [setTab] at h
        split_ifs at h with hc
        · exact absurd (Option.some.inj h).symm hp
        · exact ⟨l', x', h⟩
      · rintro ⟨l', x', h⟩
        refine ⟨l', x', ?_⟩
        simp only [setTab]
        rw [if_neg (by rintro ⟨rfl, rfl⟩; rw [hnone] at h; cases h)]
        exact h
    by_cases hA : IsTab A p
    · rw [if_pos hA, if_pos (hiff.mpr hA), if_neg hp]
    · rw [if_neg hA, if_neg (mt hiff.mp hA), if_neg hp]

lemma wf_setTab (hw : Wf L root A) (hl : l < 2) (hx : x < 512 ^ (2 - l))
    (hpar : A.tab (l + 1) (x / 512) = some t) (hnone : A.tab l x = none) (hq : ¬ IsTab A q)
    (hr : InRange L q) : Wf L root (setTab A l x q) := by
  refine ⟨?_, ?_, ?_, ?_, ?_, ?_⟩
  · simp only [setTab]
    rw [if_neg (by omega)]; exact hw.root
  · intro l' x' r h
    simp only [setTab] at h
    split_ifs at h with hc
    · obtain ⟨rfl, rfl⟩ := hc; exact ⟨by omega, hx⟩
    · exact hw.top _ _ _ h
  · intro l' x' hl' h
    simp only [setTab] at h ⊢
    split_ifs at h with hc
    have h0 := hw.parent l' x' hl' h
    rw [if_neg (by rintro ⟨rfl, rfl⟩; rw [hpar] at h; cases h)]
    exact h0
  · intro v h
    simp only [setTab] at h ⊢
    split_ifs at h with hc
    exact hw.noleaf v h
  · intro l1 x1 l2 x2 r h1 h2
    simp only [setTab] at h1 h2
    split_ifs at h1 h2 with c1 c2 c2
    · obtain ⟨rfl, rfl⟩ := c1; obtain ⟨rfl, rfl⟩ := c2; exact ⟨rfl, rfl⟩
    · rw [← Option.some.inj h1] at h2; exact absurd ⟨_, _, h2⟩ hq
    · rw [← Option.some.inj h2] at h1; exact absurd ⟨_, _, h1⟩ hq
    · exact hw.inj _ _ _ _ _ h1 h2
  · intro l' x' r h
    simp only [setTab] at h
    split_ifs at h with hc
    · rw [← Option.some.inj h]; exact hr
    · exact hw.range _ _ _ h

/-- A zeroed fresh page, entered in the table above it. -/
lemma rep_setTab {m : Mem} (h : Rep m A) (hw : Wf L root A) (hl : l < 2)
    (hpar : A.tab (l + 1) (x / 512) = some t) (hnone : A.tab l x = none) (hq : ¬ IsTab A q)
    (hr : InRange L q) :
    Rep (st64 (fill m q 0 PGSIZE) (t + 8 * (x % 512)) (entry (some q))) (setTab A l x q) := by
  have hqt : q ≠ t := by rintro rfl; exact hq ⟨_, _, hpar⟩
  have hqal := hr.1
  have htal := (hw.range _ _ _ hpar).1
  have hmod : x % 512 < 512 := Nat.mod_lt _ (by omega)
  -- the words of the fresh page
  have hfresh : ∀ i < 512,
      ld64 (st64 (fill m q 0 PGSIZE) (t + 8 * (x % 512)) (entry (some q))) (q + 8 * i) = 0 := by
    intro i hi
    rw [ld64_st64_ne (by unfold PGSIZE at *; omega)]
    exact ld64_fill_zero (by omega) (by unfold PGSIZE at *; omega)
  -- every other word of a table
  have hold : ∀ r, r ≠ q → r % PGSIZE = 0 → ∀ i < 512, (r ≠ t ∨ i ≠ x % 512) →
      ld64 (st64 (fill m q 0 PGSIZE) (t + 8 * (x % 512)) (entry (some q))) (r + 8 * i) =
        ld64 m (r + 8 * i) := by
    intro r hrq hral i hi hc
    rw [ld64_st64_ne (by unfold PGSIZE at *; omega)]
    refine ld64_congr fun y h1 h2 => fill_out ?_
    unfold PGSIZE at *; omega
  constructor
  · intro l' x' r hr' i hi
    simp only [setTab] at hr'
    split_ifs at hr' with hc
    · -- the fresh page, as a table above level 0
      obtain ⟨rfl, rfl⟩ := hc
      obtain rfl := Option.some.inj hr'
      rw [hfresh i hi]
      simp only [setTab]
      rw [if_neg (by omega), hw.parent l' (x' * 512 + i) (by omega)
        (by rw [show (x' * 512 + i) / 512 = x' by omega]; exact hnone)]
      rfl
    · have hrq : r ≠ q := by rintro rfl; exact hq ⟨_, _, hr'⟩
      have hral := (hw.range _ _ _ hr').1
      by_cases hslot : r = t ∧ i = x % 512
      · obtain ⟨rfl, rfl⟩ := hslot
        obtain ⟨h1, h2⟩ := hw.inj _ _ _ _ _ hr' hpar
        have : l' = l := by omega
        subst this
        rw [ld64_st64, h2, show x / 512 * 512 + x % 512 = x by omega]
        simp [setTab]
      · rw [hold r hrq hral i hi (by tauto), h.node l' x' r hr' i hi]
        simp only [setTab]
        congr 1
        rw [if_neg]
        rintro ⟨rfl, hx⟩
        refine hslot ⟨?_, by omega⟩
        have : x' = x / 512 := by omega
        rw [this, hpar] at hr'
        exact (Option.some.inj hr').symm
  · intro x' r hr' i hi
    simp only [setTab] at hr'
    split_ifs at hr' with hc
    · obtain ⟨rfl, rfl⟩ := hc
      obtain rfl := Option.some.inj hr'
      rw [hfresh i hi]
      exact (hw.noleaf _ (by rw [show (x' * 512 + i) / 512 = x' by omega]; exact hnone)).symm
    · have hrq : r ≠ q := by rintro rfl; exact hq ⟨_, _, hr'⟩
      have hrt : r ≠ t := by
        rintro rfl
        have := (hw.inj _ _ _ _ _ hr' hpar).1
        omega
      rw [hold r hrq (hw.range _ _ _ hr').1 i hi (Or.inl hrt)]
      exact h.leaf x' r hr' i hi

/-! ### `walk` with allocation -/

/-- What a function that adds tables does: the page table becomes `A'` with leaf entries `f`,
everything else keeps its bytes, and at most `k` pages are taken. -/
structure Grows (L : Layout) (root : ℕ) (R : ℕ → ℕ) (k : ℕ) (f : ℕ → Word) (A' : PTab)
    (s s' : KState) : Prop where
  owns : Owns L s' root A' R
  leaf : A'.leaf = f
  keeps : Keeps R s s'
  taken : ∃ ps, s.freelist = ps ++ s'.freelist ∧ ps.length ≤ k

lemma Grows.refl (h : Owns L s root A R) (k : ℕ) : Grows L root R k A.leaf A s s :=
  ⟨h, rfl, Keeps.refl, [], rfl, by simp⟩

lemma Grows.trans {A' A'' : PTab} {s'' : KState} {f g : ℕ → Word} {j k : ℕ}
    (h : Grows L root R j f A' s s') (h' : Grows L root R k g A'' s' s'') :
    Grows L root R (j + k) g A'' s s'' := by
  obtain ⟨ps, hps, hj⟩ := h.taken
  obtain ⟨qs, hqs, hk⟩ := h'.taken
  refine ⟨h'.owns, h'.leaf, h.keeps.trans h'.keeps fun _ => id, ps ++ qs, ?_, ?_⟩
  · rw [hps, hqs, List.append_assoc]
  · rw [List.length_append]; omega

/-- One missing table is allocated, zeroed and entered. -/
lemma Owns.add_tab (h : Owns L s root A R) (hl : l < 2) (hx : x < 512 ^ (2 - l))
    (hpar : A.tab (l + 1) (x / 512) = some t) (hnone : A.tab l x = none) {s1 : KState}
    (hr : InRange L q) (hU : (R + tabs A) q = 0) (hacct : Acct L s1 (R + tabs A + ref q))
    (hk : Keeps (R + tabs A) s s1) (hf : s.freelist = q :: s1.freelist) :
    Grows L root R 1 A.leaf (setTab A l x q) s { s1 with
      mem := st64 (fill s1.mem q 0 PGSIZE) (t + 8 * (x % 512)) (PA2PTE q ||| PTE_V) } := by
  have hq : ¬ IsTab A q := fun hc => by
    have := isTab_iff.mpr hc
    simp only [Pi.add_apply] at hU
    omega
  have hRq : R q = 0 := by simp only [Pi.add_apply] at hU; omega
  have hrep : Rep s1.mem A := h.rep.keeps h.wf hk fun p hp => by
    have := isTab_iff.mpr hp
    simp only [Pi.add_apply]; omega
  refine ⟨⟨wf_setTab h.wf hl hx hpar hnone hq hr, rep_setTab hrep h.wf hl hpar hnone hq hr,
    ?_, ?_⟩, rfl, ?_, [q], hf, le_rfl⟩
  · refine (hacct.congr fun p => ?_).of_mem rfl rfl
    rw [tabs_setTab hnone hq]
    simp only [Pi.add_apply]; omega
  · rintro p ⟨l', x', hp⟩
    simp only [setTab] at hp
    split_ifs at hp with hc
    · rw [← Option.some.inj hp]; exact hRq
    · exact h.excl p ⟨_, _, hp⟩
  · intro y hy
    have hyq : PGROUNDDOWN y ≠ q := by rintro rfl; exact hy hRq
    have hyt : PGROUNDDOWN y ≠ t := by rintro rfl; exact hy (h.excl _ ⟨_, _, hpar⟩)
    have htal := (h.wf.range _ _ _ hpar).1
    have hmod : x % 512 < 512 := Nat.mod_lt _ (by omega)
    rw [Ne, rounddown_eq hr.1] at hyq
    rw [Ne, rounddown_eq htal] at hyt
    simp only
    rw [st64_out (by unfold PGSIZE at *; omega), fill_out (by omega)]
    exact hk y (by simp only [Pi.add_apply]; omega)

/-- The loop of `walk` with allocation, from a table of the given level. -/
lemma walkLoop_alloc {va : ℕ} (hva : va < MAXVA) : ∀ level ≤ 2, ∀ {A : PTab} {s : KState} {t : ℕ},
    Owns L s root A R → A.tab level (va / PGSIZE / 512 ^ (level + 1)) = some t →
    wp (walkLoop va true level t) (fun r s' => ∃ A', Grows L root R level A.leaf A' s s' ∧
      (r = 0 ∧ s'.freelist = [] ∨ r = pteAddr A' va ∧ r ≠ 0)) E s := by
  intro level
  induction level with
  | zero =>
      intro _ A s t h ht
      simp only [zero_add, pow_one] at ht
      have hpos := (h.wf.range _ _ _ ht).pos
      simp only [walkLoop, wp_pure]
      refine ⟨A, Grows.refl h 0, Or.inr ⟨?_, by omega⟩⟩
      simp only [pteAddr, ht, px_eq, pow_zero, Nat.div_one]
  | succ l ih =>
      intro hl A s t h ht
      have hv := vpn_lt hva
      set v := va / PGSIZE with hvdef
      have hmod : v / 512 ^ (l + 1) % 512 < 512 := Nat.mod_lt _ (by omega)
      have he := h.rep.node l _ t ht _ hmod
      rw [index_step] at he
      unfold walkLoop
      simp only [wp_bind, wp_ld, px_eq, ← hvdef, he, wp_ite, wp_pure, wp_memset, wp_st]
      rcases hq : A.tab l (v / 512 ^ (l + 1)) with _ | q
      · simp only [entry_none, has_zero, Bool.false_eq_true, if_false, if_true]
        refine wp_post (kalloc_spec h.acct) ?_
        rintro q s1 (⟨rfl, rfl, hf⟩ | ⟨hr, hU, hacct, hk, hf⟩)
        · rw [if_pos rfl]
          exact ⟨A, Grows.refl h _, Or.inl ⟨trivial, hf⟩⟩
        · rw [if_neg hr.pos.ne']
          have hpar : A.tab (l + 1) (v / 512 ^ (l + 1) / 512) = some t := by
            rw [Nat.div_div_eq_div_mul, ← pow_succ]; exact ht
          have hx : v / 512 ^ (l + 1) < 512 ^ (2 - l) := by
            rw [Nat.div_lt_iff_lt_mul (by positivity), ← pow_add,
              show 2 - l + (l + 1) = 3 by omega]
            norm_num; omega
          have hg := h.add_tab (by omega) hx hpar hq hr hU hacct hk hf
          refine wp_post (ih (by omega) hg.owns (t := q) (by simp [setTab])) ?_
          rintro r s' ⟨A', hg', hres⟩
          have := hg.trans hg'
          rw [Nat.add_comm 1 l] at this
          exact ⟨A', this, hres⟩
      · have hin := h.wf.range _ _ _ hq
        rw [if_pos (entry_valid hin), entry_pa hin]
        refine wp_post (ih (by omega) h hq) ?_
        rintro r s' ⟨A', hg, hres⟩
        obtain ⟨ps, hps, hlen⟩ := hg.taken
        exact ⟨A', ⟨hg.owns, hg.leaf, hg.keeps, ps, hps, by omega⟩, hres⟩

/-- **`walk` with allocation** finds or makes the entry of `va`, unless pages run out. -/
lemma walk_alloc (h : Owns L s root A R) {va : ℕ} (hva : va < MAXVA) :
    wp (walk root va true) (fun r s' => ∃ A', Grows L root R 2 A.leaf A' s s' ∧
      (r = 0 ∧ s'.freelist = [] ∨ r = pteAddr A' va ∧ r ≠ 0)) E s := by
  unfold walk
  rw [if_neg (by omega)]
  refine walkLoop_alloc hva 2 le_rfl h ?_
  have := vpn_lt hva
  rw [Nat.div_eq_of_lt (by norm_num; omega)]
  exact h.wf.root

/-! ### `mappages` on one page -/

lemma rounddown_aligned {a : ℕ} (h : a % PGSIZE = 0) : PGROUNDDOWN a = a := by
  unfold PGROUNDDOWN PGSIZE at *; omega

lemma mappages_page {va : ℕ} (pa : ℕ) (perm : Word) (hal : va % PGSIZE = 0) (hva : va < MAXVA) :
    mappages root va PGSIZE pa perm = mappagesLoop root va perm 1 va pa := by
  have h1 : PGROUNDDOWN (u64 (va + PGSIZE - 1)) = va := by
    unfold PGROUNDDOWN u64 MAXVA PGSIZE at *; omega
  have h2 : sub64 va va / PGSIZE = 0 := by
    unfold sub64 u64 PGSIZE
    rw [show va + 2 ^ 64 - va = 2 ^ 64 by omega]
    norm_num
  unfold mappages
  rw [if_neg (by unfold PGSIZE; omega)]
  simp only [rounddown_aligned hal, h1, h2]

/-- **`mappages` on one unmapped page**: the entry is set, or tables ran out and every entry
is as before. -/
lemma mappages_spec (h : Owns L s root A R) {va pa : ℕ} {perm : Word} (hal : va % PGSIZE = 0)
    (hva : va < MAXVA) (hno : has (A.leaf (va / PGSIZE)) PTE_V = false) :
    wp (mappages root va PGSIZE pa perm) (fun r s' => ∃ A',
      (r = -1 ∧ s'.freelist = [] ∧ Grows L root R 2 A.leaf A' s s') ∨
      (r = 0 ∧ Grows L root R 2
        (Function.update A.leaf (va / PGSIZE) (PA2PTE pa ||| perm ||| PTE_V)) A' s s')) E s := by
  rw [mappages_page pa perm hal hva]
  unfold mappagesLoop
  simp only [wp_bind, wp_ite, wp_pure, wp_ld, wp_throw, wp_st]
  refine wp_post (walk_alloc h hva) ?_
  rintro r s1 ⟨A1, hg, ⟨rfl, hf⟩ | ⟨rfl, hne⟩⟩
  · rw [if_pos rfl]
    exact ⟨A1, Or.inl ⟨trivial, hf, hg⟩⟩
  · rw [if_neg hne, ld_pteAddr hg.owns.rep hne, hg.leaf, hno, if_neg (by simp), if_pos trivial]
    obtain ⟨h1, h2⟩ := hg.owns.st_leaf hne (PA2PTE pa ||| perm ||| PTE_V)
    refine ⟨_, Or.inr ⟨trivial, ⟨h1, ?_, hg.keeps.trans h2 fun _ => id, hg.taken⟩⟩⟩
    simp only [setLeaf, hg.leaf]

end Xv6.Walk
