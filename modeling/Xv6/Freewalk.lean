import Xv6.Unmap

/-!
Freeing the tables of a page table (`freewalk`).

`freewalk` visits a table after all leaf entries are gone, frees what hangs below each of its
entries and then the table itself. The invariant of its loop is the page table with the
subtrees visited so far cut off.
-/

namespace Xv6.Freewalk

open Xv6.ByteMem Xv6.Riscv Xv6.Kalloc Xv6.Vm Xv6.Wp Xv6.PageTable Xv6.Walk Xv6.Unmap

/-- The tables of level at most `l` below the positions from `lo` to `hi` of level `l`. -/
def Below (l lo hi l' x' : ℕ) : Prop :=
  l' ≤ l ∧ lo ≤ x' / 512 ^ (l - l') ∧ x' / 512 ^ (l - l') < hi

open Classical in
/-- `A` without those tables. -/
noncomputable def cut (A : PTab) (l lo hi : ℕ) : PTab :=
  { A with tab := fun l' x' => if Below l lo hi l' x' then none else A.tab l' x' }

/-- Memory stores the tables below one position. -/
structure RepBelow (m : Mem) (A : PTab) (l x : ℕ) : Prop where
  node : ∀ l' x' q, Below l x (x + 1) (l' + 1) x' → A.tab (l' + 1) x' = some q → ∀ i < 512,
    ld64 m (q + 8 * i) = entry (A.tab l' (x' * 512 + i))
  leaf : ∀ x' q, Below l x (x + 1) 0 x' → A.tab 0 x' = some q → ∀ i < 512,
    ld64 m (q + 8 * i) = A.leaf (x' * 512 + i)

/-- The part of a page table's shape that cutting keeps. -/
structure Forest (L : Layout) (A : PTab) : Prop where
  parent : ∀ l x, l < 2 → A.tab (l + 1) (x / 512) = none → A.tab l x = none
  inj : ∀ l x l' x' q, A.tab l x = some q → A.tab l' x' = some q → l = l' ∧ x = x'
  range : ∀ l x q, A.tab l x = some q → InRange L q

variable {L : Layout} {root : ℕ} {A : PTab} {s s' : KState} {R : ℕ → ℕ} {E : Panic → Prop}
  {l lo hi x q : ℕ} {m m' : Mem}

lemma cut_some {l' x' : ℕ} (h : (cut A l lo hi).tab l' x' = some q) :
    A.tab l' x' = some q ∧ ¬ Below l lo hi l' x' := by
  simp only [cut] at h
  split_ifs at h with hc
  exact ⟨h, hc⟩

lemma cut_of_not {l' x' : ℕ} (h : ¬ Below l lo hi l' x') :
    (cut A l lo hi).tab l' x' = A.tab l' x' := if_neg h

lemma cut_of {l' x' : ℕ} (h : Below l lo hi l' x') : (cut A l lo hi).tab l' x' = none := if_pos h

lemma div_pow_succ (x k : ℕ) : x / 512 / 512 ^ k = x / 512 ^ (k + 1) := by
  rw [Nat.div_div_eq_div_mul, ← pow_succ']

lemma Forest.cut (h : Forest L A) (l lo hi : ℕ) : Forest L (cut A l lo hi) := by
  refine ⟨?_, ?_, ?_⟩
  · intro l' x' hl' hn
    by_cases hb : Below l lo hi (l' + 1) (x' / 512)
    · refine cut_of ⟨by have := hb.1; omega, ?_⟩
      have h2 := hb.2
      rw [div_pow_succ, show l - (l' + 1) + 1 = l - l' by have := hb.1; omega] at h2
      exact h2
    · rw [cut_of_not hb] at hn
      have h0 := h.parent l' x' hl' hn
      by_cases hb' : Below l lo hi l' x'
      · exact cut_of hb'
      · rw [cut_of_not hb']; exact h0
  · intro l1 x1 l2 x2 q h1 h2
    exact h.inj _ _ _ _ _ (cut_some h1).1 (cut_some h2).1
  · intro l' x' q hq
    exact h.range _ _ _ (cut_some hq).1

lemma Forest.none_below (h : Forest L A) (hl : l ≤ 2) (hn : A.tab l x = none) :
    ∀ l' x', Below l x (x + 1) l' x' → A.tab l' x' = none := by
  -- by induction on the number of levels between
  have key : ∀ d l' x', l' + d = l → x' / 512 ^ d = x → A.tab l' x' = none := by
    intro d
    induction d with
    | zero =>
        intro l' x' hl' hx'
        rw [← hl', ← hx'] at hn
        simpa using hn
    | succ d ih =>
        intro l' x' hl' hx'
        exact h.parent l' x' (by omega) (ih _ _ (by omega) (by rw [div_pow_succ]; exact hx'))
  rintro l' x' ⟨hle, h1, h2⟩
  exact key (l - l') l' x' (by omega) (by omega)

lemma RepBelow.congr (h : RepBelow m A l x) (hf : Forest L A)
    (hm : ∀ l' x' q, Below l x (x + 1) l' x' → A.tab l' x' = some q →
      ∀ y, PGROUNDDOWN y = q → m' y = m y) : RepBelow m' A l x := by
  constructor
  · intro l' x' q hb hq i hi
    rw [← h.node l' x' q hb hq i hi]
    exact ld64_congr fun y h1 h2 => hm _ _ q hb hq y (entry_page (hf.range _ _ _ hq).1 hi h1 h2)
  · intro x' q hb hq i hi
    rw [← h.leaf x' q hb hq i hi]
    exact ld64_congr fun y h1 h2 => hm _ _ q hb hq y (entry_page (hf.range _ _ _ hq).1 hi h1 h2)

lemma below_child {i l' x' : ℕ} (hi : i < 512)
    (h : Below l (x * 512 + i) (x * 512 + i + 1) l' x') : Below (l + 1) x (x + 1) l' x' := by
  obtain ⟨h1, h2, h3⟩ := h
  have e : x' / 512 ^ (l + 1 - l') = x' / 512 ^ (l - l') / 512 := by
    rw [show l + 1 - l' = l - l' + 1 by omega, pow_succ, Nat.div_div_eq_div_mul]
  exact ⟨by omega, by rw [e]; omega, by rw [e]; omega⟩

lemma cut_cut {mid : ℕ} (h : lo ≤ mid) :
    cut (cut A l lo mid) l mid (mid + 1) = cut A l lo (mid + 1) := by
  have : ∀ l' x', (cut (cut A l lo mid) l mid (mid + 1)).tab l' x' =
      (cut A l lo (mid + 1)).tab l' x' := by
    intro l' x'
    by_cases h1 : Below l mid (mid + 1) l' x'
    · rw [cut_of h1, cut_of ⟨h1.1, by have := h1.2; omega, h1.2.2⟩]
    · rw [cut_of_not h1]
      by_cases h2 : Below l lo mid l' x'
      · rw [cut_of h2, cut_of ⟨h2.1, h2.2.1, by have := h2.2; omega⟩]
      · rw [cut_of_not h2, cut_of_not]
        rintro ⟨h3, h4, h5⟩
        by_cases h6 : x' / 512 ^ (l - l') < mid
        · exact h2 ⟨h3, h4, h6⟩
        · exact h1 ⟨h3, by omega, h5⟩
  simp only [cut, PTab.mk.injEq, and_true] at this ⊢
  funext l' x'
  exact this l' x'

lemma tabs_congr {A B : PTab} (h : ∀ p, IsTab A p ↔ IsTab B p) : tabs A = tabs B := by
  funext p
  unfold tabs
  by_cases hp : IsTab A p
  · rw [if_pos hp, if_pos ((h p).mp hp)]
  · rw [if_neg hp, if_neg (mt (h p).mpr hp)]

lemma tabs_cut_none (hf : Forest L A) (hl : l ≤ 2) (hn : A.tab l x = none) :
    tabs (cut A l x (x + 1)) = tabs A := by
  refine tabs_congr fun p => ⟨?_, ?_⟩
  · rintro ⟨l', x', h⟩; exact ⟨l', x', (cut_some h).1⟩
  · rintro ⟨l', x', h⟩
    refine ⟨l', x', ?_⟩
    rw [cut_of_not fun hb => by rw [hf.none_below hl hn l' x' hb] at h; cases h]
    exact h

/-- The table itself goes after all its children. -/
lemma tabs_cut_children (hf : Forest L A) (hq : A.tab l x = some q)
    {B : PTab} (hB : B.tab l x = some q)
    (hsame : ∀ l' x', (l', x') ≠ (l, x) → B.tab l' x' = (cut A l x (x + 1)).tab l' x') :
    tabs B = tabs (cut A l x (x + 1)) + ref q := by
  have hself : Below l x (x + 1) l x := ⟨le_rfl, by simp, by simp⟩
  funext p
  simp only [Pi.add_apply, tabs, ref]
  by_cases hp : p = q
  · subst hp
    have h1 : ¬ IsTab (Freewalk.cut A l x (x + 1)) p := by
      rintro ⟨l', x', h⟩
      obtain ⟨h2, h3⟩ := cut_some h
      obtain ⟨rfl, rfl⟩ := hf.inj _ _ _ _ _ h2 hq
      exact h3 hself
    rw [if_pos ⟨l, x, hB⟩, if_neg h1, if_pos rfl]
  · have hiff : IsTab B p ↔ IsTab (Freewalk.cut A l x (x + 1)) p := by
      constructor
      · rintro ⟨l', x', h⟩
        by_cases he : (l', x') = (l, x)
        · simp only [Prod.mk.injEq] at he
          obtain ⟨rfl, rfl⟩ := he
          rw [hB] at h; exact absurd (Option.some.inj h).symm hp
        · exact ⟨l', x', by rw [← hsame l' x' he]; exact h⟩
      · rintro ⟨l', x', h⟩
        refine ⟨l', x', ?_⟩
        rw [hsame l' x']
        · exact h
        · intro he
          simp only [Prod.mk.injEq] at he
          obtain ⟨rfl, rfl⟩ := he
          exact (cut_some h).2 hself
    rw [if_neg hp, add_zero]
    by_cases hA : IsTab B p
    · rw [if_pos hA, if_pos (hiff.mp hA)]
    · rw [if_neg hA, if_neg (mt hiff.mpr hA)]

/-! ### The loop -/

lemma entry_table {q : ℕ} (hq : InRange L q) :
    has (entry (some q)) (PTE_R ||| PTE_W ||| PTE_X) = false := by
  simp only [has_or, has_R, has_W, has_X, entry]
  rw [getLsbD_mk hq.lt (by omega), getLsbD_mk hq.lt (by omega), getLsbD_mk hq.lt (by omega)]
  rfl

lemma freewalkLoop_skip {rec : ℕ → K Unit} (n : ℕ) : ∀ {i : ℕ},
    (∀ j, i ≤ j → j < i + n → has (ld64 s.mem (q + 8 * j)) PTE_V = false) →
    wp (freewalkLoop rec q n i) (fun _ s' => s' = s) E s := by
  induction n with
  | zero => intro i _; rfl
  | succ n ih =>
      intro i h
      unfold freewalkLoop
      simp only [wp_bind, wp_ld, wp_ite]
      rw [h i le_rfl (by omega)]
      simp only [Bool.false_and, Bool.false_eq_true, if_false]
      exact ih fun j h1 h2 => h j (by omega) (by omega)

/-- What `freewalk` does to the table at a position: it and everything below it is freed. -/
def FreesBelow (L : Layout) (R : ℕ → ℕ) (E : Panic → Prop) (l : ℕ) : Prop :=
  ∀ {A : PTab} {x q : ℕ} {s : KState}, Forest L A → A.tab l x = some q → RepBelow s.mem A l x →
    (∀ v, v / 512 ^ (l + 1) = x → has (A.leaf v) PTE_V = false) → Acct L s (R + tabs A) →
    (∀ p, IsTab A p → R p = 0) →
    wp (freewalkAux (l + 1) q) (fun _ s' => Acct L s' (R + tabs (cut A l x (x + 1))) ∧
      Keeps (R + tabs (cut A l x (x + 1))) s s') E s

lemma not_below_child {i : ℕ} : ¬ Below l (x * 512) (x * 512 + i) (l + 1) x := fun h => by
  have := h.1; omega

lemma below_of_children {i l' x' : ℕ} (hi : i ≤ 512)
    (h : Below l (x * 512) (x * 512 + i) l' x') : Below (l + 1) x (x + 1) l' x' := by
  obtain ⟨h1, h2, h3⟩ := h
  have e : x' / 512 ^ (l + 1 - l') = x' / 512 ^ (l - l') / 512 := by
    rw [show l + 1 - l' = l - l' + 1 by omega, pow_succ, Nat.div_div_eq_div_mul]
  exact ⟨by omega, by rw [e]; omega, by rw [e]; omega⟩

lemma freewalkLoop_spec (hl : l < 2) (ih : FreesBelow L R E l) (hf : Forest L A)
    (hq : A.tab (l + 1) x = some q) (hex : ∀ p, IsTab A p → R p = 0)
    (hleaf : ∀ v, v / 512 ^ (l + 2) = x → has (A.leaf v) PTE_V = false) (n : ℕ) :
    ∀ {i : ℕ} {s : KState}, i + n = 512 →
    Acct L s (R + tabs (cut A l (x * 512) (x * 512 + i))) →
    (∀ j, i ≤ j → j < 512 → ld64 s.mem (q + 8 * j) = entry (A.tab l (x * 512 + j))) →
    (∀ j, i ≤ j → j < 512 → RepBelow s.mem A l (x * 512 + j)) →
    wp (freewalkLoop (freewalkAux (l + 1)) q n i) (fun _ s' =>
      Acct L s' (R + tabs (cut A l (x * 512) (x * 512 + 512))) ∧
        Keeps (R + tabs (cut A (l + 1) x (x + 1))) s s') E s := by
  have hqal := (hf.range _ _ _ hq).1
  induction n with
  | zero =>
      intro i s hi h _ _
      obtain rfl : i = 512 := by omega
      unfold freewalkLoop
      rw [wp_pure]
      exact ⟨h, Keeps.refl⟩
  | succ n ihn =>
      intro i s hi h hent hrep
      set B := cut A l (x * 512) (x * 512 + i) with hB
      have hBf : Forest L B := hf.cut _ _ _
      have hcc : cut B l (x * 512 + i) (x * 512 + i + 1) = cut A l (x * 512) (x * 512 + (i + 1)) := by
        rw [← Nat.add_assoc]; exact cut_cut (by omega)
      -- positions not visited yet are as in `A`
      have hBA : ∀ j, i ≤ j → ∀ l' x', Below l (x * 512 + j) (x * 512 + j + 1) l' x' →
          B.tab l' x' = A.tab l' x' := fun j hj l' x' hb =>
        cut_of_not fun hc => by have h1 := hb.2.1; have h2 := hc.2.2; omega
      have hself : Below l (x * 512 + i) (x * 512 + i + 1) l (x * 512 + i) :=
        ⟨le_rfl, by simp, by simp⟩
      unfold freewalkLoop
      simp only [wp_bind, wp_ld, wp_ite, wp_throw, wp_st]
      rw [hent i le_rfl (by omega)]
      rcases hc : A.tab l (x * 512 + i) with _ | c
      · simp only [entry_none, has_zero, Bool.false_and, Bool.false_eq_true, if_false]
        refine ihn (by omega) ?_ (fun j h1 h2 => hent j (by omega) h2)
          fun j h1 h2 => hrep j (by omega) h2
        rw [← hcc, tabs_cut_none hBf (by omega) (by rw [hBA i le_rfl _ _ hself]; exact hc)]
        exact h
      · have hin := hf.range _ _ _ hc
        rw [entry_valid hin, entry_table hin, entry_pa hin]
        simp only [Bool.not_false, Bool.and_self, if_true]
        have hBc : B.tab l (x * 512 + i) = some c := by rw [hBA i le_rfl _ _ hself]; exact hc
        have hexB : ∀ p, IsTab B p → R p = 0 := by
          rintro p ⟨l', x', hp⟩; exact hex p ⟨_, _, (cut_some hp).1⟩
        have hrepB : RepBelow s.mem B l (x * 512 + i) := by
          have h0 := hrep i le_rfl (by omega)
          refine ⟨fun l' x' r hb hr k hk => ?_, fun x' r hb hr k hk => ?_⟩
          · rw [hBA i le_rfl _ _ hb] at hr
            rw [h0.node l' x' r hb hr k hk]
            congr 1
            refine (hBA i le_rfl l' _ ⟨by have := hb.1; omega, ?_⟩).symm
            have e : (x' * 512 + k) / 512 ^ (l - l') = x' / 512 ^ (l - (l' + 1)) := by
              rw [show l - l' = l - (l' + 1) + 1 by have := hb.1; omega, ← div_pow_succ,
                show (x' * 512 + k) / 512 = x' by omega]
            rw [e]; exact hb.2
          · rw [hBA i le_rfl _ _ hb] at hr
            exact h0.leaf x' r hb hr k hk
        have hleafB : ∀ v, v / 512 ^ (l + 1) = x * 512 + i → has (B.leaf v) PTE_V = false := by
          intro v hv
          refine hleaf v ?_
          rw [pow_succ 512 (l + 1), ← Nat.div_div_eq_div_mul, hv]
          omega
        refine wp_post (ih hBf hBc hrepB hleafB h hexB) ?_
        rintro _ s1 ⟨h1, hk1⟩
        rw [hcc] at h1 hk1
        set B' := cut A l (x * 512) (x * 512 + (i + 1)) with hB'
        have hB'q : B'.tab (l + 1) x = some q := by rw [cut_of_not not_below_child]; exact hq
        have hqU : (R + tabs B') q ≠ 0 := by
          have := tabs_tab hB'q
          simp only [Pi.add_apply]; omega
        -- only the page of this table changes after the recursive call
        have hst : ∀ y, PGROUNDDOWN y ≠ q → st64 s1.mem (q + 8 * i) 0 y = s1.mem y := by
          intro y hy
          rw [Ne, rounddown_eq hqal] at hy
          exact st64_out (by unfold PGSIZE at *; omega)
        refine wp_post (ihn (by omega) (h1.of_mem rfl rfl) ?_ ?_) ?_
        · intro j hj1 hj2
          simp only
          rw [ld64_st64_ne (by omega), ← hent j (by omega) hj2]
          refine ld64_congr fun y hy1 hy2 => hk1 y ?_
          rw [entry_page hqal hj2 hy1 hy2]; exact hqU
        · intro j hj1 hj2
          refine (hrep j (by omega) hj2).congr hf fun l' x' r hb hr y hy => ?_
          have hrq : r ≠ q := by
            rintro rfl
            have := (hf.inj _ _ _ _ _ hr hq).1
            have := hb.1
            omega
          have hr' : B'.tab l' x' = some r := by
            rw [cut_of_not fun hc => by have h2 := hb.2.1; have h3 := hc.2.2; omega]
            exact hr
          simp only
          rw [hst y (by rw [hy]; exact hrq)]
          refine hk1 y ?_
          rw [hy]
          have := tabs_tab hr'
          simp only [Pi.add_apply]; omega
        · rintro _ s2 ⟨h2, hk2⟩
          refine ⟨h2, fun y hy => ?_⟩
          rw [hk2 y hy]
          have hyq : PGROUNDDOWN y ≠ q := by
            intro he
            rw [he] at hy
            simp only [Pi.add_apply, hex q ⟨_, _, hq⟩, zero_add] at hy
            obtain ⟨l', x', hp⟩ := isTab_iff.mp hy
            obtain ⟨h3, h4⟩ := cut_some hp
            obtain ⟨rfl, rfl⟩ := hf.inj _ _ _ _ _ h3 hq
            exact h4 ⟨le_rfl, by simp, by simp⟩
          simp only
          rw [hst y hyq]
          refine hk1 y ?_
          simp only [Pi.add_apply] at hy ⊢
          by_cases hR : R (PGROUNDDOWN y) = 0
          · rw [hR, zero_add] at hy
            obtain ⟨l', x', hp⟩ := isTab_iff.mp hy
            obtain ⟨h3, h4⟩ := cut_some hp
            have : B'.tab l' x' = some (PGROUNDDOWN y) := by
              rw [cut_of_not fun hc => h4 (below_of_children (by omega) hc)]
              exact h3
            have := tabs_tab this
            omega
          · omega

/-! ### `freewalk` -/

lemma below_zero {l' x' : ℕ} : Below 0 x (x + 1) l' x' ↔ (l', x') = (0, x) := by
  constructor
  · rintro ⟨h1, h2, h3⟩
    obtain rfl : l' = 0 := by omega
    simp only [Nat.sub_self, pow_zero, Nat.div_one] at h2 h3
    rw [show x' = x by omega]
  · intro h
    simp only [Prod.mk.injEq] at h
    obtain ⟨rfl, rfl⟩ := h
    exact ⟨le_rfl, by simp, by simp⟩

lemma below_succ {l' x' : ℕ} (hne : (l', x') ≠ (l + 1, x)) :
    Below (l + 1) x (x + 1) l' x' ↔ Below l (x * 512) (x * 512 + 512) l' x' := by
  refine ⟨?_, below_of_children le_rfl⟩
  rintro ⟨h1, h2, h3⟩
  by_cases hl : l' = l + 1
  · subst hl
    simp only [Nat.sub_self, pow_zero, Nat.div_one] at h2 h3
    exact absurd (by rw [show x' = x by omega]) hne
  · have e : x' / 512 ^ (l + 1 - l') = x' / 512 ^ (l - l') / 512 := by
      rw [show l + 1 - l' = l - l' + 1 by omega, pow_succ, Nat.div_div_eq_div_mul]
    rw [e] at h2 h3
    exact ⟨by omega, by omega, by omega⟩

lemma cut_empty (A : PTab) (l lo : ℕ) : tabs (cut A l lo lo) = tabs A := by
  have hno : ∀ l' x', ¬ Below l lo lo l' x' := fun l' x' h => by
    have h1 := h.2.1; have h2 := h.2.2; omega
  refine tabs_congr fun p => ⟨?_, ?_⟩
  · rintro ⟨l', x', h⟩; exact ⟨l', x', (cut_some h).1⟩
  · rintro ⟨l', x', h⟩; exact ⟨l', x', by rw [cut_of_not (hno l' x')]; exact h⟩

lemma freesBelow : ∀ l ≤ 2, FreesBelow L R E l := by
  intro l
  induction l with
  | zero =>
      intro _ A x q s hf hq hrep hleaf h hex
      have hB := tabs_cut_children hf hq hq (fun l' x' hne => by
        rw [cut_of_not fun hb => hne (below_zero.mp hb)])
      rw [hB, ← add_assoc] at h
      simp only [freewalkAux, wp_bind]
      refine wp_post (freewalkLoop_skip 512 fun j _ hj => ?_) ?_
      · rw [hrep.leaf x q ⟨le_rfl, by simp, by simp⟩ hq j (by omega)]
        exact hleaf _ (by rw [zero_add, pow_one]; omega)
      · rintro _ s1 rfl
        exact wp_post (kfree_spec h) fun _ s2 h2 => ⟨h2.1, h2.2.1⟩
  | succ l ih =>
      intro hl A x q s hf hq hrep hleaf h hex
      have hB := tabs_cut_children (B := cut A l (x * 512) (x * 512 + 512)) hf hq
        (by rw [cut_of_not not_below_child]; exact hq) (fun l' x' hne => by
          by_cases hb : Below l (x * 512) (x * 512 + 512) l' x'
          · rw [cut_of hb, cut_of ((below_succ hne).mpr hb)]
          · rw [cut_of_not hb, cut_of_not (mt (below_succ hne).mp hb)])
      have hself : Below (l + 1) x (x + 1) (l + 1) x := ⟨le_rfl, by simp, by simp⟩
      rw [freewalkAux]
      simp only [wp_bind]
      refine wp_post (freewalkLoop_spec (by omega) (ih (by omega)) hf hq hex hleaf 512
        (i := 0) rfl ?_ ?_ ?_) ?_
      · rw [Nat.add_zero, cut_empty]; exact h
      · intro j _ hj
        exact hrep.node l x q hself hq j hj
      · intro j _ hj
        exact ⟨fun l' x' r hb hr => hrep.node l' x' r (below_child hj hb) hr,
          fun x' r hb hr => hrep.leaf x' r (below_child hj hb) hr⟩
      · rintro _ s1 ⟨h1, hk1⟩
        rw [hB, ← add_assoc] at h1
        refine wp_post (kfree_spec h1) fun _ s2 h2 => ⟨h2.1, hk1.trans h2.2.1 fun _ => id⟩

/-- **`freewalk`** of a page table without leaf entries frees exactly its tables. -/
lemma freewalk_spec (h : Owns L s root A R) (hleaf : ∀ v < 2 ^ 27, has (A.leaf v) PTE_V = false) :
    wp (freewalk root) (fun _ s' => Acct L s' R ∧ Keeps R s s') E s := by
  have hf : Forest L A := ⟨h.wf.parent, h.wf.inj, h.wf.range⟩
  have hall : tabs (cut A 2 0 1) = 0 := by
    funext p
    refine if_neg ?_
    rintro ⟨l', x', hp⟩
    obtain ⟨h1, h2⟩ := cut_some hp
    obtain ⟨h3, h4⟩ := h.wf.top _ _ _ h1
    exact h2 ⟨h3, Nat.zero_le _, by rw [Nat.div_eq_of_lt h4]; omega⟩
  have hspec := freesBelow (R := R) (E := E) 2 le_rfl hf h.wf.root
    ⟨fun l' x' q _ hq => h.rep.node l' x' q hq, fun x' q _ hq => h.rep.leaf x' q hq⟩
    (fun v hv => hleaf v ?_) h.acct h.excl
  · rw [zero_add, hall, add_zero] at hspec
    exact hspec
  · by_contra hc
    have : 1 ≤ v / 512 ^ 3 := (Nat.one_le_div_iff (by norm_num)).mpr (by norm_num; omega)
    omega

end Xv6.Freewalk
