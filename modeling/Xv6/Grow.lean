import Xv6.AddrSpace

/-!
Growing an address space (`uvmalloc`).

The loop adds one zeroed page at a time. When a page or a table cannot be allocated, the pages
added so far are unmapped again, and every leaf entry is as before the call.
-/

namespace Xv6.Grow

open Xv6.ByteMem Xv6.Riscv Xv6.Kalloc Xv6.Vm Xv6.Wp Xv6.PageTable Xv6.Walk Xv6.Unmap
open Xv6.Freewalk Xv6.AddrSpace

variable {L : Layout} {root : ℕ} {A : PTab} {s s' : KState} {R U : ℕ → ℕ} {E : Panic → Prop}
  {f : ℕ → Word} {np tf : ℕ} {e : Word}

/-- The page holds only zeros. -/
def Zeroed (m : Mem) (p : ℕ) : Prop := ∀ y, PGROUNDDOWN y = p → m y = 0

lemma clear_fresh {r : ℕ} (hr : InRange L r) (hU : U r = 0) (hacct : Acct L s' (U + ref r))
    (hk : Keeps U s s') :
    Acct L { s' with mem := fill s'.mem r 0 PGSIZE } (U + ref r) ∧
      Keeps U s { s' with mem := fill s'.mem r 0 PGSIZE } ∧
      Zeroed (fill s'.mem r 0 PGSIZE) r := by
  refine ⟨hacct.of_mem rfl rfl, hk.trans (fill_keeps hr.1 hU) fun _ => id, fun y hy => ?_⟩
  obtain ⟨h3, h4⟩ := (rounddown_eq hr.1).mp hy
  exact fill_in h3 h4

lemma Owns.of_keeps {R' V : ℕ → ℕ} (h : Owns L s root A R) (hacct : Acct L s' (R' + tabs A))
    (hk : Keeps V s s') (hV : ∀ p, IsTab A p → V p ≠ 0) (hex : ∀ p, IsTab A p → R' p = 0) :
    Owns L s' root A R' :=
  ⟨h.wf, h.rep.keeps h.wf hk hV, hacct, hex⟩

/-- The entry `uvmalloc` makes for a new page. -/
def newEntry (p : ℕ) (xperm : Word) : Word := PA2PTE p ||| (PTE_R ||| PTE_U ||| xperm) ||| PTE_V

/-- Permissions a caller may ask for: flag bits without `PTE_COW`. -/
structure Perm (xperm : Word) : Prop where
  flags : IsFlags xperm
  cow : xperm.getLsbD 5 = false

lemma newEntry_pa {p : ℕ} {xperm : Word} (hp : InRange L p) (hx : Perm xperm) :
    PTE2PA (newEntry p xperm) = p := by
  unfold newEntry
  rw [BitVec.or_assoc]
  exact pte2pa_mk hp.lt hp.1
    (isFlags_or (isFlags_or (isFlags_or isFlags_R isFlags_U) hx.flags) isFlags_V)

lemma newEntry_bit {p k : ℕ} {xperm : Word} (hp : InRange L p) (hk : k < 10) :
    (newEntry p xperm).getLsbD k = ((PTE_R ||| PTE_U ||| xperm) ||| PTE_V).getLsbD k := by
  unfold newEntry
  rw [BitVec.or_assoc, getLsbD_mk hp.lt hk]

lemma newEntry_user {p : ℕ} {xperm : Word} (hp : InRange L p) (hx : Perm xperm) :
    UserLeaf L (newEntry p xperm) := by
  refine ⟨by rw [newEntry_pa hp hx]; exact hp, ?_, ?_, fun _ => ?_⟩
  · rw [has_V, newEntry_bit hp (by omega), BitVec.getLsbD_or]
    simp [PTE_V]
  · rw [has_R, newEntry_bit hp (by omega), BitVec.getLsbD_or, BitVec.getLsbD_or,
      BitVec.getLsbD_or]
    simp [PTE_R]
  · rw [has_COW, newEntry_bit hp (by omega), BitVec.getLsbD_or, BitVec.getLsbD_or,
      BitVec.getLsbD_or, hx.cow]
    rfl

/-- One more user page, not mapped yet. -/
lemma Space.extend (h : Space L f np tf) (he : UserLeaf L e)
    (hnew : ∀ v < np, PTE2PA (f v) ≠ PTE2PA e) : Space L (Function.update f np e) (np + 1) tf := by
  have hlt := h.lt_tfv le_rfl
  have h1 := tfv_eq
  have h2 := trv_eq
  have hold : ∀ v, v ≠ np → Function.update f np e v = f v := fun v hv =>
    Function.update_of_ne hv _ _
  refine ⟨?_, ?_, ?_, ?_, ?_, h.tf_range⟩
  · intro v hv
    by_cases hvn : v = np
    · rw [hvn, Function.update_self]; exact he
    · rw [hold v hvn]; exact h.user v (by omega)
  · rw [hold _ (by omega)]; exact h.trapframe
  · rw [hold _ (by omega)]; exact h.trampoline
  · intro v hv ht hr
    rw [hold v (by omega)]; exact h.none v (by omega) ht hr
  · intro v hv w hw hp
    by_cases hvn : v = np <;> by_cases hwn : w = np
    · omega
    · rw [hvn, Function.update_self, hold w hwn] at hp
      exact absurd hp.symm (hnew w (by omega))
    · rw [hwn, Function.update_self, hold v hvn] at hp
      exact absurd hp (hnew v (by omega))
    · rw [hold v hvn, hold w hwn] at hp
      exact h.inj v (by omega) w (by omega) hp

/-- How an address space looks after growing from `f` with `np` pages. -/
structure Grown (L : Layout) (root : ℕ) (R : ℕ → ℕ) (f : ℕ → Word) (xperm : Word)
    (np tf np' : ℕ) (A' : PTab) (s s' : KState) : Prop where
  as : AS L s' root A' R np' tf
  base : clearRange A'.leaf np np' = f
  le : np ≤ np'
  keeps : Keeps (R + leaves f) s s'
  zero : ∀ v, np ≤ v → v < np' → Zeroed s'.mem (PTE2PA (A'.leaf v))
  entry : ∀ v, np ≤ v → v < np' → A'.leaf v = newEntry (PTE2PA (A'.leaf v)) xperm
  fresh : ∀ v, np ≤ v → v < np' → R (PTE2PA (A'.leaf v)) = 0

lemma Grown.old {xperm : Word} {np' v : ℕ} (h : Grown L root R f xperm np tf np' A s s')
    (hv : v < np) : A.leaf v = f v := by
  rw [← h.base, clearRange, if_neg (by omega)]

lemma Grown.priv {xperm : Word} {np' : ℕ} (h : Grown L root R f xperm np tf np' A s s')
    (hp : Priv R f np) : Priv R A.leaf np' := by
  intro v hv hW
  by_cases hlt : v < np
  · rw [h.old hlt] at hW ⊢
    exact hp v hlt hW
  · exact h.fresh v (by omega) hv

lemma Grown.noNew {xperm : Word} {np' : ℕ} (h : Grown L root R f xperm np tf np' A s s') :
    NoNew R f A.leaf := by
  intro p hp
  refine Set.ncard_le_ncard ?_ (leaves_finite f p)
  rintro v ⟨hv, hm⟩
  refine ⟨hv, ?_⟩
  rw [← h.base, clearRange, if_neg]
  · exact hm
  · rintro ⟨h1, h2⟩
    exact hp (by rw [← hm.2]; exact h.fresh v h1 h2)

lemma Grown.refl {xperm : Word} (h : AS L s root A R np tf) :
    Grown L root R A.leaf xperm np tf np A s s :=
  ⟨h, clearRange_empty _ le_rfl, le_rfl, Keeps.refl, fun v h1 h2 => by omega,
    fun v h1 h2 => by omega, fun v h1 h2 => by omega⟩

lemma pgs_mul {n : ℕ} (h : n ≤ 2 ^ 15) : pgs (n * PGSIZE) = n := by
  unfold pgs PGROUNDUP u64 PGSIZE; omega

lemma undo {xperm : Word} {np' : ℕ} {s0 : KState} (h : Grown L root R f xperm np tf np' A s0 s) :
    wp (uvmdealloc root (np' * PGSIZE) (np * PGSIZE)) (fun _ s' =>
      ∃ A', AS L s' root A' R np tf ∧ A'.leaf = f ∧ Keeps (R + leaves f) s0 s') E s := by
  have hle := h.as.space.np_le
  have has := h.as
  rw [← pgs_mul hle] at has
  refine wp_post (uvmdealloc_spec has (by unfold PGSIZE; omega)) ?_
  rintro r s1 ⟨hr, h1, h2⟩
  have hpr : pgs r = np := by
    rw [hr]
    split_ifs with hc
    · have := h.le
      have : np' ≤ np := Nat.le_of_mul_le_mul_right hc (by unfold PGSIZE; omega)
      rw [pgs_mul hle]; omega
    · exact pgs_mul (by have := h.le; omega)
  rw [hpr, pgs_mul hle, h.base] at h1 h2
  exact ⟨_, h1, rfl, h.keeps.trans h2 fun _ => id⟩

lemma Grown.unmapped {xperm : Word} {np' : ℕ} {s0 : KState}
    (h : Grown L root R f xperm np tf np' A s0 s) : has (A.leaf np') PTE_V = false := by
  have h0 := h.as.space.lt_tfv le_rfl
  have h1 := tfv_eq
  have h2 := trv_eq
  rw [h.as.space.none np' le_rfl (by omega) (by omega), has_zero]

/-- One iteration that succeeds. -/
lemma Grown.step {xperm : Word} {np' p : ℕ} {s0 s1 s2 : KState} {A2 : PTab} (hx : Perm xperm)
    (h : Grown L root R f xperm np tf np' A s0 s) (hp : InRange L p)
    (hU : (R + leaves A.leaf + tabs A) p = 0) (hk1 : Keeps (R + leaves A.leaf + tabs A) s s1)
    (hz : Zeroed s1.mem p)
    (hg : Grows L root (R + ref p + leaves A.leaf) 2
      (Function.update A.leaf np' (newEntry p xperm)) A2 s1 s2) :
    Grown L root R f xperm np tf (np' + 1) A2 s0 s2 := by
  have hlt := h.as.space.lt_tfv le_rfl
  have hle := h.le
  have hRp : R p = 0 ∧ leaves A.leaf p = 0 := by
    simp only [Pi.add_apply] at hU; omega
  have hpe := newEntry_pa hp hx
  have hleaves : leaves A2.leaf = leaves A.leaf + ref p := by
    rw [hg.leaf]
    exact leaves_set hlt h.unmapped ⟨(newEntry_user hp hx).valid, hpe⟩
  have howns : Owns L s2 root A2 (R + leaves A2.leaf) := by
    have e : R + leaves A2.leaf = R + ref p + leaves A.leaf := by
      rw [hleaves]; funext q; simp only [Pi.add_apply]; omega
    rw [e]; exact hg.owns
  have hold : ∀ v, v ≠ np' → A2.leaf v = A.leaf v := fun v hv => by
    rw [hg.leaf, Function.update_of_ne hv]
  have hself : A2.leaf np' = newEntry p xperm := by rw [hg.leaf, Function.update_self]
  refine ⟨⟨howns, ?_⟩, ?_, by omega, ?_, ?_, ?_, ?_⟩
  · rw [hg.leaf]
    refine Space.extend h.as.space (newEntry_user hp hx) fun v hv he => ?_
    have := leaves_pos (f := A.leaf) (by omega) (h.as.space.user v hv).valid
    rw [he, hpe] at this
    exact this hRp.2
  · rw [← h.base]
    funext v
    unfold clearRange
    by_cases hv : v = np'
    · subst hv
      rw [if_pos (by omega), if_neg (by omega)]
      have h1 := tfv_eq
      have h2 := trv_eq
      exact (h.as.space.none v le_rfl (by omega) (by omega)).symm
    · rw [hold v hv]
      by_cases hc : np ≤ v ∧ v < np'
      · rw [if_pos hc, if_pos (by omega)]
      · rw [if_neg hc, if_neg (by omega)]
  · -- what was kept so far is referenced before this iteration
    have hsub : ∀ q, (R + leaves f) q ≠ 0 → (R + leaves A.leaf) q ≠ 0 := by
      intro q hq
      have := leaves_clearRange_le A.leaf np np' q
      rw [h.base] at this
      simp only [Pi.add_apply] at hq ⊢
      omega
    refine (h.keeps.trans hk1 fun q hq => ?_).trans hg.keeps fun q hq => ?_
    · have := hsub q hq
      simp only [Pi.add_apply] at this ⊢
      omega
    · have := hsub q hq
      simp only [Pi.add_apply] at this ⊢
      omega
  · intro v h1 h2
    by_cases hv : v = np'
    · subst hv
      rw [hself, hpe]
      intro y hy
      rw [hg.keeps y (by rw [hy]; simp), hz y hy]
    · have hvlt : v < np' := by omega
      rw [hold v hv]
      intro y hy
      have hpos := leaves_pos (f := A.leaf) (by omega)
        (h.as.space.user v hvlt).valid
      rw [hg.keeps y (by rw [hy]; simp only [Pi.add_apply]; omega),
        hk1 y (by rw [hy]; simp only [Pi.add_apply]; omega)]
      exact h.zero v h1 hvlt y hy
  · intro v h1 h2
    by_cases hv : v = np'
    · subst hv; rw [hself, hpe]
    · rw [hold v hv]; exact h.entry v h1 (by omega)
  · intro v h1 h2
    by_cases hv : v = np'
    · subst hv; rw [hself, hpe]; exact hRp.1
    · rw [hold v hv]; exact h.fresh v h1 (by omega)

/-- What `uvmalloc` returns: `0` with every leaf entry as before, or the new size. -/
structure Failed (L : Layout) (root : ℕ) (R : ℕ → ℕ) (f : ℕ → Word) (np tf : ℕ)
    (s s' : KState) : Prop where
  as : ∃ A', AS L s' root A' R np tf ∧ A'.leaf = f
  keeps : Keeps (R + leaves f) s s'

lemma Owns.with_fresh {p : ℕ} {s1 : KState} (h : Owns L s root A (R + leaves A.leaf))
    (hU : (R + leaves A.leaf + tabs A) p = 0) (hacct : Acct L s1 (R + leaves A.leaf + tabs A + ref p))
    (hk : Keeps (R + leaves A.leaf + tabs A) s s1) :
    Owns L s1 root A (R + ref p + leaves A.leaf) := by
  refine Owns.of_keeps h (hacct.congr fun q => ?_) hk (fun q hq => ?_) fun q hq => ?_
  · simp only [Pi.add_apply]; omega
  · have := isTab_iff.mpr hq
    simp only [Pi.add_apply]; omega
  · have h3 := h.excl q hq
    have hqp : q ≠ p := by
      rintro rfl
      have := isTab_iff.mpr hq
      simp only [Pi.add_apply] at hU
      omega
    simp only [Pi.add_apply, ref_ne hqp] at h3 ⊢
    omega

/-- No table for the fresh page: it is freed, and the address space only has more tables. -/
lemma Grown.drop_fresh {xperm : Word} {np' p : ℕ} {s0 s1 s2 s3 : KState} {A2 : PTab}
    (h : Grown L root R f xperm np tf np' A s0 s)
    (hk1 : Keeps (R + leaves A.leaf + tabs A) s s1)
    (hg : Grows L root (R + ref p + leaves A.leaf) 2 A.leaf A2 s1 s2)
    (hacct : Acct L s3 (R + leaves A.leaf + tabs A2))
    (hk3 : Keeps (R + leaves A.leaf + tabs A2) s2 s3) :
    Grown L root R f xperm np tf np' A2 s0 s3 := by
  have hown : Owns L s3 root A2 (R + leaves A2.leaf) := by
    rw [hg.leaf]
    refine Owns.of_keeps hg.owns hacct hk3 (fun q hq => ?_) fun q hq => ?_
    · have := isTab_iff.mpr hq
      simp only [Pi.add_apply]; omega
    · have := hg.owns.excl q hq
      simp only [Pi.add_apply] at this ⊢
      omega
  have hkeep : Keeps (R + leaves A.leaf) s s3 := by
    refine (hk1.mono fun q hq => ?_).trans (hg.keeps.mono (U := R + leaves A.leaf) fun q hq => ?_)
      (fun _ => id) |>.trans hk3 fun q hq => ?_
    all_goals simp only [Pi.add_apply] at hq ⊢; omega
  have hsub : ∀ q, (R + leaves f) q ≠ 0 → (R + leaves A.leaf) q ≠ 0 := by
    intro q hq
    have := leaves_clearRange_le A.leaf np np' q
    rw [h.base] at this
    simp only [Pi.add_apply] at hq ⊢
    omega
  refine ⟨⟨hown, by rw [hg.leaf]; exact h.as.space⟩, by rw [hg.leaf]; exact h.base, h.le,
    h.keeps.trans hkeep hsub, ?_, by rw [hg.leaf]; exact h.entry,
    by rw [hg.leaf]; exact h.fresh⟩
  rw [hg.leaf]
  intro v h1 h2 y hy
  have hlt := h.as.space.lt_tfv le_rfl
  have := leaves_pos (f := A.leaf) (by omega) (h.as.space.user v h2).valid
  rw [hkeep y (by rw [hy]; simp only [Pi.add_apply]; omega)]
  exact h.zero v h1 h2 y hy

lemma uvmallocLoop_spec {xperm : Word} (hx : Perm xperm) {newsz : ℕ} {s0 : KState} (n : ℕ) :
    ∀ {np' : ℕ} {A : PTab} {s : KState}, Grown L root R f xperm np tf np' A s0 s →
    np' * PGSIZE < newsz + PGSIZE → newsz + PGSIZE ≤ (np' + n) * PGSIZE →
    wp (uvmallocLoop root (np * PGSIZE) newsz xperm n (np' * PGSIZE)) (fun r s' =>
      (r = 0 ∧ Failed L root R f np tf s0 s') ∨
      (r = newsz ∧ newsz ≤ 2 ^ 27 ∧ ∃ A', Grown L root R f xperm np tf (pgs newsz) A' s0 s')) E s := by
  induction n with
  | zero => intro np' A s _ h1 h2; rw [Nat.add_zero] at h2; omega
  | succ n ih =>
      intro np' A s h hlow hfuel
      have hnp := h.as.space.np_le
      unfold uvmallocLoop
      by_cases hg : np' * PGSIZE < newsz
      · have hdiv : np' * PGSIZE / PGSIZE = np' := Nat.mul_div_cancel _ (by unfold PGSIZE; omega)
        have hnext : u64 (np' * PGSIZE + PGSIZE) = (np' + 1) * PGSIZE := by
          unfold u64 PGSIZE; omega
        have hva : np' * PGSIZE < MAXVA := by unfold MAXVA PGSIZE; omega
        rw [if_pos hg, hnext, wp_bind]
        refine wp_post (kalloc_spec h.as.owns.acct) ?_
        rintro p s1 (⟨rfl, rfl, -⟩ | ⟨hp, hU, hacct, hk, -⟩)
        · rw [if_pos rfl, wp_bind]
          refine wp_post (undo h) ?_
          rintro _ s2 ⟨A', h3, h4, h5⟩
          exact Or.inl ⟨rfl, ⟨A', h3, h4⟩, h5⟩
        · rw [if_neg hp.pos.ne', wp_bind, wp_memset, wp_bind]
          obtain ⟨hacct', hk', hz⟩ := clear_fresh hp hU hacct hk
          have hown := Owns.with_fresh h.as.owns hU hacct' hk'
          refine wp_post (mappages_spec hown (Nat.mul_mod_left _ _) hva
            (by rw [hdiv]; exact h.unmapped)) ?_
          rintro r s2 ⟨A2, ⟨rfl, -, hgr⟩ | ⟨rfl, hgr⟩⟩
          · rw [if_pos (by norm_num), wp_bind]
            refine wp_post (kfree_spec (U := R + leaves A.leaf + tabs A2)
              (hgr.owns.acct.congr fun q => by simp only [Pi.add_apply]; omega)) ?_
            rintro _ s3 ⟨h5, h6, -⟩
            rw [wp_bind]
            refine wp_post (undo (h.drop_fresh hk' hgr h5 h6)) ?_
            rintro _ s4 ⟨A', h7, h8, h9⟩
            exact Or.inl ⟨rfl, ⟨A', h7, h8⟩, h9⟩
          · rw [if_neg (by norm_num)]
            rw [hdiv] at hgr
            refine ih (h.step hx hp hU hk' hz hgr) ?_ ?_
            · rw [Nat.add_mul, Nat.one_mul]; omega
            · rw [show np' + 1 + n = np' + (n + 1) by omega]; exact hfuel
      · have hpg : np' = pgs newsz := by
          have : newsz + PGSIZE ≤ 2 ^ 64 := by unfold PGSIZE at *; omega
          rw [pgs_eq this]
          unfold PGSIZE at *
          omega
        rw [if_neg hg, wp_pure, ← hpg]
        exact Or.inr ⟨rfl, by unfold PGSIZE at hg; omega, A, h⟩

/-- One more page is taken from the free list, when there are four. -/
lemma uvmalloc_page (h : AS L s root A R np tf) (xperm : Word) :
    wp (uvmalloc root (np * PGSIZE) (np * PGSIZE + PGSIZE) xperm) (fun _ s' =>
      s'.freelist.length ≤ s.freelist.length ∧
        (4 ≤ s.freelist.length → s'.freelist.length < s.freelist.length)) E s := by
  have hnp := h.space.np_le
  have hdiv : np * PGSIZE / PGSIZE = np := Nat.mul_div_cancel _ (by unfold PGSIZE; omega)
  have hround : PGROUNDUP (np * PGSIZE) = np * PGSIZE := by
    unfold PGROUNDUP u64 PGSIZE; omega
  have hfuel : (np * PGSIZE + PGSIZE) / PGSIZE + 2 = (np + 1) + 1 + 1 := by
    unfold PGSIZE; omega
  have hnext : u64 (np * PGSIZE + PGSIZE) = np * PGSIZE + PGSIZE := by unfold u64 PGSIZE; omega
  have hva : np * PGSIZE < MAXVA := by unfold MAXVA PGSIZE; omega
  have hundo : ∀ s1 : KState, wp (do
      let _ ← uvmdealloc root (np * PGSIZE) (np * PGSIZE)
      pure 0) (fun (_ : ℕ) s' => s' = s1) E s1 := fun s1 => by
    unfold uvmdealloc
    rw [if_pos le_rfl]
    rfl
  unfold uvmalloc
  dsimp only
  rw [if_neg (by omega), hround, hfuel]
  unfold uvmallocLoop
  rw [if_pos (by unfold PGSIZE; omega), wp_bind]
  refine wp_post (kalloc_spec h.owns.acct) ?_
  rintro p s1 (⟨rfl, rfl, hempty⟩ | ⟨hp, hU, hacct, hk, hf⟩)
  · rw [if_pos rfl]
    refine wp_post (hundo s1) ?_
    rintro _ s2 rfl
    exact ⟨le_rfl, fun h4 => by rw [hempty] at h4; simp at h4⟩
  · have hlen1 : s.freelist.length = s1.freelist.length + 1 := by rw [hf]; rfl
    obtain ⟨hacct', hk', -⟩ := clear_fresh hp hU hacct hk
    have hg : Grown L root R A.leaf xperm np tf np A s s := Grown.refl h
    have hno := hg.unmapped
    rw [if_neg hp.pos.ne', wp_bind, wp_memset, wp_bind]
    refine wp_post (mappages_spec (Owns.with_fresh h.owns hU hacct' hk') (Nat.mul_mod_left _ _)
      hva (by rw [hdiv]; exact hno)) ?_
    rintro r s2 ⟨A2, ⟨rfl, hempty, hgr⟩ | ⟨rfl, hgr⟩⟩
    · obtain ⟨ps, hps, hle⟩ := hgr.taken
      rw [hempty, List.append_nil] at hps
      have hl := congrArg List.length hps
      dsimp only at hl
      rw [if_pos (by norm_num), wp_bind]
      refine wp_post (kfree_spec (U := R + leaves A.leaf + tabs A2)
        (hgr.owns.acct.congr fun q => by simp only [Pi.add_apply]; omega)) ?_
      rintro _ s3 ⟨-, -, hf3⟩
      refine wp_post (hundo s3) ?_
      rintro _ s4 rfl
      rw [hempty] at hf3
      have h3 : s4.freelist.length ≤ 1 := by
        rw [hf3]; split_ifs <;> simp
      exact ⟨by omega, fun h4 => by omega⟩
    · obtain ⟨ps, hps, -⟩ := hgr.taken
      have hl := congrArg List.length hps
      rw [List.length_append] at hl
      dsimp only at hl
      rw [if_neg (by norm_num), hnext]
      unfold uvmallocLoop
      rw [if_neg (by omega), wp_pure]
      exact ⟨by omega, fun _ => by omega⟩

/-- **`uvmalloc`**: to a smaller size it does nothing; otherwise it adds zeroed pages up to
`newsz`, or it returns `0` with every leaf entry as before. -/
lemma uvmalloc_spec {xperm : Word} (hx : Perm xperm) {oldsz newsz : ℕ}
    (h : AS L s root A R (pgs oldsz) tf) (hold : oldsz < 2 ^ 63) :
    wp (uvmalloc root oldsz newsz xperm) (fun r s' =>
      (newsz < oldsz ∧ r = oldsz ∧ s' = s) ∨
      (oldsz ≤ newsz ∧ r = 0 ∧ Failed L root R A.leaf (pgs oldsz) tf s s') ∨
      (oldsz ≤ newsz ∧ r = newsz ∧ newsz ≤ 2 ^ 27 ∧
        ∃ A', Grown L root R A.leaf xperm (pgs oldsz) tf (pgs newsz) A' s s')) E s := by
  unfold uvmalloc
  by_cases hlt : newsz < oldsz
  · rw [if_pos hlt, wp_pure]
    exact Or.inl ⟨hlt, rfl, rfl⟩
  · rw [if_neg hlt]
    simp only [roundup_eq]
    refine wp_post (uvmallocLoop_spec hx _ (Grown.refl h) ?_ ?_) ?_
    · rw [pgs_eq (by unfold PGSIZE; omega)]; unfold PGSIZE; omega
    · unfold PGSIZE; omega
    · rintro r s' (⟨hr, hf⟩ | ⟨hr, hg⟩)
      · exact Or.inr (Or.inl ⟨by omega, hr, hf⟩)
      · exact Or.inr (Or.inr ⟨by omega, hr, hg⟩)

end Xv6.Grow
