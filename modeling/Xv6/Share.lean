import Xv6.Cow

/-!
Sharing the pages of an address space with a child (`uvmcopy`).

Two page tables change at once: the parent's writable entries become copy-on-write and the
child gets an entry for the same page, whose count goes up by one. `Pair` holds both address
spaces, each one counting the other among its outside references. When a table for the child
cannot be allocated, the child's entries are removed again; the parent keeps the entries already
marked copy-on-write.
-/

namespace Xv6.Share

open Xv6.ByteMem Xv6.Riscv Xv6.Kalloc Xv6.Vm Xv6.Wp Xv6.PageTable Xv6.Walk Xv6.Unmap
open Xv6.AddrSpace Xv6.Grow Xv6.Cow

variable {L : Layout} {old new : ℕ} {A B : PTab} {s s' s0 : KState} {R U W : ℕ → ℕ}
  {E : Panic → Prop} {f : ℕ → Word} {np n tf tf' : ℕ} {e : Word} {v p : ℕ}

/-! ### Shared entries -/

/-- The flags both entries get. -/
def shareFlags (e : Word) : Word :=
  if has (PTE_FLAGS e) PTE_W then (PTE_FLAGS e &&& ~~~PTE_W) ||| PTE_COW else PTE_FLAGS e

/-- The parent's entry afterwards. -/
def parentEntry (e : Word) : Word :=
  if has (PTE_FLAGS e) PTE_W then PA2PTE (PTE2PA e) ||| shareFlags e else e

def childEntry (e : Word) : Word := PA2PTE (PTE2PA e) ||| shareFlags e ||| PTE_V

lemma has_flags_W (e : Word) : has (PTE_FLAGS e) PTE_W = e.getLsbD 2 := by
  rw [has_W, getLsbD_flags]; simp

lemma isFlags_share (e : Word) : IsFlags (shareFlags e) := by
  unfold shareFlags
  split_ifs
  · exact isFlags_or (isFlags_and (isFlags_flags e) _) isFlags_COW
  · exact isFlags_flags e

lemma shareFlags_bit (e : Word) {k : ℕ} (hk : k < 10) :
    (shareFlags e).getLsbD k =
      ((e.getLsbD k && decide (k ≠ 2)) || (e.getLsbD 2 && decide (k = 5))) := by
  unfold shareFlags
  rw [has_flags_W]
  cases hW : e.getLsbD 2
  · rw [if_neg (by simp), getLsbD_flags]
    by_cases h2 : k = 2
    · subst h2; rw [hW]; rfl
    · simp [hk, h2]
  · rw [if_pos rfl, BitVec.getLsbD_or, BitVec.getLsbD_and, getLsbD_flags, BitVec.getLsbD_not]
    interval_cases k <;> simp [PTE_COW, PTE_W]

lemma parentEntry_bit (he : UserLeaf L e) {k : ℕ} (hk : k < 10) :
    (parentEntry e).getLsbD k = (shareFlags e).getLsbD k := by
  unfold parentEntry
  split_ifs with hW
  · exact getLsbD_mk he.range.lt hk
  · unfold shareFlags
    rw [if_neg hW, getLsbD_flags]; simp [hk]

lemma parentEntry_pa (he : UserLeaf L e) : PTE2PA (parentEntry e) = PTE2PA e := by
  unfold parentEntry
  split_ifs
  · exact pte2pa_mk he.range.lt he.range.1 (isFlags_share e)
  · rfl

lemma childEntry_bit (he : UserLeaf L e) {k : ℕ} (hk : k < 10) :
    (childEntry e).getLsbD k = (shareFlags e).getLsbD k := by
  have hV := he.valid
  rw [has_V] at hV
  unfold childEntry
  rw [BitVec.or_assoc, getLsbD_mk he.range.lt hk, BitVec.getLsbD_or]
  by_cases h0 : k = 0
  · subst h0
    rw [shareFlags_bit e (by omega), hV]; rfl
  · have : PTE_V.getLsbD k = false := by interval_cases k <;> first | omega | rfl
    rw [this, Bool.or_false]

lemma childEntry_pa (he : UserLeaf L e) : PTE2PA (childEntry e) = PTE2PA e := by
  unfold childEntry
  rw [BitVec.or_assoc]
  exact pte2pa_mk he.range.lt he.range.1 (isFlags_or (isFlags_share e) isFlags_V)

lemma user_of_share {e' : Word} (he : UserLeaf L e) (hpa : PTE2PA e' = PTE2PA e)
    (hbit : ∀ k < 10, e'.getLsbD k = (shareFlags e).getLsbD k) :
    UserLeaf L e' ∧ has e' PTE_W = false := by
  have hV := he.valid
  have hR := he.readable
  rw [has_V] at hV
  rw [has_R] at hR
  have hW : has e' PTE_W = false := by
    rw [has_W, hbit 2 (by omega), shareFlags_bit e (by omega)]; simp
  refine ⟨⟨by rw [hpa]; exact he.range, ?_, ?_, fun hc => ?_⟩, hW⟩
  · rw [has_V, hbit 0 (by omega), shareFlags_bit e (by omega), hV]; rfl
  · rw [has_R, hbit 1 (by omega), shareFlags_bit e (by omega), hR]; rfl
  · rw [hW] at hc; cases hc

lemma parentEntry_user (he : UserLeaf L e) :
    UserLeaf L (parentEntry e) ∧ has (parentEntry e) PTE_W = false :=
  user_of_share he (parentEntry_pa he) fun _ => parentEntry_bit he

lemma childEntry_user (he : UserLeaf L e) :
    UserLeaf L (childEntry e) ∧ has (childEntry e) PTE_W = false :=
  user_of_share he (childEntry_pa he) fun _ => childEntry_bit he

/-! ### Two address spaces -/

structure Pair (L : Layout) (s : KState) (old : ℕ) (A : PTab) (np tf new : ℕ) (B : PTab)
    (n tf' : ℕ) (R : ℕ → ℕ) : Prop where
  parent : AS L s old A (R + tabs B + leaves B.leaf) np tf
  child : AS L s new B (R + tabs A + leaves A.leaf) n tf'

/-- After `n` pages: `f` are the parent's entries at the start and `W` counts its tables. -/
structure Shared (L : Layout) (old np tf new tf' : ℕ) (R : ℕ → ℕ) (f : ℕ → Word) (W : ℕ → ℕ)
    (n : ℕ) (A B : PTab) (s0 s : KState) : Prop where
  pair : Pair L s old A np tf new B n tf' R
  tabs : tabs A = W
  low : ∀ v < n, A.leaf v = parentEntry (f v) ∧ B.leaf v = childEntry (f v)
  high : ∀ v, n ≤ v → A.leaf v = f v
  le : n ≤ np
  user : ∀ v < np, UserLeaf L (f v)
  keeps : Keeps (R + leaves f) s0 s
  free : s0.freelist.length ≤ s.freelist.length + 2 * n

lemma leaves_congr {g : ℕ → Word} (h : ∀ v < TFV, ∀ p, Maps (g v) p ↔ Maps (f v) p) :
    leaves g = leaves f := by
  funext p
  unfold leaves
  congr 1
  ext v
  exact and_congr_right fun hv => h v hv p

lemma maps_parentEntry (he : UserLeaf L e) : Maps (parentEntry e) p ↔ Maps e p := by
  unfold Maps
  rw [(parentEntry_user he).1.valid, he.valid, parentEntry_pa he]

lemma Shared.leaves_parent (h : Shared L old np tf new tf' R f W n A B s0 s) :
    leaves A.leaf = leaves f := by
  refine leaves_congr fun v _ p => ?_
  by_cases hv : v < n
  · rw [(h.low v hv).1]
    exact maps_parentEntry (h.user v (by have := h.le; omega))
  · rw [h.high v (by omega)]

lemma Shared.leaves_child (h : Shared L old np tf new tf' R f W n A B s0 s) {q : ℕ}
    (hq : leaves f q = 0) : leaves B.leaf q = 0 := by
  by_contra hc
  obtain ⟨v, hv, hm⟩ := leaves_ne_zero.mp hc
  have h1 := tfv_eq
  have h2 := trv_eq
  have hvn : v < n := by
    rcases (h.pair.child.space.valid_iff v).mp hm.1 with h3 | h3 | h3 <;> omega
  have he := h.user v (by have := h.le; omega)
  have := leaves_pos (f := f) hv he.valid
  rw [← childEntry_pa he, ← (h.low v hvn).2, hm.2] at this
  exact this hq

/-- Marking the parent's entry. -/
lemma Pair.mark (h : Pair L s old A np tf new B n tf' R) (hv : v < np) :
    Pair L { s with mem := st64 s.mem (pteAddr A (v * PGSIZE)) (parentEntry (A.leaf v)) } old
      (setLeaf A v (parentEntry (A.leaf v))) np tf new B n tf' R ∧
    Keeps (R + leaves A.leaf) s
      { s with mem := st64 s.mem (pteAddr A (v * PGSIZE)) (parentEntry (A.leaf v)) } := by
  have hdiv : v * PGSIZE / PGSIZE = v := Nat.mul_div_cancel _ (by unfold PGSIZE; omega)
  have he := h.parent.space.user v hv
  have hne : pteAddr A (v * PGSIZE) ≠ 0 :=
    pteAddr_ne_zero h.parent.owns.wf (by rw [hdiv]; exact valid_ne_zero he.valid)
  obtain ⟨h1, hk1⟩ := h.parent.owns.st_leaf hne (parentEntry (A.leaf v))
  rw [hdiv] at h1
  have hl : leaves (setLeaf A v (parentEntry (A.leaf v))).leaf = leaves A.leaf := by
    refine leaves_congr fun w _ p => ?_
    simp only [setLeaf]
    by_cases hw : w = v
    · subst hw; rw [Function.update_self]; exact maps_parentEntry he
    · rw [Function.update_of_ne hw]
  have ht : tabs (setLeaf A v (parentEntry (A.leaf v))) = tabs A := rfl
  refine ⟨⟨⟨by rw [hl]; exact h1, ?_⟩, ?_⟩, hk1.mono fun q hq => ?_⟩
  · refine Space.replace h.parent.space hv (parentEntry_user he).1 fun w hw hwv hc => ?_
    rw [parentEntry_pa he] at hc
    exact hwv (h.parent.space.inj w hw v hv hc)
  · refine ⟨?_, h.child.space⟩
    rw [ht, hl]
    refine Owns.of_keeps h.child.owns (h.child.owns.acct.of_mem rfl rfl) hk1 (fun q hq => ?_)
      h.child.owns.excl
    have := isTab_iff.mpr hq
    simp only [Pi.add_apply]; omega
  · simp only [Pi.add_apply] at hq ⊢; omega

lemma Pair.of_child {B' : PTab} {n' : ℕ} (h : Pair L s old A np tf new B n tf' R)
    (hB : AS L s' new B' (R + tabs A + leaves A.leaf) n' tf')
    (hk : Keeps (R + tabs A + leaves A.leaf) s s') (hl : ∀ q, IsTab A q → leaves B'.leaf q = 0) :
    Pair L s' old A np tf new B' n' tf' R := by
  refine ⟨⟨Owns.of_keeps h.parent.owns (hB.owns.acct.congr fun q => ?_) hk (fun q hq => ?_)
    fun q hq => ?_, h.parent.space⟩, hB⟩
  · simp only [Pi.add_apply]; omega
  · have := isTab_iff.mpr hq
    simp only [Pi.add_apply]; omega
  · have h1 := h.parent.owns.excl q hq
    have h2 : tabs B' q = 0 := by
      by_contra hc
      have h3 := hB.owns.excl q (isTab_iff.mp hc)
      have h4 := isTab_iff.mpr hq
      simp only [Pi.add_apply] at h3
      omega
    have h3 := hl q hq
    simp only [Pi.add_apply] at h1 ⊢
    omega

lemma Pair.not_leaf (h : Pair L s old A np tf new B n tf' R) {q : ℕ} (hq : IsTab A q) :
    leaves B.leaf q = 0 ∧ leaves A.leaf q = 0 := by
  have := h.parent.owns.excl q hq
  simp only [Pi.add_apply] at this
  omega

lemma Pair.grow {B' : PTab} (h : Pair L s old A np tf new B n tf' R)
    (hg : Grows L new (R + tabs A + leaves A.leaf + leaves B.leaf) 2 B.leaf B' s s') :
    Pair L s' old A np tf new B' n tf' R := by
  refine h.of_child ⟨by rw [hg.leaf]; exact hg.owns, by rw [hg.leaf]; exact h.child.space⟩
    (hg.keeps.mono fun q hq => ?_) fun q hq => by rw [hg.leaf]; exact (h.not_leaf hq).1
  simp only [Pi.add_apply] at hq ⊢; omega

/-- The child's new entry is counted. -/
lemma Pair.extend {s1 : KState} {B' : PTab} (h : Pair L s old A np tf new B n tf' R)
    (hn : n < np) (he : UserLeaf L e) (hpa : PTE2PA e = PTE2PA (A.leaf n))
    (hinj : ∀ v < n, PTE2PA (B.leaf v) = PTE2PA (A.leaf v))
    (hg : Grows L new (R + tabs A + leaves A.leaf + leaves B.leaf) 2 (Function.update B.leaf n e)
      B' s s1)
    (hacct : Acct L s' (R + tabs A + leaves A.leaf + leaves B.leaf + tabs B' + ref (PTE2PA e)))
    (hmem : s'.mem = s1.mem) : Pair L s' old A np tf new B' (n + 1) tf' R := by
  have hsp := h.parent.space
  have hlt := hsp.lt_tfv hn.le
  have hunm : has (B.leaf n) PTE_V = false := by
    have h1 := tfv_eq
    have h2 := trv_eq
    rw [h.child.space.none n le_rfl (by omega) (by omega), has_zero]
  have hleaves : leaves B'.leaf = leaves B.leaf + ref (PTE2PA e) := by
    rw [hg.leaf]; exact leaves_set hlt hunm ⟨he.valid, rfl⟩
  have hpos : leaves A.leaf (PTE2PA e) ≠ 0 := by
    rw [hpa]; exact leaves_pos hlt (hsp.user n hn).valid
  refine h.of_child ⟨⟨hg.owns.wf, by rw [hmem]; exact hg.owns.rep, ?_, fun q hq => ?_⟩, ?_⟩
    (fun x hx => ?_) fun q hq => ?_
  · refine hacct.congr fun q => ?_
    rw [hleaves]; simp only [Pi.add_apply]; omega
  · have h1 := hg.owns.excl q hq
    have hne : q ≠ PTE2PA e := by
      rintro rfl
      simp only [Pi.add_apply] at h1; omega
    rw [hleaves]
    simp only [Pi.add_apply, ref_ne hne] at h1 ⊢
    omega
  · rw [hg.leaf]
    refine Space.extend h.child.space he fun w hw hc => ?_
    rw [hinj w hw, hpa] at hc
    have := hsp.inj w (by omega) n hn hc
    omega
  · rw [hmem]
    refine hg.keeps x ?_
    simp only [Pi.add_apply] at hx ⊢; omega
  · obtain ⟨h1, h2⟩ := h.not_leaf hq
    have hne : q ≠ PTE2PA e := by rintro rfl; exact hpos h2
    rw [hleaves, Pi.add_apply, ref_ne hne]; omega

/-! ### `uvmcopy` -/

/-- A failed copy: the child is empty again, some entries of the parent are marked. -/
structure Unshared (L : Layout) (old np tf new tf' : ℕ) (R : ℕ → ℕ) (f : ℕ → Word) (W : ℕ → ℕ)
    (s0 s : KState) : Prop where
  out : ∃ A B, Pair L s old A np tf new B 0 tf' R ∧ tabs A = W ∧ leaves A.leaf = leaves f ∧
    (∀ v < np, A.leaf v = f v ∨ A.leaf v = parentEntry (f v)) ∧ leaves B.leaf = 0
  keeps : Keeps (R + leaves f) s0 s
  free : s0.freelist.length ≤ 2 * np

/-- The rest of an iteration, once the parent's entry is marked. -/
lemma share_page {cont : K ℤ} {Q : ℤ → KState → Prop}
    (h : Pair L s old A np tf new B n tf' R) (htab : tabs A = W) (hn : n < np)
    (hf : ∀ v < np, UserLeaf L (f v))
    (hlow : ∀ v < n, B.leaf v = childEntry (f v)) (hA : ∀ v ≤ n, A.leaf v = parentEntry (f v))
    (hhigh : ∀ v, n < v → A.leaf v = f v) (hk : Keeps (R + leaves f) s0 s)
    (hfree : s0.freelist.length ≤ s.freelist.length + 2 * n)
    (hfail : ∀ s', Unshared L old np tf new tf' R f W s0 s' → Q (-1) s')
    (hcont : ∀ s' B', Shared L old np tf new tf' R f W (n + 1) A B' s0 s' → wp cont Q E s') :
    wp (do
        let r ← mappages new (n * PGSIZE) PGSIZE (PTE2PA (f n)) (shareFlags (f n))
        if r ≠ 0 then do
          uvmunmap new 0 n true
          pure (-1)
        else do
          check_and_increment (PTE2PA (f n) / PGSIZE)
          cont) Q E s := by
  have hdiv : n * PGSIZE / PGSIZE = n := Nat.mul_div_cancel _ (by unfold PGSIZE; omega)
  have hsp := h.parent.space
  have hnp := hsp.np_le
  have hlt := hsp.lt_tfv hn.le
  have hva : n * PGSIZE < MAXVA := by unfold MAXVA PGSIZE; omega
  have hleaf : leaves A.leaf = leaves f := by
    refine leaves_congr fun v _ p => ?_
    by_cases hv : v ≤ n
    · rw [hA v hv]; exact maps_parentEntry (hf v (by omega))
    · rw [hhigh v (by omega)]
  have hmarked : ∀ v < np, A.leaf v = f v ∨ A.leaf v = parentEntry (f v) := fun v _ => by
    by_cases hv : v ≤ n
    · exact Or.inr (hA v hv)
    · exact Or.inl (hhigh v (by omega))
  have hunm : has (B.leaf n) PTE_V = false := by
    have h1 := tfv_eq
    have h2 := trv_eq
    rw [h.child.space.none n le_rfl (by omega) (by omega), has_zero]
  rw [wp_bind]
  refine wp_post (mappages_spec h.child.owns (Nat.mul_mod_left _ _) hva
    (by rw [hdiv]; exact hunm)) ?_
  rintro r s1 ⟨B1, ⟨rfl, hempty, hg⟩ | ⟨rfl, hg⟩⟩
  · -- no table for the child
    obtain ⟨ps, hps, hlen⟩ := hg.taken
    have h1 := h.grow hg
    rw [if_pos (by norm_num), wp_bind]
    have hun := h1.child.unmap_from (E := E) (Nat.zero_le n)
    rw [Nat.zero_mul, Nat.sub_zero] at hun
    refine wp_post hun ?_
    rintro _ s2 ⟨h2, hk2⟩
    rw [wp_pure]
    have hB2 : leaves (clearRange B1.leaf 0 n) = 0 := by
      funext q
      by_contra hc
      obtain ⟨v, hv, hm⟩ := leaves_ne_zero.mp hc
      have h3 := (h2.space.valid_iff v).mp hm.1
      have h4 := tfv_eq
      have h5 := trv_eq
      omega
    refine hfail s2 ⟨⟨A, _, h1.of_child h2 (hk2.mono fun q hq => ?_) fun q hq => ?_, htab,
      hleaf, hmarked, hB2⟩, ?_, ?_⟩
    · simp only [Pi.add_apply] at hq ⊢; omega
    · exact congrFun hB2 q
    · refine (hk.trans hg.keeps fun q hq => ?_).trans hk2 fun q hq => ?_
      all_goals rw [hleaf]; simp only [Pi.add_apply] at hq ⊢; omega
    · rw [hempty, List.append_nil] at hps
      rw [hps] at hfree
      omega
  · obtain ⟨ps, hps, hlen⟩ := hg.taken
    rw [hdiv] at hg
    have he := hf n hn
    have hchild : PA2PTE (PTE2PA (f n)) ||| shareFlags (f n) ||| PTE_V = childEntry (f n) := rfl
    rw [hchild] at hg
    have hpos : leaves A.leaf (PTE2PA (f n)) ≠ 0 := by
      rw [hleaf]; exact leaves_pos hlt he.valid
    rw [if_neg (by norm_num), wp_bind]
    refine wp_post (check_and_increment_spec hg.owns.acct ?_) ?_
    · simp only [Pi.add_apply]; omega
    · rintro _ s2 ⟨hacct, hmem, hfl⟩
      have hpa : PTE2PA (A.leaf n) = PTE2PA (f n) := by
        rw [hA n le_rfl]; exact parentEntry_pa he
      refine hcont s2 B1 ⟨h.extend hn (childEntry_user he).1 ?_ (fun v hv => ?_) hg ?_ hmem, htab,
        fun v hv => ⟨hA v (by omega), ?_⟩, fun v hv => hhigh v (by omega), hn, hf, ?_, ?_⟩
      · rw [childEntry_pa he, hpa]
      · rw [hlow v hv, hA v (by omega), childEntry_pa (hf v (by omega)),
          parentEntry_pa (hf v (by omega))]
      · rw [childEntry_pa he]; exact hacct
      · rw [hg.leaf]
        by_cases hvn : v = n
        · subst hvn; rw [Function.update_self]
        · rw [Function.update_of_ne hvn]; exact hlow v (by omega)
      · intro x hx
        rw [hmem, hg.keeps x ?_]
        · exact hk x hx
        · rw [hleaf]; simp only [Pi.add_apply] at hx ⊢; omega
      · rw [hps, List.length_append] at hfree
        rw [hfl]
        omega

/-- The loop of `uvmcopy`, by induction on the iterations left. -/
lemma uvmcopyLoop_spec {sz : ℕ} (hsz : sz < 2 ^ 63) (k : ℕ) : ∀ {n : ℕ} {A B : PTab} {s : KState},
    Shared L old (pgs sz) tf new tf' R f W n A B s0 s → sz + PGSIZE ≤ (n + k) * PGSIZE →
    wp (uvmcopyLoop old new sz k (n * PGSIZE)) (fun r s' =>
      (r = 0 ∧ ∃ A' B', Shared L old (pgs sz) tf new tf' R f W (pgs sz) A' B' s0 s') ∨
      (r = -1 ∧ Unshared L old (pgs sz) tf new tf' R f W s0 s')) E s := by
  have hpgs : pgs sz = (sz + 4095) / 4096 := pgs_eq (by unfold PGSIZE; omega)
  induction k with
  | zero =>
      intro n A B s h hk
      have := h.le
      unfold PGSIZE at hk
      omega
  | succ k ih =>
      intro n A B s h hk
      have hle := h.le
      unfold uvmcopyLoop
      dsimp only
      by_cases hn : n * PGSIZE < sz
      · have hlt : n < pgs sz := by unfold PGSIZE at hn; omega
        have hsp := h.pair.parent.space
        have hnp := hsp.np_le
        have hdiv : n * PGSIZE / PGSIZE = n := Nat.mul_div_cancel _ (by unfold PGSIZE; omega)
        have hva : n * PGSIZE < MAXVA := by unfold MAXVA PGSIZE; omega
        have hnext : u64 (n * PGSIZE + PGSIZE) = (n + 1) * PGSIZE := by
          unfold u64 PGSIZE; omega
        have he := h.user n hlt
        have heq : A.leaf n = f n := h.high n le_rfl
        have hne : pteAddr A (n * PGSIZE) ≠ 0 := pteAddr_ne_zero h.pair.parent.owns.wf
          (by rw [hdiv, heq]; exact valid_ne_zero he.valid)
        have hcont : ∀ s' A' B', Shared L old (pgs sz) tf new tf' R f W (n + 1) A' B' s0 s' →
            wp (uvmcopyLoop old new sz k (u64 (n * PGSIZE + PGSIZE))) (fun r s' =>
              (r = 0 ∧ ∃ A' B', Shared L old (pgs sz) tf new tf' R f W (pgs sz) A' B' s0 s') ∨
              (r = -1 ∧ Unshared L old (pgs sz) tf new tf' R f W s0 s')) E s' := by
          intro s' A' B' h'
          rw [hnext]
          refine ih h' ?_
          rw [show n + 1 + k = n + (k + 1) by omega]
          exact hk
        rw [if_pos hn, wp_bind,
          wp_of_run (walk_read h.pair.parent.owns.wf h.pair.parent.owns.rep hva), if_neg hne,
          wp_bind, wp_ld, ld_pteAddr h.pair.parent.owns.rep hne, hdiv, heq, he.valid,
          if_neg (by simp)]
        by_cases hW : has (PTE_FLAGS (f n)) PTE_W = true
        · have hfl : (PTE_FLAGS (f n) &&& ~~~PTE_W) ||| PTE_COW = shareFlags (f n) :=
            (if_pos hW).symm
          have hpe : PA2PTE (PTE2PA (f n)) ||| shareFlags (f n) = parentEntry (f n) :=
            (if_pos hW).symm
          obtain ⟨h1, hk1⟩ := h.pair.mark hlt
          rw [heq] at h1 hk1
          rw [if_pos hW, if_pos hW, wp_bind, wp_st, hfl, hpe]
          refine share_page h1 h.tabs hlt h.user (fun v hv => (h.low v hv).2) (fun v hv => ?_)
            (fun v hv => ?_) (h.keeps.trans hk1 fun q hq => ?_) h.free
            (fun s' hs' => Or.inr ⟨rfl, hs'⟩) fun s' B' h' => hcont s' _ B' h'
          · simp only [setLeaf]
            by_cases hvn : v = n
            · rw [hvn, Function.update_self]
            · rw [Function.update_of_ne hvn]; exact (h.low v (by omega)).1
          · simp only [setLeaf]
            rw [Function.update_of_ne (by omega)]; exact h.high v (by omega)
          · rw [h.leaves_parent]; exact hq
        · have hfl : PTE_FLAGS (f n) = shareFlags (f n) := (if_neg hW).symm
          rw [if_neg hW, if_neg hW]
          rw [hfl]
          refine share_page h.pair h.tabs hlt h.user (fun v hv => (h.low v hv).2) (fun v hv => ?_)
            (fun v hv => h.high v (by omega)) h.keeps h.free
            (fun s' hs' => Or.inr ⟨rfl, hs'⟩) fun s' B' h' => hcont s' _ B' h'
          by_cases hvn : v = n
          · rw [hvn, heq]; exact (if_neg hW).symm
          · exact (h.low v (by omega)).1
      · have hnn : n = pgs sz := by unfold PGSIZE at hn; omega
        rw [if_neg hn, wp_pure]
        refine Or.inl ⟨rfl, A, B, ?_⟩
        rw [← hnn] at h ⊢
        exact h

/-- **`uvmcopy`** shares every user page of the parent with the child, or fails for want of
tables and leaves the child without user pages. -/
lemma uvmcopy_spec {sz : ℕ} (hsz : sz < 2 ^ 63)
    (h : Pair L s old A (pgs sz) tf new B 0 tf' R) :
    wp (uvmcopy old new sz) (fun r s' =>
      (r = 0 ∧ ∃ A' B', Shared L old (pgs sz) tf new tf' R A.leaf (tabs A) (pgs sz) A' B' s s') ∨
      (r = -1 ∧ Unshared L old (pgs sz) tf new tf' R A.leaf (tabs A) s s')) E s := by
  have h0 : Shared L old (pgs sz) tf new tf' R A.leaf (tabs A) 0 A B s s :=
    ⟨h, rfl, fun v hv => by omega, fun _ _ => rfl, Nat.zero_le _, h.parent.space.user, Keeps.refl,
      le_rfl⟩
  have := uvmcopyLoop_spec (E := E) hsz (sz / PGSIZE + 2) h0 (by unfold PGSIZE; omega)
  rw [Nat.zero_mul] at this
  exact this

end Xv6.Share
