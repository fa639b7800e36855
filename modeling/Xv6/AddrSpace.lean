import Xv6.Freewalk

/-!
User address spaces: the page table of a process holds its `np` user pages from address 0, the
trapframe and the trampoline, and nothing else.

`AS L s root A R np tf` puts this together with the accounting: `R` counts the references that
are neither to a table of `A` nor from one of its user leaf entries. Each function of `vm.c`
that changes an address space is specified in this form.
-/

namespace Xv6.AddrSpace

open Xv6.ByteMem Xv6.Riscv Xv6.Kalloc Xv6.Vm Xv6.Wp Xv6.PageTable Xv6.Walk Xv6.Unmap
open Xv6.Freewalk

/-- The number of pages that `sz` bytes take. -/
def pgs (sz : ℕ) : ℕ := PGROUNDUP sz / PGSIZE

/-- A leaf entry of user memory. -/
structure UserLeaf (L : Layout) (e : Word) : Prop where
  range : InRange L (PTE2PA e)
  valid : has e PTE_V = true
  readable : has e PTE_R = true
  w_or_cow : has e PTE_W = true → has e PTE_COW = false

/-- The leaf entries `f` of an address space with `np` user pages and trapframe `tf`. -/
structure Space (L : Layout) (f : ℕ → Word) (np tf : ℕ) : Prop where
  user : ∀ v < np, UserLeaf L (f v)
  trapframe : f TFV = PA2PTE tf ||| (PTE_R ||| PTE_W) ||| PTE_V
  trampoline : f TRV = PA2PTE L.trampoline ||| (PTE_R ||| PTE_X) ||| PTE_V
  none : ∀ v, np ≤ v → v ≠ TFV → v ≠ TRV → f v = 0
  inj : ∀ v < np, ∀ w < np, PTE2PA (f v) = PTE2PA (f w) → v = w
  tf_range : InRange L tf

structure AS (L : Layout) (s : KState) (root : ℕ) (A : PTab) (R : ℕ → ℕ) (np tf : ℕ) : Prop where
  owns : Owns L s root A (R + leaves A.leaf)
  space : Space L A.leaf np tf

/-- A writable page is referenced by nothing else. -/
def Priv (R : ℕ → ℕ) (f : ℕ → Word) (np : ℕ) : Prop :=
  ∀ v < np, has (f v) PTE_W = true → R (PTE2PA (f v)) = 0

/-- From `f` to `g`, no page that others reference gains a mapping. -/
def NoNew (R : ℕ → ℕ) (f g : ℕ → Word) : Prop := ∀ p, R p ≠ 0 → leaves g p ≤ leaves f p

variable {L : Layout} {root : ℕ} {A : PTab} {s s' : KState} {R : ℕ → ℕ} {E : Panic → Prop}
  {f : ℕ → Word} {np tf : ℕ} {e : Word}

lemma NoNew.refl : NoNew R f f := fun _ _ => le_rfl

lemma NoNew.trans {g h : ℕ → Word} (h1 : NoNew R f g) (h2 : NoNew R g h) : NoNew R f h :=
  fun p hp => (h2 p hp).trans (h1 p hp)

/-! ### Sizes -/

lemma pgs_eq {sz : ℕ} (h : sz + PGSIZE ≤ 2 ^ 64) : pgs sz = (sz + 4095) / 4096 := by
  unfold pgs PGROUNDUP u64 PGSIZE at *; omega

lemma roundup_eq (sz : ℕ) : PGROUNDUP sz = pgs sz * PGSIZE := by
  unfold pgs PGROUNDUP PGSIZE; omega

lemma roundup_aligned (sz : ℕ) : PGROUNDUP sz % PGSIZE = 0 := by
  rw [roundup_eq]; exact Nat.mul_mod_left _ _

lemma intU64_toInt {n : ℕ} (h : n < 2 ^ 31) : intU64 (toInt n) = n := by
  have h1 : u32 n = n := by unfold u32; omega
  unfold intU64 toInt
  rw [h1, if_pos h]
  omega

lemma Space.np_le (h : Space L f np tf) : np ≤ 2 ^ 15 := by
  have hmap : ∀ v ∈ Finset.range np, PTE2PA (f v) / PGSIZE ∈ Finset.Ico (2 ^ 19) (2 ^ 19 + 2 ^ 15) := by
    intro v hv
    have hr := (h.user v (Finset.mem_range.mp hv)).range
    have h1 := hr.2.1
    have h2 := hr.2.2
    have h3 := L.tramp_ge
    have h4 := L.tramp_lt
    have h5 := endp_le_lo L
    rw [Finset.mem_Ico]
    unfold PHYSTOP KERNBASE PGSIZE at *
    omega
  have hinj : Set.InjOn (fun v => PTE2PA (f v) / PGSIZE) (Finset.range np) := by
    intro v hv w hw he
    have hv' := Finset.mem_range.mp (Finset.mem_coe.mp hv)
    have hw' := Finset.mem_range.mp (Finset.mem_coe.mp hw)
    exact h.inj v hv' w hw' (pageno_inj (h.user v hv').range.1 (h.user w hw').range.1 he)
  have := Finset.card_le_card_of_injOn _ hmap hinj
  simpa using this

lemma Space.lt_tfv (h : Space L f np tf) {v : ℕ} (hv : v ≤ np) : v < TFV := by
  have := h.np_le
  rw [tfv_eq]; omega

/-! ### Leaf entries -/

lemma UserLeaf.isLeaf (h : UserLeaf L e) : IsLeaf e := by
  refine ⟨h.valid, fun hc => ?_⟩
  have h1 := h.readable
  rw [has_R] at h1
  have h2 : (PTE_FLAGS e).getLsbD 1 = true := by rw [getLsbD_flags, h1]; rfl
  rw [hc] at h2
  cases h2

lemma isFlags_or {f g : Word} (hf : IsFlags f) (hg : IsFlags g) : IsFlags (f ||| g) := by
  intro k hk
  rw [BitVec.getLsbD_or, hf k hk, hg k hk]; rfl

lemma isFlags_bit {k : ℕ} (hk : k < 10) : IsFlags (1#64 <<< k) := by
  intro i hi
  rw [BitVec.getLsbD_shiftLeft, BitVec.getLsbD_one]
  simp; omega

lemma isFlags_R : IsFlags PTE_R := isFlags_bit (by omega)
lemma isFlags_W : IsFlags PTE_W := isFlags_bit (by omega)
lemma isFlags_X : IsFlags PTE_X := isFlags_bit (by omega)
lemma isFlags_U : IsFlags PTE_U := isFlags_bit (by omega)
lemma isFlags_COW : IsFlags PTE_COW := isFlags_bit (by omega)

lemma Space.isLeaf_trapframe (h : Space L f np tf) : IsLeaf (f TFV) := by
  rw [h.trapframe, BitVec.or_assoc]
  have hfl : IsFlags (PTE_R ||| PTE_W ||| PTE_V) :=
    isFlags_or (isFlags_or isFlags_R isFlags_W) isFlags_V
  refine ⟨?_, ?_⟩
  · rw [has_V, getLsbD_mk h.tf_range.lt (by omega)]; rfl
  · rw [flags_mk h.tf_range.lt hfl]; decide

lemma trampoline_lt (L : Layout) : L.trampoline < 2 ^ 64 := by
  have h1 := L.tramp_lt
  have h2 := L.end_le
  unfold PHYSTOP KERNBASE at h2
  omega

lemma Space.isLeaf_trampoline (h : Space L f np tf) : IsLeaf (f TRV) := by
  rw [h.trampoline, BitVec.or_assoc]
  have hfl : IsFlags (PTE_R ||| PTE_X ||| PTE_V) :=
    isFlags_or (isFlags_or isFlags_R isFlags_X) isFlags_V
  refine ⟨?_, ?_⟩
  · rw [has_V, getLsbD_mk (trampoline_lt L) (by omega)]; rfl
  · rw [flags_mk (trampoline_lt L) hfl]; decide

lemma Space.valid_iff (h : Space L f np tf) (v : ℕ) :
    has (f v) PTE_V = true ↔ v < np ∨ v = TFV ∨ v = TRV := by
  constructor
  · intro hv
    by_contra hc
    rw [h.none v (by omega) (by omega) (by omega), has_zero] at hv
    cases hv
  · rintro (hv | rfl | rfl)
    · exact (h.user v hv).valid
    · exact h.isLeaf_trapframe.1
    · exact h.isLeaf_trampoline.1

/-! ### Shrinking -/

lemma Space.clear (h : Space L f np tf) {np' : ℕ} (hle : np' ≤ np) :
    Space L (clearRange f np' np) np' tf := by
  have hlt := h.lt_tfv le_rfl
  have h1 := tfv_eq
  have h2 := trv_eq
  refine ⟨?_, ?_, ?_, ?_, ?_, h.tf_range⟩
  · intro v hv
    rw [clearRange, if_neg (by omega)]; exact h.user v (by omega)
  · rw [clearRange, if_neg (by omega)]; exact h.trapframe
  · rw [clearRange, if_neg (by omega)]; exact h.trampoline
  · intro v hv ht hr
    unfold clearRange
    split_ifs with hc
    · rfl
    · exact h.none v (by omega) ht hr
  · intro v hv w hw he
    rw [clearRange, if_neg (by omega), clearRange, if_neg (by omega)] at he
    exact h.inj v (by omega) w (by omega) he

lemma Priv.clear (h : Priv R f np) {np' : ℕ} (hle : np' ≤ np) :
    Priv R (clearRange f np' np) np' := by
  intro v hv hW
  rw [clearRange, if_neg (by omega)] at hW ⊢
  exact h v (by omega) hW

lemma noNew_clear (f : ℕ → Word) (lo hi : ℕ) : NoNew R f (clearRange f lo hi) :=
  fun p _ => leaves_clearRange_le f lo hi p

lemma trapframe_eq : TRAPFRAME = TFV * PGSIZE := by
  rw [tfv_eq]; unfold TRAPFRAME TRAMPOLINE MAXVA PGSIZE; norm_num

lemma AS.unmap_from (h : AS L s root A R np tf) {np' : ℕ} (hle : np' ≤ np) :
    wp (uvmunmap root (np' * PGSIZE) (np - np') true) (fun _ s' =>
      AS L s' root { A with leaf := clearRange A.leaf np' np } R np' tf ∧
        Keeps (R + leaves (clearRange A.leaf np' np)) s s') E s := by
  have hlt := h.space.lt_tfv le_rfl
  have hdiv : np' * PGSIZE / PGSIZE = np' := Nat.mul_div_cancel _ (by unfold PGSIZE; omega)
  have hsum : np' + (np - np') = np := by omega
  refine wp_post (uvmunmap_free (Nat.mul_mod_left _ _) ?_ h.owns ?_) ?_
  · rw [trapframe_eq, ← Nat.add_mul, hsum]
    exact Nat.mul_le_mul_right _ hlt.le
  · intro v _ hv
    rw [hdiv, hsum] at hv
    exact (h.space.user v hv).isLeaf
  · rintro _ s1 ⟨h1, h2⟩
    rw [hdiv, hsum] at h1 h2
    exact ⟨⟨h1, h.space.clear hle⟩, h2⟩

/-- **`uvmdealloc`** shrinks to `newsz`, or does nothing when that is not smaller. -/
lemma uvmdealloc_spec {oldsz newsz : ℕ} (h : AS L s root A R (pgs oldsz) tf)
    (hold : oldsz < 2 ^ 63) :
    wp (uvmdealloc root oldsz newsz) (fun r s' => r = (if oldsz ≤ newsz then oldsz else newsz) ∧
      AS L s' root { A with leaf := clearRange A.leaf (pgs r) (pgs oldsz) } R (pgs r) tf ∧
        Keeps (R + leaves (clearRange A.leaf (pgs r) (pgs oldsz))) s s') E s := by
  have hnp := h.space.np_le
  unfold uvmdealloc
  by_cases hle : oldsz ≤ newsz
  · rw [if_pos hle, if_pos hle, wp_pure, clearRange_empty _ le_rfl]
    exact ⟨rfl, h, Keeps.refl⟩
  · rw [if_neg hle, if_neg hle]
    have h1 : pgs oldsz = (oldsz + 4095) / 4096 := pgs_eq (by unfold PGSIZE; omega)
    have h2 : pgs newsz = (newsz + 4095) / 4096 := pgs_eq (by unfold PGSIZE; omega)
    have hpg : pgs newsz ≤ pgs oldsz := by rw [h1, h2]; omega
    simp only [roundup_eq, wp_bind, wp_ite, wp_pure]
    by_cases hlt : pgs newsz * PGSIZE < pgs oldsz * PGSIZE
    · have hn : (pgs oldsz * PGSIZE - pgs newsz * PGSIZE) / PGSIZE = pgs oldsz - pgs newsz := by
        rw [← Nat.sub_mul]; exact Nat.mul_div_cancel _ (by unfold PGSIZE; omega)
      rw [if_pos hlt, hn, intU64_toInt (by omega)]
      refine wp_post (h.unmap_from hpg) ?_
      rintro _ s1 ⟨h3, h4⟩
      exact ⟨trivial, h3, h4⟩
    · have hge : pgs oldsz ≤ pgs newsz := by unfold PGSIZE at hlt; omega
      rw [if_neg hlt, clearRange_empty _ hge]
      have heq : pgs newsz = pgs oldsz := by omega
      rw [heq]
      exact ⟨trivial, h, Keeps.refl⟩

end Xv6.AddrSpace
