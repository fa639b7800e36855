import Xv6.View

/-!
The functions of `proc.c` keep the invariant, and what they do to the memory of the processes.
-/

namespace Xv6.Ops

open Xv6.ByteMem Xv6.Riscv Xv6.Kalloc Xv6.Vm Xv6.Wp Xv6.PageTable Xv6.Walk Xv6.Unmap
open Xv6.AddrSpace Xv6.Grow Xv6.Cow Xv6.Copyout Xv6.Create Xv6.Share Xv6.Process Xv6.Invariant
open Xv6.View

variable {L : Layout} {t : Kern} {T : Fin NPROC → PTab} {i j : Fin NPROC} {E : Panic → Prop}
  {α : Type}

@[simp] lemma wp_vm (m : K α) {Q : α → Kern → Prop} :
    wp (vm m) Q E t ↔ wp m (fun a k => Q a { t with k := k }) E t.k := by
  unfold vm
  exact wp_zoom _ _ _

@[simp] lemma wp_setProc (p : Proc) {Q : PUnit → Kern → Prop} :
    wp (setProc i p) Q E t ↔ Q ⟨⟩ { t with proc := Function.update t.proc i p } := Iff.rfl

lemma Inv.live (h : Inv L t T) (hs : (t.proc i).state ≠ .UNUSED) : Live (t.proc i) := by
  by_contra hc
  rw [h.idle i hc] at hs
  exact hs rfl

lemma Inv.unused (h : Inv L t T) (hs : (t.proc i).state = .UNUSED) : ¬ Live (t.proc i) :=
  fun hc => (h.slot i hc).used hs

lemma trapframe_ne_zero (h : Inv L t T) (hi : Live (t.proc i)) : (t.proc i).trapframe ≠ 0 :=
  ((h.slot i hi).space.tf_range).pos.ne'

/-! ### Freeing and allocating processes -/

/-- **`freeproc`** on a live process. -/
lemma freeproc_spec (h : Inv L t T) (hi : Live (t.proc i)) :
    wp (freeproc i) (fun _ t' => ∃ k,
      t' = { t with k := k, proc := Function.update t.proc i unusedProc } ∧ Inv L t' T ∧
      Keeps (rest T t i) t.k k) E t := by
  have has := h.as hi
  unfold freeproc
  rw [wp_bind, wp_get]
  dsimp only
  rw [if_pos (trapframe_ne_zero h hi), wp_bind, wp_vm]
  refine wp_post (kfree_spec (U := rest T t i + leaves (T i).leaf + tabs (T i))
    (has.owns.acct.congr fun q => by simp only [Pi.add_apply]; omega)) ?_
  rintro _ k1 ⟨h1, hk1, -⟩
  have hpt : (t.proc i).pagetable ≠ 0 := hi
  rw [if_pos hpt, wp_bind, wp_vm]
  have has1 : AS L k1 (t.proc i).pagetable (T i) (rest T t i) (pgs (t.proc i).sz)
      (t.proc i).trapframe := by
    refine ⟨Owns.of_keeps has.owns h1 hk1 (fun q hq => ?_) fun q hq => ?_, has.space⟩
    · have := isTab_iff.mpr hq
      simp only [Pi.add_apply]; omega
    · have := has.owns.excl q hq
      simp only [Pi.add_apply] at this ⊢
      omega
  refine wp_post (proc_freepagetable_spec has1) ?_
  rintro _ k2 ⟨h2, hk2⟩
  have hk : Keeps (rest T t i) t.k k2 :=
    (hk1.mono fun q hq => by simp only [Pi.add_apply]; omega).trans hk2 fun _ => id
  exact ⟨k2, rfl, h.remove h2 hk, hk⟩

/-- What `allocproc` does: a slot with a trapframe and an empty address space, or nothing but a
used up pid. -/
structure Alloc (L : Layout) (t : Kern) (T : Fin NPROC → PTab) (r : Option (Fin NPROC))
    (t' : Kern) : Prop where
  own : t'.own = t.own
  init : t'.initproc = t.initproc
  keeps : Keeps (total T t) t.k t'.k
  out : match r with
    | none => Inv L t' T ∧ t'.proc = t.proc ∧
        ((∀ i, (t.proc i).state ≠ .UNUSED) ∨ t.k.freelist.length ≤ 6)
    | some i => freeSlot t = some i ∧ ∃ A p, ¬ Live (t.proc i) ∧ Live p ∧ p.sz = 0 ∧ p.state = .USED ∧
        p.killed = 0 ∧ t'.proc = Function.update t.proc i p ∧ Inv L t' (Function.update T i A) ∧
        leaves A.leaf = 0 ∧ t.k.freelist.length ≤ t'.k.freelist.length + 6

lemma allocproc_spec (h : Inv L t T) :
    wp (allocproc L) (fun r t' => Alloc L t T r t') E t := by
  unfold allocproc
  rw [wp_bind, wp_get]
  rcases hf : freeSlot t with _ | i
  · refine ⟨rfl, rfl, Keeps.refl, h, rfl, Or.inl fun i hi => ?_⟩
    have := List.find?_eq_none.mp hf i (List.mem_finRange i)
    simp [hi] at this
  · have hu : (t.proc i).state = .UNUSED := by simpa using List.find?_some hf
    have hidle := Inv.unused h hu
    have hproc := h.idle i hidle
    have hback : ∀ p, Function.update (Function.update t.proc i p) i unusedProc = t.proc := by
      intro p
      rw [Function.update_idem, ← hproc, Function.update_eq_self]
    -- a failed attempt leaves the process table as it was
    have hfail : ∀ k n pr, pr = t.proc → Acct L k (total T t) → Keeps (total T t) t.k k →
        Inv L { t with k := k, nextpid := n, proc := pr } T := by
      rintro k n _ rfl hacct hk
      exact h.recount hacct hk n
    dsimp only
    rw [wp_bind, wp_set, wp_bind, wp_vm]
    refine wp_post (kalloc_spec h.acct) ?_
    rintro tf k1 (⟨rfl, rfl, hempty⟩ | ⟨htf, hU, hacct1, hk1, hfl1⟩)
    · rw [if_pos rfl, wp_bind, wp_setProc, wp_bind]
      unfold freeproc
      simp only [wp_bind, wp_get, Function.update_self, hproc, unusedProc, ne_eq, not_true,
        if_false, wp_setProc, wp_pure]
      exact ⟨rfl, rfl, Keeps.refl, hfail _ _ _ (hback _) h.acct Keeps.refl, hback _,
        Or.inr (by rw [show t.k.freelist = [] from hempty]; simp)⟩
    · have hlen1 : t.k.freelist.length = k1.freelist.length + 1 := by rw [hfl1]; rfl
      rw [if_neg htf.pos.ne', wp_bind, wp_vm]
      refine wp_post (proc_pagetable_spec hacct1 htf) ?_
      rintro pt k2 (⟨rfl, hacct2, hk2, hlen2⟩ | ⟨A, has, hleaf, hk2, hlen2⟩)
      · rw [wp_bind, wp_setProc, if_pos rfl, wp_bind]
        unfold freeproc
        simp only [wp_bind, wp_get, Function.update_self, ne_eq, htf.pos.ne', not_false_iff,
          if_true, wp_vm]
        refine wp_post (kfree_spec hacct2) ?_
        rintro _ k3 ⟨hacct3, hk3, -⟩
        simp only [not_true, if_false, wp_setProc, wp_pure]
        have hk : Keeps (total T t) t.k k3 :=
          (hk1.trans hk2 fun q hq => by simp only [Pi.add_apply]; omega).trans hk3 fun _ => id
        dsimp only at hlen2
        exact ⟨rfl, rfl, hk, hfail k3 _ _ (hback _) hacct3 hk, hback _, Or.inr (by omega)⟩
      · rw [wp_bind, wp_setProc, if_neg has.owns.root_ne, wp_pure]
        have hl : leaves A.leaf = 0 := by rw [hleaf, leaves_fixedLeaf]
        have hk : Keeps (total T t) t.k k2 :=
          hk1.trans hk2 fun q hq => by simp only [Pi.add_apply]; omega
        set p : Proc := { t.proc i with
          pid := t.nextpid, state := .USED, trapframe := tf, pagetable := pt } with hp
        have hinv := h.insert (c := p) hidle has hl hU hk (by rw [hp, hproc]; rfl)
          (by rw [hp]; simp)
        refine ⟨rfl, rfl, hk, hf, A, p, hidle, has.owns.root_ne, ?_, rfl, ?_, rfl, ?_, hl, ?_⟩
        · rw [hp, hproc]; rfl
        · rw [hp, hproc]; rfl
        · exact hinv.frame rfl rfl (fun _ _ _ _ => rfl) rfl (fun _ => ⟨rfl, rfl, rfl⟩)
            (fun l hl => (hinv.slot l hl).used) fun _ _ => rfl
        · dsimp only at hlen2 ⊢; omega

/-! ### Pages without an owner among the address spaces -/

/-- No live process has the page as a table or as user memory. -/
def Quiet (T : Fin NPROC → PTab) (t : Kern) (q : ℕ) : Prop :=
  ∀ j, Live (t.proc j) → ¬ IsTab (T j) q ∧ leaves (T j).leaf q = 0

lemma quiet_trapframe (h : Inv L t T) (hi : Live (t.proc i)) :
    Quiet T t (t.proc i).trapframe := by
  intro j hj
  have h1 := (h.single i hi).trapframe
  rw [total_eq T t i, held_live hi] at h1
  simp only [Pi.add_apply, ref_self] at h1
  rw [← isTab_iff, not_not]
  by_cases hji : j = i
  · subst hji; omega
  · have h2 := held_le_rest T t hji (t.proc i).trapframe
    rw [held_live hj] at h2
    simp only [Pi.add_apply] at h2
    omega

lemma quiet_own (h : Inv L t T) {q : ℕ} (hq : q ∈ t.own) : Quiet T t q := by
  intro j hj
  have h1 := h.own_one q hq
  have h2 := own_le_rest T t j hq
  rw [total_eq T t j, held_live hj] at h1
  simp only [Pi.add_apply] at h1
  rw [← isTab_iff, not_not]
  omega

lemma Inv.write (h : Inv L t T) {q : ℕ} (hq : Quiet T t q) {m : Mem}
    (hm : ∀ x, PGROUNDDOWN x ≠ q → m x = t.k.mem x) :
    Inv L { t with k := { t.k with mem := m } } T ∧
      views T { t with k := { t.k with mem := m } } = views T t := by
  refine ⟨h.frame rfl rfl (fun i hi x hx => hm x ?_) rfl (fun _ => ⟨rfl, rfl, rfl⟩)
    (fun i hi => (h.slot i hi).used) fun _ _ => rfl,
    views_frame h (fun _ => ⟨rfl, rfl⟩) fun i hi x hx => hm x ?_⟩
  · rintro rfl; exact (hq i hi).1 hx
  · rintro rfl; exact hx (hq i hi).2

/-! ### `growproc` -/

/-- The size `growproc` aims at. -/
def newSize (sz : ℕ) (n : ℤ) : ℕ := if (sz : ℤ) + n < 0 then sz else ((sz : ℤ) + n).toNat

lemma keep_tabs {k : KState} (hk : Keeps (rest T t i) t.k k) :
    ∀ j, j ≠ i → Live (t.proc j) → ∀ x, IsTab (T j) (PGROUNDDOWN x) → k.mem x = t.k.mem x := by
  intro j hji hj x hx
  refine hk x ?_
  have h1 := held_le_rest T t hji (PGROUNDDOWN x)
  have h2 := held_tab hj hx
  omega

lemma growproc_spec (h : Inv L t T) (hi : Live (t.proc i)) {n : ℤ} (hlo : -2 ^ 31 ≤ n)
    (hhi : n < 2 ^ 31) :
    wp (growproc i n) (fun r t' => ∃ A, Inv L t' (Function.update T i A) ∧
      (r = 0 ∧ views (Function.update T i A) t' = Function.update (views T t) i
          (some ((view (T i).leaf t.k.mem (t.proc i).sz).resize (newSize (t.proc i).sz n))) ∨
        r = -1 ∧ views (Function.update T i A) t' = views T t) ∧
      t'.proc = Function.update t.proc i { t.proc i with
        sz := if r = 0 then newSize (t.proc i).sz n else (t.proc i).sz } ∧
      ∀ v < pgs (t.proc i).sz, v < pgs (t'.proc i).sz → A.leaf v = (T i).leaf v) E t := by
  have has := h.as hi
  have hs := h.slot i hi
  have hsz := hs.le
  have hmono : ∀ {q}, rest T t i q ≠ 0 →
      (rest T t i + ref (t.proc i).trapframe) q ≠ 0 := fun hq => by
    rw [Pi.add_apply]; omega
  have hself : views T t i = some (view (T i).leaf t.k.mem (t.proc i).sz) := views_live hi
  unfold growproc
  rw [wp_bind, wp_get]
  dsimp only
  by_cases hpos : 0 < n
  · have hnew : u64 ((t.proc i).sz + intU64 n) = newSize (t.proc i).sz n := by
      unfold u64 intU64 newSize
      rw [if_neg (by omega)]
      omega
    have hge : (t.proc i).sz < newSize (t.proc i).sz n := by
      unfold newSize
      rw [if_neg (by omega)]; omega
    rw [if_pos hpos, wp_bind, wp_vm, hnew]
    refine wp_post (uvmalloc_spec (⟨isFlags_W, rfl⟩ : Perm PTE_W) has (by omega)) ?_
    rintro r k (⟨hlt, -, -⟩ | ⟨-, rfl, ⟨A', h1, hleaf⟩, hk⟩ | ⟨-, rfl, hb, A', hg⟩)
    · omega
    · rw [if_pos rfl, wp_pure]
      have hk' : Keeps (rest T t i) t.k k := hk.mono fun q hq => by
        have := hmono hq
        simp only [Pi.add_apply] at this ⊢; omega
      have hinv := h.update (c := t.proc i) hi h1 rfl (by rw [hleaf]; exact h.priv hi)
        (by rw [hleaf]; exact NoNew.refl) (keep_tabs hk') hsz hs.used
      have hv := views_update (A := A') h hi hk'
      rw [Function.update_eq_self] at hinv hv
      refine ⟨A', hinv, Or.inr ⟨rfl, ?_⟩, ?_, fun v _ _ => by rw [hleaf]⟩
      swap
      · rw [if_neg (by norm_num)]
        exact (Function.update_eq_self i t.proc).symm
      rw [hv, hleaf]
      have : view (T i).leaf k.mem (t.proc i).sz = view (T i).leaf t.k.mem (t.proc i).sz := by
        refine view_congr fun va hva => rd_keeps hs.space hk hva ?_
        have := Space.leaves_user hs.space hva
        rw [Pi.add_apply]; omega
      rw [this, ← hself, Function.update_eq_self]
    · rw [if_neg (by omega), wp_bind, wp_setProc, wp_pure]
      have hk' : Keeps (rest T t i) t.k k := hg.keeps.mono fun q hq => by
        have := hmono hq
        simp only [Pi.add_apply] at this ⊢; omega
      have hinv := h.update (c := { t.proc i with sz := newSize (t.proc i).sz n }) hi hg.as rfl
        (hg.priv (h.priv hi)) hg.noNew (keep_tabs hk') hb hs.used
      refine ⟨A', hinv, Or.inl ⟨rfl, ?_⟩, by rw [if_pos rfl], fun v hv _ => hg.old hv⟩
      refine (views_update (A := A') (c := { t.proc i with sz := newSize (t.proc i).sz n })
        h hi hk').trans ?_
      congr 2
      refine UMem.ext rfl (funext fun va => ?_)
      simp only [view, UMem.resize]
      by_cases hva : va / PGSIZE < pgs (newSize (t.proc i).sz n)
      · rw [if_pos hva, if_pos hva]
        by_cases hold : va / PGSIZE < pgs (t.proc i).sz
        · rw [if_pos hold]
          unfold rd
          rw [hg.old hold]
          refine hg.keeps _ ?_
          rw [rd_page hs.space hold]
          have := Space.leaves_user hs.space hold
          rw [Pi.add_apply]; omega
        · rw [if_neg hold]
          unfold rd
          exact hg.zero _ (by omega) hva _ (rd_page hg.as.space hva)
      · rw [if_neg hva, if_neg hva]
  rw [if_neg hpos]
  by_cases hneg : n < 0
  · rw [if_pos hneg, wp_bind, wp_vm]
    refine wp_post (uvmdealloc_spec has (by omega)) ?_
    rintro r k ⟨hr, h1, hk⟩
    have hr' : r = newSize (t.proc i).sz n := by
      rw [hr]
      unfold u64 intU64 newSize
      split_ifs <;> omega
    have hle : newSize (t.proc i).sz n ≤ (t.proc i).sz := by
      unfold newSize; split_ifs <;> omega
    have hpg : pgs (newSize (t.proc i).sz n) ≤ pgs (t.proc i).sz := by
      rw [pgs_eq (by unfold PGSIZE; omega), pgs_eq (by unfold PGSIZE; omega)]; omega
    rw [hr'] at h1 hk
    rw [wp_bind, wp_setProc, wp_pure, hr']
    have hk' : Keeps (rest T t i) t.k k := hk.mono fun q hq => by
      have := hmono hq
      simp only [Pi.add_apply] at this ⊢; omega
    have hinv := h.update (c := { t.proc i with sz := newSize (t.proc i).sz n }) hi h1 rfl
      ((h.priv hi).clear hpg) (noNew_clear _ _ _) (keep_tabs hk')
      (show newSize (t.proc i).sz n ≤ 2 ^ 27 by omega) hs.used
    refine ⟨_, hinv, Or.inl ⟨rfl, ?_⟩, by rw [if_pos rfl], fun v _ hv => ?_⟩
    swap
    · simp only [Function.update_self] at hv
      dsimp only [clearRange]
      rw [if_neg (by omega)]
    refine (views_update (c := { t.proc i with sz := newSize (t.proc i).sz n }) h hi hk').trans ?_
    congr 2
    refine UMem.ext rfl (funext fun va => ?_)
    simp only [view, UMem.resize]
    by_cases hva : va / PGSIZE < pgs (newSize (t.proc i).sz n)
    · rw [if_pos hva, if_pos hva, if_pos (by omega), rd_keeps h1.space hk hva]
      · unfold rd
        dsimp only [clearRange]
        rw [if_neg (by omega)]
      · have := Space.leaves_user h1.space hva
        dsimp only at this ⊢
        rw [Pi.add_apply]; omega
    · rw [if_neg hva, if_neg hva]
  · have h0 : newSize (t.proc i).sz n = (t.proc i).sz := by
      unfold newSize; split_ifs <;> omega
    rw [if_neg hneg, wp_pure, h0]
    have hT : Function.update T i (T i) = T := Function.update_eq_self i T
    refine ⟨T i, by rw [hT]; exact h, Or.inl ⟨rfl, ?_⟩, ?_, fun _ _ _ => rfl⟩
    swap
    · rw [if_pos rfl]
      exact (Function.update_eq_self i t.proc).symm
    rw [hT]
    have : (view (T i).leaf t.k.mem (t.proc i).sz).resize (t.proc i).sz =
        view (T i).leaf t.k.mem (t.proc i).sz := by
      refine UMem.ext rfl (funext fun va => ?_)
      simp only [view, UMem.resize]
      split_ifs <;> rfl
    rw [this, ← hself, Function.update_eq_self]

end Xv6.Ops
