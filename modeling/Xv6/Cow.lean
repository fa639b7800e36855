import Xv6.Grow

/-!
Resolving a copy-on-write page (`custom_cow`) and the lookups of `copyout`.

On a valid entry with `PTE_COW` the function moves the process to a fresh private copy of the
page and drops its reference to the old one. It gives up without a change when the entry is not
copy-on-write or no page is free, and it panics when the page is not mapped.
-/

namespace Xv6.Cow

open Xv6.ByteMem Xv6.Riscv Xv6.Kalloc Xv6.Vm Xv6.Wp Xv6.PageTable Xv6.Walk Xv6.Unmap
open Xv6.AddrSpace Xv6.Grow

variable {L : Layout} {root : ℕ} {A : PTab} {s s' : KState} {R U : ℕ → ℕ} {E : Panic → Prop}
  {f : ℕ → Word} {np tf : ℕ} {e : Word} {v va p : ℕ}

lemma rounddown_vpn (va : ℕ) : PGROUNDDOWN va / PGSIZE = va / PGSIZE := by
  unfold PGROUNDDOWN PGSIZE; omega

lemma rounddown_le (va : ℕ) : PGROUNDDOWN va ≤ va := by
  unfold PGROUNDDOWN PGSIZE; omega

lemma rounddown_mod (va : ℕ) : PGROUNDDOWN va + va % PGSIZE = va := by
  unfold PGROUNDDOWN PGSIZE; omega

lemma pteAddr_rounddown (A : PTab) (va : ℕ) : pteAddr A (PGROUNDDOWN va) = pteAddr A va := by
  unfold pteAddr; rw [rounddown_vpn]

lemma valid_ne_zero (h : has e PTE_V = true) : e ≠ 0 := by
  rintro rfl
  rw [has_zero] at h
  cases h

/-! ### Entries of user pages -/

/-- A user program, and `copyout`, may go through the entry. -/
def UserOk (e : Word) : Prop := has e PTE_V = true ∧ has e PTE_U = true

instance (e : Word) : Decidable (UserOk e) := inferInstanceAs (Decidable (_ ∧ _))

lemma Space.trapframe_bit (h : Space L f np tf) {k : ℕ} (hk : k < 10) :
    (f TFV).getLsbD k = (PTE_R ||| PTE_W ||| PTE_V).getLsbD k := by
  rw [h.trapframe, BitVec.or_assoc, getLsbD_mk h.tf_range.lt hk]

lemma Space.trampoline_bit (h : Space L f np tf) {k : ℕ} (hk : k < 10) :
    (f TRV).getLsbD k = (PTE_R ||| PTE_X ||| PTE_V).getLsbD k := by
  rw [h.trampoline, BitVec.or_assoc, getLsbD_mk (trampoline_lt L) hk]

lemma Space.lt_np (h : Space L f np tf) (hv : has (f v) PTE_V = true)
    (hb : has (f v) PTE_U = true ∨ has (f v) PTE_COW = true) : v < np := by
  rw [has_U, has_COW] at hb
  rcases (h.valid_iff v).mp hv with h1 | rfl | rfl
  · exact h1
  · rw [Space.trapframe_bit h (by omega), Space.trapframe_bit h (by omega)] at hb
    exact absurd hb (by decide)
  · rw [Space.trampoline_bit h (by omega), Space.trampoline_bit h (by omega)] at hb
    exact absurd hb (by decide)

/-- The page an address of user memory is looked up to, or `0`. -/
def userPa (f : ℕ → Word) (va : ℕ) : ℕ :=
  if va < MAXVA ∧ UserOk (f (va / PGSIZE)) then PTE2PA (f (va / PGSIZE)) else 0

/-- **`walkaddr`** changes nothing. -/
lemma walkaddr_read (hw : Wf L root A) (hr : Rep s.mem A) (va : ℕ) :
    walkaddr root va s = .ok (userPa A.leaf va, s) := by
  unfold walkaddr userPa
  by_cases hva : MAXVA ≤ va
  · rw [if_pos hva, if_neg (by omega)]; rfl
  · rw [if_neg hva, bind_run, walk_read hw hr (by omega)]
    simp only
    by_cases hne : pteAddr A va = 0
    · have h0 : A.leaf (va / PGSIZE) = 0 := by
        by_contra hc
        exact pteAddr_ne_zero hw hc hne
      rw [if_pos hne, if_neg fun hc => valid_ne_zero hc.2.1 h0]; rfl
    · rw [if_neg hne, bind_run]
      simp only [ld, ld_pteAddr hr hne]
      by_cases hV : has (A.leaf (va / PGSIZE)) PTE_V = true
      · by_cases hU : has (A.leaf (va / PGSIZE)) PTE_U = true
        · rw [if_neg (by simp [hV]), if_neg (by simp [hU]), if_pos ⟨by omega, hV, hU⟩]; rfl
        · rw [if_neg (by simp [hV]), if_pos (by simp [hU]), if_neg fun hc => hU hc.2.2]; rfl
      · rw [if_pos (by simp [hV]), if_neg fun hc => hV hc.2.1]; rfl

/-! ### The private copy -/

/-- The entry `custom_cow` makes: page `p`, writable, no longer copy-on-write. -/
def cowEntry (p : ℕ) (e : Word) : Word := PA2PTE p ||| ((PTE_FLAGS e &&& ~~~PTE_COW) ||| PTE_W)

lemma isFlags_and {f : Word} (hf : IsFlags f) (g : Word) : IsFlags (f &&& g) := by
  intro k hk
  rw [BitVec.getLsbD_and, hf k hk, Bool.false_and]

lemma isFlags_cow (e : Word) : IsFlags ((PTE_FLAGS e &&& ~~~PTE_COW) ||| PTE_W) :=
  isFlags_or (isFlags_and (isFlags_flags e) _) isFlags_W

lemma cowEntry_pa (hp : InRange L p) (e : Word) : PTE2PA (cowEntry p e) = p :=
  pte2pa_mk hp.lt hp.1 (isFlags_cow e)

lemma cowEntry_bit (hp : InRange L p) (e : Word) {k : ℕ} (hk : k < 10) :
    (cowEntry p e).getLsbD k = ((e.getLsbD k && decide (k ≠ 5)) || decide (k = 2)) := by
  unfold cowEntry
  rw [getLsbD_mk hp.lt hk, BitVec.getLsbD_or, BitVec.getLsbD_and, getLsbD_flags,
    BitVec.getLsbD_not]
  interval_cases k <;> simp [PTE_COW, PTE_W]

lemma cowEntry_user (he : UserLeaf L e) (hp : InRange L p) : UserLeaf L (cowEntry p e) := by
  have hV := he.valid
  have hR := he.readable
  rw [has_V] at hV
  rw [has_R] at hR
  refine ⟨by rw [cowEntry_pa hp]; exact hp, ?_, ?_, fun _ => ?_⟩
  · rw [has_V, cowEntry_bit hp e (by omega), hV]; rfl
  · rw [has_R, cowEntry_bit hp e (by omega), hR]; rfl
  · rw [has_COW, cowEntry_bit hp e (by omega)]; simp

/-- The entry of a user page is replaced by one to a page not mapped yet, or to the same page. -/
lemma Space.replace (h : Space L f np tf) (hv : v < np) (he : UserLeaf L e)
    (hnew : ∀ w < np, w ≠ v → PTE2PA (f w) ≠ PTE2PA e) :
    Space L (Function.update f v e) np tf := by
  have hlt := h.lt_tfv hv.le
  have h1 := tfv_eq
  have h2 := trv_eq
  have hold : ∀ w, w ≠ v → Function.update f v e w = f w := fun w hw =>
    Function.update_of_ne hw _ _
  refine ⟨?_, ?_, ?_, ?_, ?_, h.tf_range⟩
  · intro w hw
    by_cases hwv : w = v
    · rw [hwv, Function.update_self]; exact he
    · rw [hold w hwv]; exact h.user w hw
  · rw [hold _ (by omega)]; exact h.trapframe
  · rw [hold _ (by omega)]; exact h.trampoline
  · intro w hw ht hr
    rw [hold w (by omega)]; exact h.none w hw ht hr
  · intro w hw u hu hp
    by_cases hwv : w = v <;> by_cases huv : u = v
    · omega
    · rw [hwv, Function.update_self, hold u huv] at hp
      exact absurd hp.symm (hnew u hu huv)
    · rw [huv, Function.update_self, hold w hwv] at hp
      exact absurd hp (hnew w hw hwv)
    · rw [hold w hwv, hold u huv] at hp
      exact h.inj w hw u hu hp

lemma Space.leaves_user (h : Space L f np tf) (hv : v < np) : leaves f (PTE2PA (f v)) = 1 := by
  have hlt := h.lt_tfv le_rfl
  unfold leaves
  rw [Set.ncard_eq_one]
  refine ⟨v, Set.ext fun w => ⟨?_, ?_⟩⟩
  · rintro ⟨hw, hm⟩
    rcases (h.valid_iff w).mp hm.1 with h1 | rfl | rfl
    · exact h.inj w h1 v hv hm.2
    · omega
    · have h1 := tfv_eq
      have h2 := trv_eq
      omega
  · rintro rfl
    exact ⟨by omega, (h.user w hv).valid, rfl⟩

lemma leaves_move (hv : v < TFV) (hV : has (f v) PTE_V = true) (hm : Maps e p) :
    leaves (Function.update f v e) + ref (PTE2PA (f v)) = leaves f + ref p := by
  funext q
  have := leaves_update (f := f) hv e q
  have h1 : (if Maps (f v) q then 1 else 0) = ref (PTE2PA (f v)) q := by
    unfold ref
    by_cases hq : q = PTE2PA (f v)
    · rw [if_pos ⟨hV, hq.symm⟩, if_pos hq]
    · rw [if_neg fun hc => hq hc.2.symm, if_neg hq]
  have h2 : (if Maps e q then 1 else 0) = ref p q := by
    unfold ref
    by_cases hq : q = p
    · rw [if_pos (by rw [hq]; exact hm), if_pos hq]
    · rw [if_neg fun hc => hq (hc.2.symm.trans hm.2), if_neg hq]
  rw [h1, h2] at this
  exact this

/-! ### `custom_cow` -/

lemma custom_cow_start (h : AS L s root A R np tf) (hva : va < MAXVA) :
    (∃ q, walk root (PGROUNDDOWN va) false s = .ok (q, s) ∧ q = pteAddr A va) ∧
      ¬ MAXVA < PGROUNDDOWN va := by
  have hle := rounddown_le va
  refine ⟨⟨_, walk_read h.owns.wf h.owns.rep (by omega), pteAddr_rounddown A va⟩, by omega⟩

lemma custom_cow_unmapped (h : AS L s root A R np tf) (hva : va < MAXVA)
    (hV : has (A.leaf (va / PGSIZE)) PTE_V = false) :
    ∃ e, custom_cow root va s = .error e ∧ (e = .cow_pte ∨ e = .cow_not_present) := by
  obtain ⟨⟨q, hw, hq⟩, hmax⟩ := custom_cow_start h hva
  unfold custom_cow
  dsimp only
  rw [if_neg hmax, bind_run, hw]
  dsimp only
  by_cases h0 : q = 0
  · rw [if_pos h0]
    exact ⟨_, rfl, Or.inl rfl⟩
  · rw [if_neg h0, bind_run]
    subst hq
    simp only [ld, ld_pteAddr h.owns.rep h0, hV, Bool.not_false, if_true]
    exact ⟨_, rfl, Or.inr rfl⟩

lemma kalloc_empty (hf : s.freelist = []) : kalloc s = .ok (0, s) := by
  have hget : (get : K KState) s = .ok (s, s) := rfl
  unfold kalloc
  rw [bind_run, hget]
  dsimp only
  rw [hf]
  rfl

lemma custom_cow_refuses (h : AS L s root A R np tf) (hva : va < MAXVA)
    (hV : has (A.leaf (va / PGSIZE)) PTE_V = true)
    (hc : has (A.leaf (va / PGSIZE)) PTE_COW = false ∨ s.freelist = []) :
    custom_cow root va s = .ok (1, s) := by
  obtain ⟨⟨q, hw, hq⟩, hmax⟩ := custom_cow_start h hva
  have hne := pteAddr_ne_zero h.owns.wf (valid_ne_zero hV)
  unfold custom_cow
  dsimp only
  rw [if_neg hmax, bind_run, hw]
  dsimp only
  rw [if_neg (by rw [hq]; exact hne), bind_run]
  subst hq
  simp only [ld, ld_pteAddr h.owns.rep hne, hV, Bool.not_true, Bool.false_eq_true, if_false]
  rcases hcow : has (A.leaf (va / PGSIZE)) PTE_COW with _ | _
  · simp only [Bool.not_false, if_true]; rfl
  · have hf : s.freelist = [] := hc.resolve_left (by rw [hcow]; simp)
    simp only [Bool.not_true, Bool.false_eq_true, if_false]
    rw [bind_run, kalloc_empty hf]
    rfl

/-- What a resolved copy-on-write page looks like. -/
structure Resolved (L : Layout) (root : ℕ) (R : ℕ → ℕ) (np tf : ℕ) (A : PTab) (v p : ℕ)
    (s s' : KState) : Prop where
  as : AS L s' root (setLeaf A v (cowEntry p (A.leaf v))) R np tf
  lt : v < np
  range : InRange L p
  fresh : (R + leaves A.leaf) p = 0
  keeps : Keeps (R + leaves (Function.update A.leaf v 0)) s s'
  outside : Keeps (outside L) s s'
  copy : ∀ k < PGSIZE, s'.mem (p + k) = s.mem (PTE2PA (A.leaf v) + k)
  free : s'.freelist.length + (if R (PTE2PA (A.leaf v)) = 0 then 0 else 1) = s.freelist.length

/-- **`custom_cow` on a copy-on-write page** with memory left. -/
lemma custom_cow_copies (h : AS L s root A R np tf) (hva : va < MAXVA)
    (hV : has (A.leaf (va / PGSIZE)) PTE_V = true)
    (hcow : has (A.leaf (va / PGSIZE)) PTE_COW = true) (hf : s.freelist ≠ []) :
    wp (custom_cow root va) (fun r s' => r = 0 ∧
      ∃ p, Resolved L root R np tf A (va / PGSIZE) p s s') E s := by
  obtain ⟨⟨q, hw, hq⟩, hmax⟩ := custom_cow_start h hva
  have hne := pteAddr_ne_zero h.owns.wf (valid_ne_zero hV)
  have hlt := Space.lt_np h.space hV (Or.inr hcow)
  have hltT := h.space.lt_tfv hlt.le
  subst hq
  set v := va / PGSIZE with hvdef
  set e := A.leaf v with hedef
  have hone : leaves A.leaf (PTE2PA e) = 1 := Space.leaves_user h.space hlt
  have hpal : PTE2PA e % PGSIZE = 0 := (h.space.user v hlt).range.1
  unfold custom_cow
  dsimp only
  rw [if_neg hmax, wp_bind, wp_of_run hw, if_neg hne, wp_bind, wp_ld,
    ld_pteAddr h.owns.rep hne, ← hvdef, ← hedef, hV, if_neg (by simp), hcow, if_neg (by simp),
    wp_bind]
  refine wp_post (wp_join (kalloc_outside h.owns.acct) (kalloc_spec h.owns.acct)) ?_
  rintro p s1 ⟨hout1, ⟨rfl, rfl, hf0⟩ | ⟨hp, hU, hacct, hk, hfl⟩⟩
  · exact absurd hf0 hf
  · have hfresh : (R + leaves A.leaf) p = 0 := by
      simp only [Pi.add_apply] at hU ⊢; omega
    rw [if_neg hp.pos.ne', wp_bind, wp_memmove, wp_bind, wp_st, wp_bind]
    set s2 : KState := { s1 with mem := move s1.mem p (PTE2PA e) PGSIZE } with hs2
    have hk2 : Keeps (R + leaves A.leaf + tabs A) s s2 := by
      intro x hx
      rw [hs2]
      have hxp : PGROUNDDOWN x ≠ p := by rintro rfl; exact hx hU
      rw [Ne, rounddown_eq hp.1] at hxp
      simp only
      rw [move_out (by omega)]
      exact hk x hx
    have hown2 : Owns L s2 root A (R + ref p + leaves A.leaf) :=
      Owns.with_fresh h.owns hU (hacct.of_mem rfl rfl) hk2
    obtain ⟨hown3, hk3⟩ := hown2.st_leaf hne (cowEntry p e)
    have hout2 : Keeps (outside L) s1 s2 := by
      intro x hx
      have hxp : PGROUNDDOWN x ≠ p := by rintro rfl; exact hx (outside_inRange hp)
      rw [Ne, rounddown_eq hp.1] at hxp
      exact move_out (by omega)
    have hout3 := hown2.st_outside hne (cowEntry p e)
    have hmaps : Maps (cowEntry p e) p := ⟨(cowEntry_user (h.space.user v hlt) hp).valid,
      cowEntry_pa hp e⟩
    set A3 := setLeaf A v (cowEntry p e) with hA3
    set s3 : KState := { s2 with mem := st64 s2.mem (pteAddr A va) (cowEntry p e) } with hs3
    change Owns L s3 root A3 _ at hown3
    change wp (kfree (PTE2PA e)) _ _ s3
    have hA3l : leaves A3.leaf + ref (PTE2PA e) = leaves A.leaf + ref p :=
      leaves_move hltT hV hmaps
    refine wp_post (wp_join (kfree_outside (h.space.user v hlt).range)
      (kfree_spec (U := R + leaves A3.leaf + tabs A3) (hown3.acct.congr fun q => ?_))) ?_
    · have := congrFun hA3l q
      simp only [Pi.add_apply] at this ⊢
      omega
    · rintro _ s4 ⟨hout4, hacct4, hk4, hfl4⟩
      have hown4 : Owns L s4 root A3 (R + leaves A3.leaf) := by
        refine Owns.of_keeps hown3 hacct4 hk4 (fun q hq => ?_) fun q hq => ?_
        · have := isTab_iff.mpr hq
          simp only [Pi.add_apply]; omega
        · have h1 := hown3.excl q hq
          have h2 := congrFun hA3l q
          simp only [Pi.add_apply] at h1 h2 ⊢
          omega
      have hspace : Space L A3.leaf np tf := by
        refine Space.replace h.space hlt (cowEntry_user (h.space.user v hlt) hp) ?_
        intro w hw hwv hc
        rw [cowEntry_pa hp] at hc
        have := leaves_pos (f := A.leaf) (lt_of_lt_of_le hw (h.space.lt_tfv le_rfl).le)
          (h.space.user w hw).valid
        rw [hc] at this
        simp only [Pi.add_apply] at hfresh
        omega
      -- what is still referenced after the entry moved
      have hsub : ∀ q, (R + leaves (Function.update A.leaf v 0)) q ≠ 0 →
          (R + leaves A.leaf) q ≠ 0 ∧ (R + leaves A3.leaf) q ≠ 0 := by
        intro q hq
        have h1 : leaves A.leaf q = leaves (Function.update A.leaf v 0) q + ref (PTE2PA e) q :=
          congrFun (leaves_clear hltT hV) q
        have h2 := congrFun hA3l q
        simp only [Pi.add_apply] at hq h1 h2 ⊢
        omega
      rw [wp_pure]
      have hout : Keeps (outside L) s s4 := ((hout1.trans hout2 fun _ => id).trans hout3
        fun _ => id).trans hout4 fun _ => id
      refine ⟨rfl, p, ⟨hown4, hspace⟩, hlt, hp, hfresh, ?_, hout, ?_, ?_⟩
      · intro x hx
        obtain ⟨h1, h2⟩ := hsub _ hx
        simp only [Pi.add_apply] at h1 h2
        rw [hk4 x (by simp only [Pi.add_apply]; omega), hk3 x (by simp only [Pi.add_apply]; omega),
          hk2 x (by simp only [Pi.add_apply]; omega)]
      · intro k hk'
        have hpk : PGROUNDDOWN (p + k) = p := (rounddown_eq hp.1).mpr ⟨by omega, by omega⟩
        have hA3p : leaves A3.leaf p ≠ 0 := by
          have := congrFun hA3l p
          have hne' : p ≠ PTE2PA e := by
            intro hc
            simp only [Pi.add_apply] at hfresh
            rw [← hc] at hone
            omega
          simp only [Pi.add_apply, ref_self, ref_ne hne'] at this
          omega
        have hek : PGROUNDDOWN (PTE2PA e + k) = PTE2PA e :=
          (rounddown_eq hpal).mpr ⟨by omega, by omega⟩
        rw [hk4 (p + k) (by rw [hpk]; simp only [Pi.add_apply]; omega),
          hk3 (p + k) (by rw [hpk]; simp only [Pi.add_apply, ref_self]; omega)]
        simp only [hs2]
        rw [move_in (by omega) (by omega), show p + k - p = k by omega]
        refine hk _ ?_
        rw [hek]
        simp only [Pi.add_apply]; omega
      · rw [hfl4, hfl]
        have htab : tabs A3 (PTE2PA e) = 0 := by
          by_contra hc
          have := h.owns.excl (PTE2PA e) (isTab_iff.mp hc)
          simp only [Pi.add_apply] at this
          omega
        have h3 : leaves A3.leaf (PTE2PA e) = 0 := by
          have := congrFun hA3l (PTE2PA e)
          have hne' : PTE2PA e ≠ p := by
            intro hc
            simp only [Pi.add_apply] at hfresh
            rw [hc] at hone
            omega
          simp only [Pi.add_apply, ref_self, ref_ne hne'] at this
          omega
        simp only [Pi.add_apply, h3, htab, add_zero]
        split_ifs with hR <;> simp [hs3, hs2]

lemma Resolved.noNew (h : Resolved L root R np tf A v p s s') :
    NoNew R A.leaf (setLeaf A v (cowEntry p (A.leaf v))).leaf := by
  intro q hq
  have hlt := h.as.space.lt_tfv h.lt.le
  have hmaps := h.as.space.user v h.lt
  simp only [setLeaf, Function.update_self] at hmaps ⊢
  have hpa := cowEntry_pa h.range (A.leaf v)
  have := leaves_update (f := A.leaf) hlt (cowEntry p (A.leaf v)) q
  rw [if_neg (c := Maps (cowEntry p (A.leaf v)) q)] at this
  · omega
  · rintro ⟨-, hm⟩
    have := h.fresh
    rw [← hpa, hm, Pi.add_apply] at this
    omega

lemma Resolved.priv (h : Resolved L root R np tf A v p s s') (hp : Priv R A.leaf np) :
    Priv R (setLeaf A v (cowEntry p (A.leaf v))).leaf np := by
  intro w hw hW
  simp only [setLeaf] at hW ⊢
  by_cases hwv : w = v
  · rw [hwv, Function.update_self, cowEntry_pa h.range]
    have := h.fresh
    rw [Pi.add_apply] at this
    omega
  · rw [Function.update_of_ne hwv] at hW ⊢
    exact hp w hw hW

end Xv6.Cow
