import Xv6.Fork
import Xv6.Image

/-!
Every operation of the system keeps the invariant. The only panics an operation can reach are
those of a store fault on an unmapped page and of the first process exiting.
-/

namespace Xv6.Steps

open Xv6.ByteMem Xv6.Riscv Xv6.Kalloc Xv6.Vm Xv6.Wp Xv6.PageTable Xv6.Walk Xv6.Unmap
open Xv6.AddrSpace Xv6.Grow Xv6.Cow Xv6.Copyout Xv6.Create Xv6.Share Xv6.Process Xv6.Invariant
open Xv6.View Xv6.Ops Xv6.Fork Xv6.Exec Xv6.Image Xv6.Kernel

variable {L : Layout} {t t' : Kern} {T : Fin NPROC → PTab} {i j : Fin NPROC} {E : Panic → Prop}
  {A : PTab} {k : KState} {root va : ℕ} {m : Mem}

/-! ### The page table in memory -/

lemma tableBelow_eq (hw : Wf L root A) (hr : Rep m A) : ∀ d ≤ 2, ∀ x,
    tableBelow m root d x = A.tab (2 - d) x := by
  intro d
  induction d with
  | zero =>
      intro _ x
      unfold tableBelow
      by_cases hx : x = 0
      · rw [if_pos hx, hx]; exact hw.root.symm
      · rw [if_neg hx]
        rcases hq : A.tab (2 - 0) x with _ | q
        · rfl
        · have := (hw.top _ _ _ hq).2
          simp at this
          omega
  | succ d ih =>
      intro hd x
      unfold tableBelow
      rw [ih (by omega), show 2 - d = 2 - (d + 1) + 1 by omega]
      rcases hq : A.tab (2 - (d + 1) + 1) (x / 512) with _ | q
      · rw [hw.parent _ _ (by omega) hq]; rfl
      · have he := hr.node _ _ q hq (x % 512) (Nat.mod_lt _ (by omega))
        rw [show x / 512 * 512 + x % 512 = x by omega] at he
        simp only [Option.bind_some, he]
        rcases hc : A.tab (2 - (d + 1)) x with _ | c
        · rw [entry_none, if_neg (by rw [has_zero]; simp)]
        · have hin := hw.range _ _ _ hc
          rw [if_pos (entry_valid hin), entry_pa hin]

lemma tableAt_eq (hw : Wf L root A) (hr : Rep m A) (l x : ℕ) : tableAt m root l x = A.tab l x := by
  unfold tableAt
  by_cases hl : l ≤ 2
  · rw [if_pos hl, tableBelow_eq hw hr _ (by omega), show 2 - (2 - l) = l by omega]
  · rw [if_neg hl]
    rcases hq : A.tab l x with _ | q
    · rfl
    · exact absurd (hw.top _ _ _ hq).1 hl

lemma leafAt_eq (hw : Wf L root A) (hr : Rep m A) (v : ℕ) : leafAt m root v = A.leaf v := by
  unfold leafAt
  rw [tableAt_eq hw hr]
  rcases hq : A.tab 0 (v / 512) with _ | q
  · exact (hw.noleaf v hq).symm
  · simp only
    rw [hr.leaf _ q hq _ (Nat.mod_lt _ (by omega)), show v / 512 * 512 + v % 512 = v by omega]

lemma Inv.leafAt (h : Inv L t T) (hi : Live (t.proc i)) (v : ℕ) :
    leafAt t.k.mem (t.proc i).pagetable v = (T i).leaf v :=
  leafAt_eq (h.slot i hi).wf (h.slot i hi).rep v

/-! ### Copy-on-write faults and stores -/

lemma views_same (h : Inv L t T) (hi : Live (t.proc i)) (hk : Keeps (rest T t i) t.k k)
    (hrd : ∀ va, va / PGSIZE < pgs (t.proc i).sz → rd A.leaf k.mem va = rd (T i).leaf t.k.mem va) :
    views (Function.update T i A) { t with k := k } = views T t := by
  have hv := views_update (A := A) h hi hk
  rw [Function.update_eq_self] at hv
  rw [hv, view_congr hrd, ← views_live hi, Function.update_eq_self]

lemma Resolved.keepsRest {v p np tf : ℕ} {R : ℕ → ℕ} {s s' : KState}
    (h : Resolved L root R np tf A v p s s') : Keeps R s s' :=
  h.keeps.mono fun q hq => by rw [Pi.add_apply]; omega

lemma Inv.resolved {v p : ℕ} (h : Inv L t T) (hi : Live (t.proc i))
    (hr : Resolved L (t.proc i).pagetable (rest T t i + ref (t.proc i).trapframe)
      (pgs (t.proc i).sz) (t.proc i).trapframe (T i) v p t.k k) :
    Inv L { t with k := k } (Function.update T i (setLeaf (T i) v (cowEntry p ((T i).leaf v)))) ∧
    views (Function.update T i (setLeaf (T i) v (cowEntry p ((T i).leaf v)))) { t with k := k } =
      views T t := by
  have hs := h.slot i hi
  have hk : Keeps (rest T t i) t.k k := (Resolved.keepsRest hr).mono fun q hq => by
    rw [Pi.add_apply]; omega
  have hinv := h.update (c := t.proc i) hi hr.as rfl (hr.priv (h.priv hi)) hr.noNew
    (keep_tabs hk) hs.le hs.used
  rw [Function.update_eq_self] at hinv
  exact ⟨hinv, views_same h hi hk fun va hva => Resolved.rd hr hs.space hva⟩

/-- The panics of `custom_cow`. -/
def CowPanic (e : Panic) : Prop := e = .cow_pte ∨ e = .cow_not_present

lemma custom_cow_step (h : Inv L t T) (hi : Live (t.proc i)) (hva : va < MAXVA) :
    wp (vm (custom_cow (t.proc i).pagetable va)) (fun r t' => ∃ T' k, t' = { t with k := k } ∧
      Inv L t' T' ∧ views T' t' = views T t ∧ (r = 0 ∨ r = 1 ∧ t' = t)) CowPanic t := by
  have hA := h.as hi
  rw [wp_vm]
  by_cases hV : has ((T i).leaf (va / PGSIZE)) PTE_V = true
  · by_cases hc : has ((T i).leaf (va / PGSIZE)) PTE_COW = false ∨ t.k.freelist = []
    · rw [wp_of_run (custom_cow_refuses hA hva hV hc)]
      exact ⟨T, t.k, rfl, h, rfl, Or.inr ⟨rfl, rfl⟩⟩
    · rw [not_or] at hc
      refine wp_post (custom_cow_copies hA hva hV (by simpa using hc.1) hc.2) ?_
      rintro r k ⟨rfl, p, hr⟩
      obtain ⟨h1, h2⟩ := Inv.resolved h hi hr
      exact ⟨_, k, rfl, h1, h2, Or.inl rfl⟩
  · obtain ⟨e, he, hp⟩ := custom_cow_unmapped hA hva (by simpa using hV)
    unfold wp
    rw [he]
    exact hp

lemma Inv.killed (h : Inv L t T) (i : Fin NPROC) (hi : Live (t.proc i)) (x : ℤ) :
    Inv L { t with proc := Function.update t.proc i { t.proc i with killed := x } } T := by
  have hp : ∀ j, Function.update t.proc i { t.proc i with killed := x } j =
      if j = i then { t.proc i with killed := x } else t.proc j := fun j => by
    by_cases hj : j = i
    · subst hj; rw [Function.update_self, if_pos rfl]
    · rw [Function.update_of_ne hj, if_neg hj]
  refine h.frame rfl rfl (fun _ _ _ _ => rfl) rfl (fun j => ?_) (fun j hj => ?_) fun j hj => ?_
  · simp only [hp]
    split_ifs with hj
    · subst hj; exact ⟨rfl, rfl, rfl⟩
    · exact ⟨rfl, rfl, rfl⟩
  · simp only [hp]
    split_ifs with hji
    · exact (h.slot i hi).used
    · exact (h.slot j hj).used
  · simp only [hp]
    rw [if_neg (by rintro rfl; exact hj hi)]

lemma usertrap_store_spec (h : Inv L t T) (hi : Live (t.proc i)) (stval : ℕ) :
    wp (usertrap_store i stval) (fun _ t' => ∃ T', Inv L t' T') CowPanic t := by
  unfold usertrap_store
  rw [wp_bind, wp_get]
  dsimp only
  by_cases hflag : MAXVA ≤ stval ∨
      (sub64 (PGROUNDDOWN (ld64 t.k.mem ((t.proc i).trapframe + TF_SP)).toNat) PGSIZE ≤ stval ∧
        stval ≤ PGROUNDDOWN (ld64 t.k.mem ((t.proc i).trapframe + TF_SP)).toNat)
  · rw [if_pos hflag, wp_setProc]
    exact ⟨T, Inv.killed h i hi 1⟩
  · rw [if_neg hflag, wp_bind]
    refine wp_post (custom_cow_step h hi (by omega)) ?_
    rintro r t1 ⟨T1, k, rfl, h1, -, -⟩
    rw [wp_setProc]
    exact ⟨T1, Inv.killed h1 i hi r⟩

/-- **A store instruction** that goes through is seen by its process alone. -/
lemma user_store_spec (h : Inv L t T) (hi : Live (t.proc i)) (va : ℕ) (b : Byte) :
    wp (user_store i va b) (fun _ t' => Inv L t' T ∧
      if va < MAXVA ∧ UserOk ((T i).leaf (va / PGSIZE)) ∧
          has ((T i).leaf (va / PGSIZE)) PTE_W = true then
        views T t' = Function.update (views T t) i
          (some ((view (T i).leaf t.k.mem (t.proc i).sz).store va b))
      else t' = t) E t := by
  have hs := h.slot i hi
  unfold user_store
  rw [wp_bind, wp_get]
  dsimp only
  rw [Inv.leafAt h hi]
  by_cases hc : va < MAXVA ∧ UserOk ((T i).leaf (va / PGSIZE)) ∧
      has ((T i).leaf (va / PGSIZE)) PTE_W = true
  · obtain ⟨hva, ⟨hV, hU⟩, hW⟩ := hc
    rw [if_pos ⟨hva, hV, hU, hW⟩, wp_vm, wp_modify, if_pos ⟨hva, ⟨hV, hU⟩, hW⟩]
    have hlt := Space.lt_np hs.space hV (Or.inl hU)
    have hR := h.priv hi _ hlt hW
    have hmod : va % PGSIZE + [b].length ≤ PGSIZE := by
      have : va % PGSIZE < PGSIZE := Nat.mod_lt _ (by unfold PGSIZE; omega)
      simp only [List.length_singleton]; omega
    have hk : Keeps (rest T t i) t.k { t.k with
        mem := put t.k.mem (PTE2PA ((T i).leaf (va / PGSIZE)) + va % PGSIZE) [b] } := by
      intro x hx
      refine put_other (hs.space.user _ hlt).range.1 hmod fun hpg => hx ?_
      rw [hpg]
      rw [Pi.add_apply] at hR
      omega
    have hinv := h.update (c := t.proc i) hi (AS.put (h.as hi) hlt hmod) rfl (h.priv hi)
      NoNew.refl (keep_tabs hk) hs.le hs.used
    have hv := views_update (A := T i) h hi hk
    rw [Function.update_eq_self, Function.update_eq_self] at hinv hv
    refine ⟨hinv, hv.trans ?_⟩
    congr 2
    refine UMem.ext rfl (funext fun x => ?_)
    simp only [view, UMem.store]
    by_cases hx : x / PGSIZE < pgs (t.proc i).sz
    · rw [if_pos hx, rd_put hs.space hlt hmod hx]
      by_cases hxv : x = va
      · subst hxv
        rw [Function.update_self, if_pos ⟨rfl, le_rfl, by simp⟩]
        simp
      · rw [Function.update_of_ne hxv, if_pos hx, if_neg]
        rintro ⟨h1, h2, h3⟩
        simp only [List.length_singleton] at h3
        unfold PGSIZE at *
        omega
    · have hxv : x ≠ va := by rintro rfl; exact hx hlt
      rw [if_neg hx, Function.update_of_ne hxv, if_neg hx]
  · rw [if_neg fun hcc => hc ⟨hcc.1, ⟨hcc.2.1, hcc.2.2.1⟩, hcc.2.2.2⟩, wp_pure, if_neg hc]
    exact ⟨h, rfl⟩

/-! ### `copyout` and its callers -/

lemma Inv.visit_held (h : Inv L t T) (hi : Live (t.proc i)) {shared : ℕ → Prop}
    [DecidablePred shared] {n free dstva : ℕ} {src : List Byte} {w : Visit}
    (hw : w ∈ visits (T i).leaf shared n free dstva src) : w.vpn < pgs (t.proc i).sz := by
  obtain ⟨-, -, hok, -⟩ := visits_spec _ w hw
  exact Space.lt_np (h.slot i hi).space hok.1 (Or.inl hok.2)

lemma Inv.copied {m : ℕ} {dstva n free : ℕ} {src : List Byte} (h : Inv L t T)
    (hi : Live (t.proc i))
    (hc : Copied L (t.proc i).pagetable (rest T t i + ref (t.proc i).trapframe)
      (pgs (t.proc i).sz) (t.proc i).trapframe (T i) t.k
      (visits (T i).leaf (fun q => (rest T t i + ref (t.proc i).trapframe) q ≠ 0) n free dstva src)
      dstva src m A k) :
    Inv L { t with k := k } (Function.update T i A) := by
  have hs := h.slot i hi
  have hinv := h.update (c := t.proc i) hi hc.as rfl hc.priv hc.noNew (fun j hji hj x hx => ?_)
    hs.le hs.used
  · rw [Function.update_eq_self] at hinv
    exact hinv
  · have h1 := held_le_rest T t hji (PGROUNDDOWN x)
    have h2 := held_tab hj hx
    refine hc.kept x (Or.inl (by rw [Pi.add_apply]; omega)) fun w hw _ hpg => ?_
    -- a table of another process is no user page of this one
    have h3 := hs.held_leaf hi (Inv.visit_held h hi hw)
    have h4 := (h.single j hj).tab _ hx
    rw [total_eq T t i] at h4
    rw [← hpg] at h3
    omega

lemma copyout_step (h : Inv L t T) (hi : Live (t.proc i)) (dstva : ℕ) (src : List Byte) :
    wp (vm (copyout (t.proc i).pagetable dstva src)) (fun _ t' => ∃ T' k, t' = { t with k := k } ∧
      Inv L t' T') E t := by
  rw [wp_vm]
  refine wp_post (copyout_spec (h.as hi) (h.priv hi)) ?_
  rintro r k ⟨A', m, hc, -⟩
  exact ⟨_, k, rfl, Inv.copied h hi hc⟩

lemma exit_spec (h : Inv L t T) (hi : Live (t.proc i)) (status : ℤ) :
    wp (exit i status) (fun _ t' => Inv L t' T ∧ views T t' = views T t)
      (fun e => e = .init_exiting) t := by
  unfold exit
  rw [wp_bind, wp_get]
  dsimp only
  split_ifs
  · rfl
  rw [wp_set]
  refine ⟨h.frame rfl rfl (fun _ _ _ _ => rfl) rfl (fun j => ?_) (fun j hj => ?_) fun j hj => ?_,
    views_frame h (fun j => ?_) fun _ _ _ _ => rfl⟩
  · dsimp only
    split_ifs with h1 h2
    · subst h1; exact ⟨rfl, rfl, rfl⟩
    · exact ⟨rfl, rfl, rfl⟩
    · exact ⟨rfl, rfl, rfl⟩
  · dsimp only
    split_ifs with h1 h2
    · simp
    · exact (h.slot j hj).used
    · exact (h.slot j hj).used
  · have hu := h.idle j hj
    dsimp only
    split_ifs with h1 h2
    · subst h1; exact absurd hi hj
    · rw [hu] at h2; cases h2
    · rfl
  · dsimp only
    split_ifs with h1 h2
    · subst h1; exact ⟨rfl, rfl⟩
    · exact ⟨rfl, rfl⟩
    · exact ⟨rfl, rfl⟩

lemma zombieChild_some (hz : zombieChild t i = some j) :
    (t.proc j).parent = some i ∧ (t.proc j).state = .ZOMBIE := by
  simpa using List.find?_some hz

lemma wait_zero_spec (h : Inv L t T) :
    wp (wait i 0) (fun _ t' => Inv L t' T ∧ views T t' =
      match zombieChild t i with
      | some j => Function.update (views T t) j none
      | none => views T t) E t := by
  unfold wait
  rw [wp_bind, wp_get]
  rcases hz : zombieChild t i with _ | j
  · dsimp only
    split_ifs <;> exact ⟨h, rfl⟩
  · have hj := Inv.live h (i := j) (by rw [(zombieChild_some hz).2]; simp)
    dsimp only
    rw [if_neg (by simp), wp_bind, wp_pure, if_neg (by norm_num), wp_bind]
    refine wp_post (freeproc_spec h hj) ?_
    rintro _ t1 ⟨k, rfl, h1, hk⟩
    exact ⟨h1, views_remove h hk⟩

lemma wait_spec (h : Inv L t T) (hrun : (t.proc i).state = .RUNNABLE) (addr : ℕ) :
    wp (wait i addr) (fun _ t' => ∃ T', Inv L t' T' ∧ t'.proc i = t.proc i) E t := by
  have hi := Inv.live h (i := i) (by rw [hrun]; simp)
  unfold wait
  rw [wp_bind, wp_get]
  rcases hz : zombieChild t i with _ | j
  · dsimp only
    split_ifs <;> exact ⟨T, h, rfl⟩
  · have hzom := (zombieChild_some hz).2
    have hij : i ≠ j := by rintro rfl; rw [hrun] at hzom; cases hzom
    have hj := Inv.live h (i := j) (by rw [hzom]; simp)
    -- the zombie is freed unless the status could not be copied out
    have hreap : ∀ (r : ℤ) (k : KState) T1, Inv L { t with k := k } T1 →
        wp (if r < 0 then pure (some (-1)) else do
          freeproc j
          pure (some (t.proc j).pid)) (fun _ t' => ∃ T', Inv L t' T' ∧ t'.proc i = t.proc i) E
          { t with k := k } := by
      intro r k T1 h1
      split_ifs
      · exact ⟨T1, h1, rfl⟩
      · rw [wp_bind]
        refine wp_post (freeproc_spec (i := j) h1 hj) ?_
        rintro _ t2 ⟨k2, rfl, h2, -⟩
        exact ⟨T1, h2, Function.update_of_ne hij _ _⟩
    dsimp only
    by_cases h0 : addr ≠ 0
    · rw [if_pos h0, wp_bind]
      refine wp_post (copyout_step h hi addr _) ?_
      rintro r t1 ⟨T1, k, rfl, h1⟩
      exact hreap r k T1 h1
    · rw [if_neg h0, wp_bind, wp_pure]
      exact hreap 0 t.k T h

lemma sys_waitx_spec (h : Inv L t T) (hrun : (t.proc i).state = .RUNNABLE)
    (addr addr1 addr2 wtime rtime : ℕ) :
    wp (sys_waitx i addr addr1 addr2 wtime rtime) (fun _ t' => ∃ T', Inv L t' T') E t := by
  unfold sys_waitx
  rw [wp_bind]
  refine wp_post (wait_spec h hrun addr) ?_
  rintro (_ | ret) t1 ⟨T1, h1, hp⟩
  · exact ⟨T1, h1⟩
  · have hi : Live (t1.proc i) := Inv.live h1 (by rw [hp, hrun]; simp)
    dsimp only
    rw [wp_bind, wp_get, wp_bind]
    refine wp_post (copyout_step h1 hi _ _) ?_
    rintro r t2 ⟨T2, k2, rfl, h2⟩
    split_ifs
    · exact ⟨T2, h2⟩
    · rw [wp_bind]
      refine wp_post (copyout_step h2 hi _ _) ?_
      rintro r' t3 ⟨T3, k3, rfl, h3⟩
      split_ifs <;> exact ⟨T3, h3⟩

/-! ### `exec` -/

lemma AS.of_mem {R : ℕ → ℕ} {np tf : ℕ} (h : AS L k root A R np tf) {m : Mem}
    (hm : ∀ x, IsTab A (PGROUNDDOWN x) → m x = k.mem x) :
    AS L { k with mem := m } root A R np tf :=
  ⟨⟨h.owns.wf, h.owns.rep.congr h.owns.wf hm, h.owns.acct.of_mem rfl rfl, h.owns.excl⟩, h.space⟩

lemma old_as (h : Inv L t T) (hi : Live (t.proc i)) {sz : ℕ}
    (hb : Building L root (t.proc i).trapframe (total T t) t.k A sz k) :
    AS L k (t.proc i).pagetable (T i)
      (rest T t i + ref (t.proc i).trapframe + tabs A + leaves A.leaf)
      (pgs (t.proc i).sz) (t.proc i).trapframe := by
  have hA := h.as hi
  refine ⟨Owns.of_keeps hA.owns (hb.as.owns.acct.congr fun q => ?_) hb.keeps (fun q hq => ?_)
    fun q hq => ?_, hA.space⟩
  · have h1 := total_eq T t i q
    rw [held_live hi] at h1
    simp only [Pi.add_apply] at h1 ⊢
    omega
  · rw [(h.single i hi).tab q hq]; omega
  · have h1 := hA.owns.excl q hq
    have h2 := (h.single i hi).tab q hq
    have h3 := hb.own q (by omega)
    have h4 : tabs A q = 0 := by
      by_contra hc
      have := hb.as.owns.excl q (isTab_iff.mp hc)
      rw [Pi.add_apply] at this
      omega
    simp only [Pi.add_apply] at h1 ⊢
    omega

/-- The image of a process in place of its old address space. -/
lemma Inv.exec (h : Inv L t T) (hi : Live (t.proc i)) {im : Exec.Image} {m : Mem} {k2 : KState}
    (hb : Building L im.pagetable (t.proc i).trapframe (total T t) t.k A im.sz k)
    (hm : ∀ x, PGROUNDDOWN x ≠ (t.proc i).trapframe → m x = k.mem x)
    (hacct : Acct L k2 (rest T t i + ref (t.proc i).trapframe + tabs A + leaves A.leaf))
    (hk2 : Keeps (rest T t i + ref (t.proc i).trapframe + tabs A + leaves A.leaf)
      { k with mem := m } k2) :
    Inv L
      { t with
        k := k2
        proc := Function.update t.proc i
          { t.proc i with pagetable := im.pagetable, sz := im.sz } }
      (Function.update T i A) := by
  have hle : ∀ q, (rest T t i + ref (t.proc i).trapframe) q ≤ total T t q := fun q => by
    rw [total_eq T t i, held_live hi]
    simp only [Pi.add_apply]; omega
  have htf : ¬ IsTab A (t.proc i).trapframe := fun hc => by
    have h1 := hb.as.owns.excl _ hc
    rw [Pi.add_apply, (h.single i hi).trapframe] at h1
    omega
  have hA : AS L k2 im.pagetable A (rest T t i + ref (t.proc i).trapframe) (pgs im.sz)
      (t.proc i).trapframe := by
    have h1 := AS.of_mem (m := m) hb.as fun x hx => hm x (by rintro hc; rw [hc] at hx; exact htf hx)
    refine ⟨Owns.of_keeps h1.owns (hacct.congr fun q => ?_) hk2 (fun q hq => ?_) fun q hq => ?_,
      hb.as.space⟩
    · simp only [Pi.add_apply]; omega
    · have := isTab_iff.mpr hq
      simp only [Pi.add_apply]; omega
    · have h2 := hb.as.owns.excl q hq
      have h3 := hle q
      simp only [Pi.add_apply] at h2 h3 ⊢
      omega
  refine h.update hi hA rfl (fun v hv hW => ?_) (fun q hq => ?_) (fun j hji hj x hx => ?_) hb.le
    (h.slot i hi).used
  · have h1 := hb.priv v hv hW
    have h2 := hle (PTE2PA (A.leaf v))
    omega
  · have h1 := hle q
    have h2 := hb.own q (by omega)
    omega
  · have h1 := held_le_rest T t hji (PGROUNDDOWN x)
    have h2 := held_tab hj hx
    have hq := quiet_trapframe h hi j hj
    rw [hk2 x (by simp only [Pi.add_apply]; omega)]
    refine (hm x ?_).trans (hb.keeps x ?_)
    · rintro hc; rw [hc] at hx; exact hq.1 hx
    · rw [(h.single j hj).tab _ hx]; omega

/-- The registers `exec` sets in the trapframe at `tf`. -/
def execRegs (m : Mem) (tf : ℕ) (im : Exec.Image) : Mem :=
  st64 (st64 (st64 m (tf + TF_A1) (BitVec.ofNat 64 im.sp)) (tf + TF_EPC) (BitVec.ofNat 64 im.entry))
    (tf + TF_SP) (BitVec.ofNat 64 im.sp)

lemma execRegs_other (h : Inv L t T) (hi : Live (t.proc i)) (m : Mem) (im : Exec.Image) {x : ℕ}
    (hx : PGROUNDDOWN x ≠ (t.proc i).trapframe) :
    execRegs m (t.proc i).trapframe im x = m x := by
  have h1 := fun off (ho : off + 8 ≤ PGSIZE) => trapframe_page (x := x) h hi off 8 ho hx
  unfold execRegs
  rw [st64_out (h1 TF_SP (by unfold TF_SP PGSIZE; omega)),
    st64_out (h1 TF_EPC (by unfold TF_EPC PGSIZE; omega)),
    st64_out (h1 TF_A1 (by unfold TF_A1 PGSIZE; omega))]

/-- The image `im` with page table `A` and the arguments `argv` has taken the place of the old
address space of process `i`. -/
structure Execed (L : Layout) (T : Fin NPROC → PTab) (i : Fin NPROC) (argv : List (List Byte))
    (im : Exec.Image) (A : PTab) (t t' : Kern) : Prop where
  inv : Inv L t' (Function.update T i A)
  proc : t'.proc = Function.update t.proc i { t.proc i with pagetable := im.pagetable, sz := im.sz }
  own : t'.own = t.own
  init : t'.initproc = t.initproc
  fresh : ∀ p, total T t p ≠ 0 → tabs A p = 0 ∧ leaves A.leaf p = 0
  keeps : Keeps (rest T t i) t.k t'.k
  stack : ∃ ps q, Stacked (rd A.leaf t'.k.mem) im.sz argv ps q im.sp
  regs : ld64 t'.k.mem ((t.proc i).trapframe + TF_A1) = BitVec.ofNat 64 im.sp ∧
    ld64 t'.k.mem ((t.proc i).trapframe + TF_SP) = BitVec.ofNat 64 im.sp

/-- **`exec`**: a new image, or all pages taken are given back and nothing referenced is touched. -/
lemma exec_outcome (h : Inv L t T) (hi : Live (t.proc i)) (ip : Option Inode)
    (argv : List (List Byte)) :
    wp (exec L i ip argv) (fun r t' =>
      (r = -1 ∧ ∃ k, t' = { t with k := k } ∧ Inv L t' T ∧ Keeps (total T t) t.k k) ∨
      (r = argv.length ∧ ∃ im A, Execed L T i argv im A t t')) E t := by
  have htf := (h.slot i hi).space.tf_range
  unfold Exec.exec
  rcases ip with _ | ip
  · exact Or.inl ⟨rfl, t.k, rfl, h, Keeps.refl⟩
  dsimp only
  rw [wp_bind, wp_get, wp_bind, wp_vm]
  refine wp_post (execImage_spec h.acct htf) ?_
  rintro r k (⟨rfl, hacct, hk⟩ | ⟨im, A, rfl, hb, ps, q, hst⟩)
  · exact Or.inl ⟨rfl, k, rfl, h.recount hacct hk _, hk⟩
  · dsimp only
    simp only [wp_bind, wp_vm, wp_st, wp_setProc]
    have hm : ∀ x, PGROUNDDOWN x ≠ (t.proc i).trapframe →
        execRegs k.mem (t.proc i).trapframe im x = k.mem x := fun x hx => execRegs_other h hi _ im hx
    have hold := AS.of_mem (m := execRegs k.mem (t.proc i).trapframe im) (old_as h hi hb)
      fun x hx => hm x fun hc => by
        rw [hc] at hx
        exact (quiet_trapframe h hi i hi).1 hx
    refine wp_post (proc_freepagetable_spec hold) ?_
    rintro _ k2 ⟨hacct, hk2⟩
    rw [wp_pure]
    have hfresh : ∀ p, total T t p ≠ 0 → tabs A p = 0 ∧ leaves A.leaf p = 0 := by
      intro p hp
      refine ⟨?_, hb.own p hp⟩
      by_contra hc
      have := hb.as.owns.excl p (isTab_iff.mp hc)
      rw [Pi.add_apply] at this
      omega
    have htot : total T t (t.proc i).trapframe ≠ 0 := by
      rw [(h.single i hi).trapframe]
      omega
    refine Or.inr ⟨rfl, im, A, Inv.exec h hi hb hm hacct hk2, rfl, rfl, rfl, hfresh,
      fun x hx => ?_, ⟨ps, q, ?_⟩, ?_⟩
    · -- the trapframe is nobody else's
      have hne : PGROUNDDOWN x ≠ (t.proc i).trapframe := by
        intro hc
        have h1 := (h.single i hi).trapframe
        rw [total_eq T t i] at h1
        have h2 := held_trapframe (A := T i) hi
        rw [hc] at hx
        omega
      refine (hk2 x ?_).trans ((hm x hne).trans (hb.keeps x ?_))
      · simp only [Pi.add_apply]
        omega
      · rw [total_eq T t i]
        omega
    · refine hst.congr fun va _ hva => ?_
      have hpg : va / PGSIZE < pgs im.sz := by
        have hle := hb.le
        rw [pgs_eq (by unfold PGSIZE; omega)]
        unfold PGSIZE
        omega
      have hone := Space.leaves_user hb.as.space hpg
      have hne : PTE2PA (A.leaf (va / PGSIZE)) ≠ (t.proc i).trapframe := by
        intro hc
        rw [hc, (hfresh _ htot).2] at hone
        omega
      refine (rd_keeps hb.as.space hk2 hpg ?_).trans (hm _ ?_)
      · simp only [Pi.add_apply]
        omega
      · rw [rd_page hb.as.space hpg]
        exact hne
    · -- the registers survive the freeing of the old pages
      have hpage : ∀ off, off + 8 ≤ PGSIZE → ld64 k2.mem ((t.proc i).trapframe + off) =
          ld64 (execRegs k.mem (t.proc i).trapframe im) ((t.proc i).trapframe + off) := by
        intro off hoff
        refine ld64_congr fun x hlo hhi => hk2 x ?_
        rw [(rounddown_eq htf.1).mpr ⟨by omega, by omega⟩]
        simp only [Pi.add_apply, ref_self]
        omega
      constructor
      · refine (hpage _ (by unfold TF_A1 PGSIZE; omega)).trans ?_
        unfold execRegs
        rw [ld64_st64_ne (by unfold TF_SP TF_A1; omega), ld64_st64_ne (by unfold TF_EPC TF_A1; omega),
          ld64_st64]
      · refine (hpage _ (by unfold TF_SP PGSIZE; omega)).trans ?_
        unfold execRegs
        rw [ld64_st64]

lemma exec_spec (h : Inv L t T) (hi : Live (t.proc i)) (ip : Option Inode)
    (argv : List (List Byte)) :
    wp (exec L i ip argv) (fun _ t' => ∃ T', Inv L t' T') E t := by
  refine wp_post (exec_outcome h hi ip argv) ?_
  rintro r t' (⟨-, k, -, h1, -⟩ | ⟨-, im, A, h1⟩)
  · exact ⟨T, h1⟩
  · exact ⟨_, h1.inv⟩

end Xv6.Steps
