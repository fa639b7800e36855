import Xv6.Steps

/-!
The invariant holds in every reachable state: boot establishes it and each operation keeps it.
-/

namespace Xv6.Reach

open Xv6.ByteMem Xv6.Riscv Xv6.Kalloc Xv6.Vm Xv6.Wp Xv6.PageTable Xv6.Walk Xv6.Unmap
open Xv6.AddrSpace Xv6.Grow Xv6.Cow Xv6.Copyout Xv6.Create Xv6.Share Xv6.Process Xv6.Invariant
open Xv6.View Xv6.Ops Xv6.Fork Xv6.Exec Xv6.Image Xv6.Kernel Xv6.Steps

variable {L : Layout} {t t' : Kern} {T : Fin NPROC → PTab} {i j : Fin NPROC} {E : Panic → Prop}
  {A : PTab} {s s' : KState} {U : ℕ → ℕ}

/-! ### Single owners -/

/-- What an owner outside the process table does to the rest of the system. -/
structure Apart (L : Layout) (T : Fin NPROC → PTab) (t t' : Kern) : Prop where
  inv : Inv L t' T
  proc : t'.proc = t.proc
  init : t'.initproc = t.initproc
  views : views T t' = views T t

lemma total_own_cons (T : Fin NPROC → PTab) (t : Kern) (k : KState) (p : ℕ) :
    total T { t with k := k, own := p :: t.own } = total T t + ref p := by
  funext q
  simp only [total, Pi.add_apply, List.count_cons, ref, beq_iff_eq]
  by_cases hq : p = q
  · subst hq; simp; omega
  · rw [if_neg hq, if_neg (Ne.symm hq)]; omega

lemma total_own_erase {p : ℕ} (T : Fin NPROC → PTab) (k : KState) (hp : p ∈ t.own) :
    total T t = total T { t with k := k, own := t.own.erase p } + ref p := by
  have hpos : 0 < t.own.count p := List.count_pos_iff.mpr hp
  funext q
  simp only [total, Pi.add_apply, ref, List.count_erase, beq_iff_eq]
  by_cases hq : p = q
  · subst hq; simp; omega
  · rw [if_neg hq, if_neg (Ne.symm hq)]; omega

lemma Apart.take {p : ℕ} {k : KState} (h : Inv L t T) (hU : total T t p = 0)
    (hacct : Acct L k (total T t + ref p)) (hk : Keeps (total T t) t.k k) :
    Apart L T t { t with k := k, own := p :: t.own } := by
  have htot := total_own_cons T t k p
  refine ⟨?_, rfl, rfl, ?_⟩
  · refine h.rebuild (fun _ => False) (fun _ _ => ⟨rfl, rfl⟩) (by rw [htot]; exact hacct)
      (fun j _ hj x hx => hk x ?_) (fun q hq _ => ?_) (fun q hq => ?_) (fun _ hc => hc.elim)
      fun _ hc => hc.elim
    · rw [(h.single j hj).tab _ hx]; omega
    · have hne : q ≠ p := by rintro rfl; omega
      rw [htot, Pi.add_apply, ref_ne hne]; omega
    · rcases List.mem_cons.mp hq with rfl | hq
      · rw [htot, Pi.add_apply, hU, ref_self]
      · have hone := h.own_one q hq
        have hne : q ≠ p := by rintro rfl; omega
        rw [htot, Pi.add_apply, ref_ne hne]; omega
  · refine views_frame h (fun _ => ⟨rfl, rfl⟩) fun l hl x hx => hk x ?_
    have h1 := total_eq T t l (PGROUNDDOWN x)
    rw [held_live hl] at h1
    simp only [Pi.add_apply] at h1
    omega

lemma own_alloc_spec (h : Inv L t T) :
    wp own_alloc (fun _ t' => Apart L T t t' ∧
      t'.k.freelist.length = t.k.freelist.length - 1) E t := by
  unfold own_alloc
  rw [wp_bind, wp_vm]
  refine wp_post (kalloc_spec h.acct) ?_
  rintro p k (⟨rfl, rfl, hf⟩ | ⟨hp, hU, hacct, hk, hf⟩)
  · rw [if_pos rfl, wp_pure]
    exact ⟨⟨h, rfl, rfl, rfl⟩, by rw [hf]; rfl⟩
  · rw [if_neg hp.pos.ne', wp_modify]
    exact ⟨Apart.take h hU hacct hk, by rw [hf]; simp⟩

/-- An outside owner gives a page back. -/
lemma Apart.drop {p : ℕ} {k : KState} (h : Inv L t T) (hp : p ∈ t.own)
    (hacct : Acct L k (total T { t with k := k, own := t.own.erase p }))
    (hk : Keeps (total T { t with k := k, own := t.own.erase p }) t.k k) :
    Apart L T t { t with k := k, own := t.own.erase p } := by
  have htot := total_own_erase T k hp
  have hle : ∀ {q}, q ≠ p → total T { t with k := k, own := t.own.erase p } q = total T t q :=
    fun hq => by rw [htot, Pi.add_apply, ref_ne hq]; omega
  have hquiet := quiet_own h hp
  have hkl : ∀ l, Live (t.proc l) → ∀ x, held (T l) (t.proc l) (PGROUNDDOWN x) ≠ 0 →
      PGROUNDDOWN x ≠ p → k.mem x = t.k.mem x := by
    intro l hl x hx hne
    refine hk x ?_
    have h1 := total_eq T t l (PGROUNDDOWN x)
    rw [hle hne]; omega
  refine ⟨?_, rfl, rfl, ?_⟩
  · refine h.rebuild (fun _ => False) (fun _ _ => ⟨rfl, rfl⟩) hacct
      (fun j _ hj x hx => hkl j hj x (held_tab hj hx) ?_) (fun q hq hex => ?_) (fun q hq => ?_)
      (fun _ hc => hc.elim) fun _ hc => hc.elim
    · rintro hc; rw [hc] at hx; exact (hquiet j hj).1 hx
    · obtain ⟨j, -, hj⟩ := hex
      have hne : q ≠ p := by
        rintro rfl
        have h1 := own_le_rest T t j hp
        rw [total_eq T t j] at hq
        omega
      rw [hle hne]; exact hq
    · have hq' : q ∈ t.own := List.mem_of_mem_erase hq
      have hne : q ≠ p := by
        rintro rfl
        have h1 : 0 < (t.own.erase q).count q := List.count_pos_iff.mpr hq
        have h2 := h.own_one q hp
        rw [List.count_erase_self] at h1
        unfold total at h2
        omega
      rw [hle hne]; exact h.own_one q hq'
  · refine views_frame h (fun _ => ⟨rfl, rfl⟩) fun l hl x hx => hkl l hl x ?_ ?_
    · rw [held_live hl]; simp only [Pi.add_apply]; omega
    · rintro hc; rw [hc] at hx; exact hx (hquiet l hl).2

lemma own_free_spec (h : Inv L t T) (p : ℕ) :
    wp (own_free p) (fun _ t' => Apart L T t t') E t := by
  unfold own_free
  rw [wp_bind, wp_get]
  split_ifs with hp
  · rw [wp_bind, wp_vm]
    have hacct := h.acct
    rw [total_own_erase T t.k hp] at hacct
    refine wp_post (kfree_spec hacct) ?_
    rintro _ k ⟨hacct, hk, -⟩
    exact Apart.drop h hp hacct hk
  · exact ⟨h, rfl, rfl, rfl⟩

lemma Apart.write (h : Inv L t T) {q off : ℕ} (hq : Quiet T t q) (hal : q % PGSIZE = 0)
    {bs : List Byte} (hoff : off + bs.length ≤ PGSIZE) :
    Apart L T t { t with k := { t.k with mem := put t.k.mem (q + off) bs } } := by
  obtain ⟨h1, h2⟩ := Inv.write h hq (m := put t.k.mem (q + off) bs) fun x hx =>
    put_other hal hoff hx
  exact ⟨h1, rfl, rfl, h2⟩

lemma own_write_spec (h : Inv L t T) (p off : ℕ) (bs : List Byte) :
    wp (own_write p off bs) (fun _ t' => Apart L T t t') E t := by
  unfold own_write
  rw [wp_bind, wp_get]
  split_ifs with hp
  · rw [wp_vm, wp_modify]
    refine Apart.write h (quiet_own h hp.1) (h.acct.range p ?_).1 hp.2
    rw [h.own_one p hp.1]; omega
  · exact ⟨h, rfl, rfl, rfl⟩

lemma save_regs_spec (h : Inv L t T) (hi : Live (t.proc i)) (regs : List Byte) :
    wp (save_regs i regs) (fun _ t' => Apart L T t t') E t := by
  unfold save_regs
  rw [wp_bind, wp_get, wp_vm, wp_modify]
  have := Apart.write h (quiet_trapframe h hi) (h.slot i hi).space.tf_range.1
    (show 0 + (regs.take TF_SIZE).length ≤ PGSIZE by
      rw [List.length_take]; unfold TF_SIZE PGSIZE; omega)
  rw [Nat.add_zero] at this
  exact this

/-! ### Steps and runs -/

/-- The panics an operation can reach. -/
def Reachable (e : Panic) : Prop := CowPanic e ∨ e = .init_exiting

lemma running_spec {α : Type} {m : S α} {E' : Panic → Prop} (h : Inv L t T)
    (hE : ∀ e, E' e → Reachable e)
    (hm : (t.proc i).state = .RUNNABLE → Live (t.proc i) →
      wp m (fun _ t' => ∃ T', Inv L t' T') E' t) :
    wp (running i m) (fun _ t' => ∃ T', Inv L t' T') Reachable t := by
  unfold running
  rw [wp_bind, wp_get]
  split_ifs with hs
  · rw [wp_bind]
    exact wp_mono (hm hs (Inv.live h (by rw [hs]; simp))) (fun _ _ h => h) hE
  · exact ⟨T, h⟩

/-- **Every operation keeps the invariant.** -/
lemma step_spec (h : Inv L t T) (op : Op) :
    wp (step L op) (fun _ t' => ∃ T', Inv L t' T') Reachable t := by
  have hE : ∀ e, (fun _ : Panic => False) e → Reachable e := fun _ => False.elim
  cases op with
  | fork i =>
      refine running_spec h hE fun _ hi => wp_post (fork_spec h hi) ?_
      rintro _ t1 ⟨T1, h1, -⟩
      exact ⟨T1, h1⟩
  | growproc i n =>
      refine running_spec h hE fun _ hi => wp_post (growproc_spec h hi ?_ ?_) ?_
      · have := BitVec.le_toInt n; simpa using this
      · have := BitVec.toInt_lt (x := n); simpa using this
      · rintro _ t1 ⟨A1, h1, -⟩
        exact ⟨_, h1⟩
  | exec i ip argv => exact running_spec h hE fun _ hi => exec_spec h hi ip argv
  | store_fault i stval =>
      exact running_spec h (fun _ => Or.inl) fun _ hi => usertrap_store_spec h hi stval
  | exit i status =>
      refine running_spec h (fun _ => Or.inr) fun _ hi => wp_post (exit_spec h hi status) ?_
      rintro _ t1 ⟨h1, -⟩
      exact ⟨T, h1⟩
  | wait i addr =>
      refine running_spec h hE fun hr _ => wp_post (wait_spec h hr addr) ?_
      rintro _ t1 ⟨T1, h1, -⟩
      exact ⟨T1, h1⟩
  | waitx i addr addr1 addr2 wtime rtime =>
      exact running_spec h hE fun hr _ => sys_waitx_spec h hr addr addr1 addr2 wtime rtime
  | copyout i dstva src =>
      refine running_spec h hE fun _ hi => ?_
      rw [wp_bind, wp_get]
      refine wp_post (copyout_step h hi dstva src) ?_
      rintro _ t1 ⟨T1, k, -, h1⟩
      exact ⟨T1, h1⟩
  | user_store i va b =>
      refine running_spec h hE fun _ hi => wp_post (user_store_spec h hi va b) ?_
      rintro _ t1 ⟨h1, -⟩
      exact ⟨T, h1⟩
  | save_regs i regs =>
      exact running_spec h hE fun _ hi => wp_post (save_regs_spec h hi regs) fun _ t1 h1 =>
        ⟨T, h1.inv⟩
  | own_alloc => exact wp_post (own_alloc_spec h) fun _ t1 h1 => ⟨T, h1.1.inv⟩
  | own_free p => exact wp_post (own_free_spec h p) fun _ t1 h1 => ⟨T, h1.inv⟩
  | own_write p off bs => exact wp_post (own_write_spec h p off bs) fun _ t1 h1 => ⟨T, h1.inv⟩

lemma run_spec (ops : List Op) : ∀ {t : Kern} {T : Fin NPROC → PTab}, Inv L t T →
    wp (run L ops) (fun _ t' => ∃ T', Inv L t' T') Reachable t := by
  induction ops with
  | nil => intro t T h; exact ⟨T, h⟩
  | cons op ops ih =>
      intro t T h
      unfold run
      rw [wp_bind]
      refine wp_post (step_spec h op) ?_
      rintro _ t1 ⟨T1, h1⟩
      exact ih h1

/-! ### Boot -/

lemma free_length (h : Acct L s 0) {n : ℕ} (hn : PGROUNDUP L.endp + n * PGSIZE ≤ PHYSTOP) :
    n ≤ s.freelist.length := by
  have hpos : 0 < PGSIZE := by unfold PGSIZE; omega
  have hnd : ((List.range n).map fun k => PGROUNDUP L.endp + k * PGSIZE).Nodup := by
    refine List.Nodup.map (fun a b hab => ?_) List.nodup_range
    exact Nat.eq_of_mul_eq_mul_right hpos (Nat.add_left_cancel hab)
  have hsub : ((List.range n).map fun k => PGROUNDUP L.endp + k * PGSIZE) ⊆ s.freelist := by
    intro p hp
    obtain ⟨k, hk, rfl⟩ := List.mem_map.mp hp
    rw [List.mem_range] at hk
    have hlt : (k + 1) * PGSIZE ≤ n * PGSIZE := Nat.mul_le_mul_right _ hk
    rw [Nat.add_mul, Nat.one_mul] at hlt
    refine (h.mem_free _).mpr ⟨⟨?_, by omega, by omega⟩, rfl⟩
    rw [Nat.add_mul_mod_self_right]
    exact lo_aligned L
  have := (List.subperm_of_subset hnd hsub).length_le
  simpa using this

/-- The flags of the first page: everything allowed. -/
def firstPerm : Word := PTE_W ||| PTE_X

lemma perm_first : Perm firstPerm := ⟨isFlags_or isFlags_W isFlags_X, rfl⟩

lemma firstEntry (p : ℕ) :
    PA2PTE p ||| (PTE_W ||| PTE_R ||| PTE_X ||| PTE_U) ||| PTE_V = newEntry p firstPerm := by
  unfold newEntry firstPerm
  rw [show PTE_W ||| PTE_R ||| PTE_X ||| PTE_U = PTE_R ||| PTE_U ||| (PTE_W ||| PTE_X) by decide]

/-- **`uvmfirst`** with four pages left: one user page. -/
lemma uvmfirst_spec {root tf : ℕ} {R : ℕ → ℕ} {src : List Byte} (h : AS L s root A R 0 tf)
    (hsrc : src.length < PGSIZE) (hlen : 4 ≤ s.freelist.length) :
    wp (uvmfirst root src) (fun _ s' => ∃ A' p, AS L s' root A' R 1 tf ∧
      Keeps (R + leaves A.leaf) s s' ∧ NoNew R A.leaf A'.leaf ∧ R p = 0 ∧ InRange L p ∧
      A'.leaf 0 = newEntry p firstPerm ∧
      s.freelist.length ≤ s'.freelist.length + 3) E s := by
  unfold uvmfirst
  rw [if_neg (by omega), wp_bind]
  refine wp_post (kalloc_spec h.owns.acct) ?_
  rintro p s1 (⟨rfl, rfl, hf⟩ | ⟨hp, hU, hacct, hk, hf⟩)
  · rw [hf] at hlen; simp at hlen
  obtain ⟨hacct', hk', hz⟩ := clear_fresh hp hU hacct hk
  have hlen1 : s.freelist.length = s1.freelist.length + 1 := by rw [hf]; rfl
  have hg : Grown L root R A.leaf firstPerm 0 tf 0 A s s := Grown.refl h
  have hunm := hg.unmapped
  rw [if_neg hp.pos.ne', wp_bind, wp_memset, wp_bind]
  refine wp_post (mappages_spec (Owns.with_fresh h.owns hU hacct' hk') (Nat.zero_mod _)
    (by unfold MAXVA; norm_num) (by rw [Nat.zero_div]; exact hunm)) ?_
  rintro r s2 ⟨A2, ⟨rfl, hempty, hgr⟩ | ⟨rfl, hgr⟩⟩
  · obtain ⟨ps, hps, hle⟩ := hgr.taken
    rw [hempty, List.append_nil] at hps
    have hl := congrArg List.length hps
    dsimp only at hl
    omega
  · obtain ⟨ps, hps, hle⟩ := hgr.taken
    rw [Nat.zero_div, firstEntry] at hgr
    have hs := hg.step perm_first hp hU hk' hz hgr
    have he : A2.leaf 0 = newEntry p firstPerm := by rw [hgr.leaf, Function.update_self]
    have hpa : PTE2PA (A2.leaf 0) = p := by rw [he, newEntry_pa hp perm_first]
    have hRp : R p = 0 ∧ leaves A.leaf p = 0 := by simp only [Pi.add_apply] at hU; omega
    rw [wp_modify]
    have hput := AS.put hs.as (show 0 < 0 + 1 by omega)
      (show 0 + src.length ≤ PGSIZE by omega)
    rw [hpa, Nat.add_zero] at hput
    refine ⟨A2, p, hput, fun x hx => ?_, hs.noNew, hRp.1, hp, he, ?_⟩
    · have hxp : PGROUNDDOWN x ≠ p := by
        rintro hc; rw [hc, Pi.add_apply] at hx; omega
      have := put_other (m := s2.mem) hp.1 (show 0 + src.length ≤ PGSIZE by omega) hxp
      rw [Nat.add_zero] at this
      exact this.trans (hs.keeps x hx)
    · have hl := congrArg List.length hps
      rw [List.length_append] at hl
      dsimp only at hl ⊢
      omega

/-- The state after boot: one process, whose only user page is writable. -/
structure Booted (L : Layout) (T : Fin NPROC → PTab) (i : Fin NPROC) (t : Kern) : Prop where
  inv : Inv L t T
  init : t.initproc = some i
  only : ∀ j, j ≠ i → ¬ Live (t.proc j)
  state : (t.proc i).state = .RUNNABLE
  sz : (t.proc i).sz = PGSIZE
  sp : (ld64 t.k.mem ((t.proc i).trapframe + TF_SP)).toNat = PGSIZE
  leaf : ∃ p, InRange L p ∧ (T i).leaf 0 = newEntry p firstPerm
  slot : (i : ℕ) = 0

lemma freeSlot_first (hnone : ∀ j, (t.proc j).state = .UNUSED) (hf : freeSlot t = some i) :
    (i : ℕ) = 0 := by
  unfold freeSlot at hf
  obtain ⟨-, as, bs, hl, has⟩ := List.find?_eq_some_iff_append.mp hf
  cases as with
  | nil =>
    have hlen : 0 < (List.finRange NPROC).length := by simp [NPROC]
    have h0 : (List.finRange NPROC)[0] = i := by simp only [hl, List.nil_append,
      List.getElem_cons_zero]
    rw [List.getElem_finRange] at h0
    rw [← h0]; rfl
  | cons a as => simpa [hnone a] using has a List.mem_cons_self

lemma initcode_length : initcode.length < PGSIZE := by
  unfold PGSIZE; decide

lemma pgs_pgsize : pgs PGSIZE = 1 := by
  unfold pgs PGROUNDUP u64 PGSIZE; norm_num

lemma userinit_spec (h : Inv L t T) (hnone : ∀ j, ¬ Live (t.proc j))
    (hlen : 10 ≤ t.k.freelist.length) :
    wp (userinit L initcode) (fun _ t' => ∃ T' i, Booted L T' i t' ∧
      t.k.freelist.length ≤ t'.k.freelist.length + 9) E t := by
  unfold userinit
  rw [wp_bind]
  refine wp_post (allocproc_spec h) ?_
  rintro (_ | i) t1 ha
  · -- there is a free slot and there are pages
    obtain ⟨-, -, hres⟩ := ha.out
    rcases hres with hres | hres
    · have hpos := NPROC_pos
      have hu := h.idle ⟨0, hpos⟩ (hnone _)
      exact absurd (by rw [hu]; rfl) (hres ⟨0, hpos⟩)
    · omega
  obtain ⟨hslot, A0, p, -, hlive, hsz, -, -, hproc, h1, -, hlen1⟩ := ha.out
  have hself : t1.proc i = p := by rw [hproc, Function.update_self]
  have hi : Live (t1.proc i) := by rw [hself]; exact hlive
  have hpg : pgs (t1.proc i).sz = 0 := by rw [hself, hsz]; exact pgs_zero
  dsimp only
  rw [wp_bind, wp_get, wp_bind, wp_set, wp_bind, wp_vm]
  have hA := h1.as hi
  rw [hpg] at hA
  refine wp_post (uvmfirst_spec hA initcode_length (by dsimp only; omega)) ?_
  rintro _ k ⟨A', q, hA', hk, hnew, hRq, hq, hleaf, hlen2⟩
  rw [wp_bind, wp_vm, wp_st, wp_bind, wp_vm, wp_st, wp_setProc]
  set p' : Proc := { t1.proc i with sz := PGSIZE, state := .RUNNABLE } with hp'
  have hk' : Keeps (rest (Function.update T i A0) t1 i) t1.k k := hk.mono fun x hx => by
    simp only [Pi.add_apply]; omega
  have h2 := h1.update (c := p') (A := A') hi (by
      change AS L k _ A' _ (pgs PGSIZE) _
      rw [pgs_pgsize]; exact hA') rfl (fun v hv _ => ?_) hnew (keep_tabs hk')
    (show PGSIZE ≤ 2 ^ 27 by unfold PGSIZE; norm_num) (by rw [hp']; simp)
  · set t2 : Kern := { t1 with k := k, proc := Function.update t1.proc i p' } with ht2
    have hp2 : t2.proc i = p' := Function.update_self ..
    have hl2 : Live (t2.proc i) := by rw [hp2]; exact hi
    have htf : (t2.proc i).trapframe = (t1.proc i).trapframe := by rw [hp2]
    set m := st64 (st64 k.mem ((t1.proc i).trapframe + TF_EPC) 0)
      ((t1.proc i).trapframe + TF_SP) (BitVec.ofNat 64 PGSIZE) with hm
    obtain ⟨h3, -⟩ := Inv.write h2 (quiet_trapframe h2 hl2) (m := m) fun x hx => by
      have hx1 := trapframe_page h2 hl2 TF_EPC 8
        (by unfold TF_EPC PGSIZE; omega) hx
      have hx2 := trapframe_page h2 hl2 TF_SP 8 (by unfold TF_SP PGSIZE; omega) hx
      rw [htf] at hx1 hx2
      rw [hm, st64_out hx2, st64_out hx1]
    have h4 : Inv L { t2 with k := { t2.k with mem := m }, initproc := some i }
        (Function.update (Function.update T i A0) i A') :=
      h3.frame rfl rfl (fun _ _ _ _ => rfl) rfl (fun _ => ⟨rfl, rfl, rfl⟩)
        (fun l hl => (h3.slot l hl).used) fun _ _ => rfl
    refine ⟨_, i, ⟨h4, rfl, fun j hj => ?_, ?_, ?_, ?_, ⟨q, hq, ?_⟩,
      freeSlot_first (fun j => ?_) hslot⟩, ?_⟩
    · change ¬ Live (t2.proc j)
      rw [ht2]
      dsimp only
      rw [Function.update_of_ne hj, hproc, Function.update_of_ne hj]
      exact hnone j
    · change (t2.proc i).state = _
      rw [hp2]
    · change (t2.proc i).sz = _
      rw [hp2]
    · change (ld64 m ((t2.proc i).trapframe + TF_SP)).toNat = _
      rw [htf, hm, ld64_st64]
      unfold PGSIZE; rfl
    · rw [Function.update_self]; exact hleaf
    · rw [h.idle j (hnone j)]; rfl
    · change t.k.freelist.length ≤ k.freelist.length + 9
      dsimp only at hlen2
      omega
  · change v < pgs PGSIZE at hv
    rw [pgs_pgsize] at hv
    obtain rfl : v = 0 := by omega
    rw [hleaf, newEntry_pa hq perm_first]
    exact hRq

lemma ownLoop_spec (n : ℕ) : ∀ {t : Kern}, Inv L t T →
    wp (ownLoop n) (fun _ t' => Apart L T t t' ∧
      t'.k.freelist.length = t.k.freelist.length - n) E t := by
  induction n with
  | zero => intro t h; exact ⟨⟨h, rfl, rfl, rfl⟩, rfl⟩
  | succ n ih =>
      intro t h
      unfold ownLoop
      rw [wp_bind]
      refine wp_post (own_alloc_spec h) ?_
      rintro _ t1 ⟨h1, hl1⟩
      refine wp_post (ih h1.inv) ?_
      rintro _ t2 ⟨h2, hl2⟩
      exact ⟨⟨h2.inv, h2.proc.trans h1.proc, h2.init.trans h1.init, h2.views.trans h1.views⟩,
        by omega⟩

/-- **Boot** ends with one process and every page accounted for. -/
lemma boot_spec (m : Mem) {n : ℕ} (hn : 16 ≤ n)
    (hroom : PGROUNDUP L.endp + (L.nkern + n) * PGSIZE ≤ PHYSTOP) :
    wp (boot L) (fun _ t => ∃ T i, Booted L T i t ∧ n ≤ t.k.freelist.length + 9) E
      (powerOn m) := by
  unfold boot
  rw [wp_bind, wp_vm]
  refine wp_post (kinit_spec rfl) ?_
  rintro _ k hacct
  have hfree := free_length hacct hroom
  have hdead : ∀ j, ¬ Live ((powerOn m).proc j) := fun j hc => hc rfl
  have htot : total (fun _ => emptyTab 0) { powerOn m with k := k } = 0 := by
    funext q
    unfold total
    rw [Finset.sum_eq_zero fun i _ => by rw [held_idle (hdead i)]; rfl]
    rfl
  have h0 : Inv L { powerOn m with k := k } fun _ => emptyTab 0 := by
    refine ⟨by rw [htot]; exact hacct, fun i hi => absurd hi (hdead i),
      fun i hi => absurd hi (hdead i), fun i _ => rfl, fun p hp => by cases hp⟩
  rw [wp_bind]
  refine wp_post (ownLoop_spec L.nkern h0) ?_
  rintro _ t1 ⟨h1, hl1⟩
  dsimp only at hl1
  refine wp_post (userinit_spec h1.inv (fun j => by rw [h1.proc]; exact hdead j) (by omega)) ?_
  rintro _ t2 ⟨T2, i, hb, hl2⟩
  exact ⟨T2, i, hb, by omega⟩

/-- **The invariant in every reachable state.** -/
lemma system_spec (L : Layout) (m : Mem) (ops : List Op) :
    wp (system L ops) (fun _ t => ∃ T, Inv L t T) Reachable (powerOn m) := by
  unfold system
  rw [wp_bind]
  refine wp_post (boot_spec m le_rfl L.room) ?_
  rintro _ t ⟨T, i, hb, -⟩
  exact run_spec ops hb.inv

end Xv6.Reach
