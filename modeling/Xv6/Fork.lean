import Xv6.Ops

/-!
`fork` keeps the invariant: the child gets the parent's memory, and when a page is missing
anywhere on the way all memories are as before.
-/

namespace Xv6.Fork

open Xv6.ByteMem Xv6.Riscv Xv6.Kalloc Xv6.Vm Xv6.Wp Xv6.PageTable Xv6.Walk Xv6.Unmap
open Xv6.AddrSpace Xv6.Grow Xv6.Cow Xv6.Copyout Xv6.Create Xv6.Share Xv6.Process Xv6.Invariant
open Xv6.View Xv6.Ops

variable {L : Layout} {t t' : Kern} {T : Fin NPROC → PTab} {i j : Fin NPROC} {E : Panic → Prop}
  {A B : PTab} {k : KState} {c : Proc}

lemma Alloc.views (h : Inv L t T) (ha : Alloc L t T (some j) t') :
    ∃ A, Inv L t' (Function.update T j A) ∧ Live (t'.proc j) ∧ (t'.proc j).sz = 0 ∧
      ∀ l, l ≠ j → t'.proc l = t.proc l ∧ views (Function.update T j A) t' l = views T t l := by
  obtain ⟨-, A, p, hidle, hlive, hsz, -, -, hproc, hinv, -, -⟩ := ha.out
  have hself : t'.proc j = p := by rw [hproc, Function.update_self]
  refine ⟨A, hinv, by rw [hself]; exact hlive, by rw [hself]; exact hsz, fun l hl => ?_⟩
  have hpl : t'.proc l = t.proc l := by rw [hproc, Function.update_of_ne hl]
  refine ⟨hpl, ?_⟩
  unfold View.views
  rw [hpl, Function.update_of_ne hl]
  split_ifs with hll
  · have hs := h.slot l hll
    congr 1
    refine view_congr fun va hva => rd_keeps hs.space ha.keeps hva ?_
    have h1 := hs.held_leaf hll hva
    have h2 := total_eq T t l (PTE2PA ((T l).leaf (va / PGSIZE)))
    omega
  · rfl

lemma view_rest2 (h : Inv L t T) {l : Fin NPROC} (hl : Live (t.proc l)) (hli : l ≠ i)
    (hlj : l ≠ j) (hk : Keeps (rest2 T t i j) t.k k) :
    view (T l).leaf k.mem (t.proc l).sz = view (T l).leaf t.k.mem (t.proc l).sz := by
  have hs := h.slot l hl
  refine view_congr fun va hva => rd_keeps hs.space hk hva ?_
  have h1 := hs.held_leaf hl hva
  have h2 := held_le_rest2 T t hli hlj (PTE2PA ((T l).leaf (va / PGSIZE)))
  omega

/-- Both processes of a pair see what they saw, as far as their entries lead to the same
pages. -/
lemma views_pair (h : Inv L t T) (hij : j ≠ i) (hi : Live (t.proc i)) (hc : Live c)
    (hk : Keeps (rest2 T t i j + leaves (T i).leaf) t.k k)
    (hA : ∀ v < pgs (t.proc i).sz, PTE2PA (A.leaf v) = PTE2PA ((T i).leaf v)) :
    views (Function.update (Function.update T i A) j B)
        { t with k := k, proc := Function.update t.proc j c } =
      Function.update (views T t) j (some (view B.leaf k.mem c.sz)) := by
  have hs := h.slot i hi
  funext l
  by_cases hlj : l = j
  · subst hlj
    rw [Function.update_self, views_live (by simpa using hc)]
    simp
  · rw [Function.update_of_ne hlj]
    unfold views
    simp only [Function.update_of_ne hlj]
    split_ifs with hl
    · by_cases hli : l = i
      · subst hli
        rw [Function.update_self]
        congr 1
        refine view_congr fun va hva => ?_
        have hrd : rd A.leaf k.mem va = rd (T l).leaf k.mem va := by
          unfold rd; rw [hA _ hva]
        rw [hrd]
        refine rd_keeps hs.space hk hva ?_
        have := Space.leaves_user hs.space hva
        rw [Pi.add_apply]; omega
      · rw [Function.update_of_ne hli, view_rest2 h hl hli hlj (hk.mono fun q hq => ?_)]
        rw [Pi.add_apply]; omega
    · rfl

lemma trapframe_page (h : Inv L t T) (hi : Live (t.proc i)) {x : ℕ} (off n : ℕ)
    (hn : off + n ≤ PGSIZE)
    (hx : PGROUNDDOWN x ≠ (t.proc i).trapframe) :
    x < (t.proc i).trapframe + off ∨ (t.proc i).trapframe + off + n ≤ x := by
  rw [Ne, rounddown_eq (h.slot i hi).space.tf_range.1] at hx
  omega

lemma trapframe_ne (h : Inv L t T) (hi : Live (t.proc i)) (hj : Live (t.proc j)) (hij : i ≠ j) :
    (t.proc i).trapframe ≠ (t.proc j).trapframe := by
  intro heq
  have h1 := (h.single j hj).trapframe
  have h2 := total_eq T t j (t.proc j).trapframe
  have h3 := held_le_rest T t hij (t.proc j).trapframe
  have h4 := held_trapframe (A := T i) hi
  have h5 := held_trapframe (A := T j) hj
  rw [heq] at h4
  omega

/-- The child after `uvmcopy` succeeded. -/
lemma fork_child {B' : PTab} (h : Inv L t T) (hij : j ≠ i) (hi : Live (t.proc i))
    (hj : Live (t.proc j)) (hsh : Shared L (t.proc i).pagetable (pgs (t.proc i).sz)
      (t.proc i).trapframe (t.proc j).pagetable (t.proc j).trapframe (rest2 T t i j) (T i).leaf
      (tabs (T i)) (pgs (t.proc i).sz) A B' t.k k)
    (hc : c.pagetable = (t.proc j).pagetable) (hctf : c.trapframe = (t.proc j).trapframe)
    (hcsz : c.sz = (t.proc i).sz) (hst : c.state ≠ .UNUSED) :
    Inv L { t with k := k, proc := Function.update t.proc j c }
      (Function.update (Function.update T i A) j B') ∧
    views (Function.update (Function.update T i A) j B')
        { t with k := k, proc := Function.update t.proc j c } =
      Function.update (views T t) j (views T t i) := by
  have hs := h.slot i hi
  have hlc : Live c := by unfold Live; rw [hc]; exact hj
  have hpaA : ∀ v < pgs (t.proc i).sz, PTE2PA (A.leaf v) = PTE2PA ((T i).leaf v) := fun v hv => by
    rw [(hsh.low v hv).1, parentEntry_pa (hsh.user v hv)]
  have hpaB : ∀ v < pgs (t.proc i).sz, PTE2PA (B'.leaf v) = PTE2PA ((T i).leaf v) := fun v hv => by
    rw [(hsh.low v hv).2, childEntry_pa (hsh.user v hv)]
  refine ⟨h.pair hij hi hj (by rw [hc, hcsz]; exact hsh.pair) hctf hst (by rw [hcsz]; exact hs.le)
    hsh.leaves_parent (fun q hq => hsh.leaves_child hq) ?_ ?_
    (hsh.keeps.mono fun q hq => by rw [Pi.add_apply]; omega), ?_⟩
  · -- no entry of the parent is writable any more
    intro v hv hW
    rw [(hsh.low v hv).1, (parentEntry_user (hsh.user v hv)).2] at hW
    cases hW
  · intro v hv hW
    rw [hcsz] at hv
    rw [(hsh.low v hv).2, (childEntry_user (hsh.user v hv)).2] at hW
    cases hW
  · rw [views_pair h hij hi hlc hsh.keeps hpaA, views_live hi, hcsz]
    congr 2
    refine view_congr fun va hva => ?_
    have hrd : rd B'.leaf k.mem va = rd (T i).leaf k.mem va := by
      unfold rd; rw [hpaB _ hva]
    rw [hrd]
    refine rd_keeps hs.space hsh.keeps hva ?_
    have := Space.leaves_user hs.space hva
    rw [Pi.add_apply]; omega

/-- The child after `uvmcopy` failed: it is empty, and the parent sees what it saw. -/
lemma fork_undo (h : Inv L t T) (hij : j ≠ i) (hi : Live (t.proc i)) (hj : Live (t.proc j))
    (hjsz : (t.proc j).sz = 0)
    (hun : Unshared L (t.proc i).pagetable (pgs (t.proc i).sz) (t.proc i).trapframe
      (t.proc j).pagetable (t.proc j).trapframe (rest2 T t i j) (T i).leaf
      (tabs (T i)) t.k k) :
    ∃ A B, Inv L { t with k := k } (Function.update (Function.update T i A) j B) ∧
      (∀ l, l ≠ j → views (Function.update (Function.update T i A) j B) { t with k := k } l =
        views T t l) ∧ tabs A = tabs (T i) ∧ leaves A.leaf = leaves (T i).leaf ∧
      ∀ v < pgs (t.proc i).sz, A.leaf v = (T i).leaf v ∨ A.leaf v = parentEntry ((T i).leaf v) := by
  obtain ⟨A, B, hp, ht, hl, hm, hB⟩ := hun.out
  have hs := h.slot i hi
  have hpg : pgs (t.proc j).sz = 0 := by rw [hjsz]; exact pgs_zero
  have hpaA : ∀ v < pgs (t.proc i).sz, PTE2PA (A.leaf v) = PTE2PA ((T i).leaf v) := by
    intro v hv
    rcases hm v hv with h1 | h1
    · rw [h1]
    · rw [h1, parentEntry_pa (hs.space.user v hv)]
  have hinv := h.pair (c := t.proc j) hij hi hj (by rw [hpg]; exact hp) rfl (h.slot j hj).used
    (h.slot j hj).le hl (fun q _ => congrFun hB q) ?_ (fun v hv => by omega)
    (hun.keeps.mono fun q hq => by rw [Pi.add_apply]; omega)
  · have hv := views_pair (A := A) (B := B) h hij hi hj hun.keeps hpaA
    rw [Function.update_eq_self] at hinv hv
    refine ⟨A, B, hinv, fun l hlj => ?_, ht, hl, hm⟩
    rw [hv, Function.update_of_ne hlj]
  · -- an entry that is still writable is one `uvmcopy` had not reached
    intro v hv hW
    have hf : A.leaf v = (T i).leaf v := (hm v hv).resolve_right fun h1 => by
      rw [h1, (parentEntry_user (hs.space.user v hv)).2] at hW
      cases hW
    rw [hf] at hW ⊢
    have h1 := h.priv hi v hv hW
    rw [rest_eq T t hij hj] at h1
    have h2 : tabs B (PTE2PA ((T i).leaf v)) = 0 := by
      by_contra hc
      have h3 := hp.child.owns.excl _ (isTab_iff.mp hc)
      have h4 := Space.leaves_user hs.space hv
      rw [hl] at h3
      simp only [Pi.add_apply] at h3
      omega
    rw [hB]
    simp only [Pi.add_apply, Pi.zero_apply] at h1 ⊢
    omega

/-- A failed fork: some entries of the parent are marked copy-on-write, and that is all. -/
structure Unforked (T T' : Fin NPROC → PTab) (i : Fin NPROC) (t t' : Kern) : Prop where
  proc : t'.proc = t.proc
  own : t'.own = t.own
  init : t'.initproc = t.initproc
  total : total T' t' = total T t
  entries : ∀ v < pgs (t.proc i).sz, (T' i).leaf v = (T i).leaf v ∨
    (T' i).leaf v = parentEntry ((T i).leaf v)

lemma total_congr {T' : Fin NPROC → PTab} (hp : t'.proc = t.proc) (ho : t'.own = t.own)
    (hh : ∀ l, held (T' l) (t.proc l) = held (T l) (t.proc l)) : total T' t' = total T t := by
  funext q
  unfold total
  rw [ho, hp]
  simp only [hh]

/-- The new process has the next `pid`. -/
lemma allocproc_pid (t : Kern) :
    wp (allocproc L) (fun r t' => ∀ np, r = some np → (t'.proc np).pid = t.nextpid)
      (fun _ => True) t := by
  unfold allocproc
  rw [wp_bind, wp_get]
  rcases hf : freeSlot t with _ | j
  · intro np hnp
    cases hnp
  · dsimp only
    rw [wp_bind, wp_set, wp_bind, wp_vm]
    refine wp_post wp_true fun tf k _ => ?_
    split_ifs
    · rw [wp_bind]
      refine wp_post wp_true fun _ t1 _ => ?_
      rw [wp_bind]
      refine wp_post wp_true fun _ t2 _ => ?_
      rw [wp_pure]
      intro np hnp
      cases hnp
    · rw [wp_bind, wp_vm]
      refine wp_post wp_true fun pt k1 _ => ?_
      rw [wp_bind, wp_setProc]
      split_ifs
      · rw [wp_bind]
        refine wp_post wp_true fun _ t2 _ => ?_
        rw [wp_pure]
        intro np hnp
        cases hnp
      · rw [wp_pure]
        intro np hnp
        obtain rfl := Option.some.inj hnp
        simp only [Function.update_self]

/-- **`fork`** gives the child the parent's memory, or leaves all memories as they were. -/
lemma fork_spec (h : Inv L t T) (hi : Live (t.proc i)) :
    wp (fork L i) (fun r t' => ∃ T', Inv L t' T' ∧
      (r = none ∧ Unforked T T' i t t' ∧ views T' t' = views T t ∧
          (t.k.freelist.length ≤ 6 + 2 * pgs (t.proc i).sz ∨ freeSlot t = none) ∨
        ∃ np, r = some t.nextpid ∧ freeSlot t = some np ∧ np ≠ i ∧ Live (t'.proc np) ∧
          views T' t' = Function.update (views T t) np (views T t i) ∧
          t'.proc i = t.proc i ∧ t'.initproc = t.initproc ∧ (t'.proc np).sz = (t.proc i).sz ∧
          (∀ x, PGROUNDDOWN x = (t.proc i).trapframe → t'.k.mem x = t.k.mem x) ∧
          t.k.freelist.length ≤ t'.k.freelist.length + 6 + 2 * pgs (t.proc i).sz ∧
          ∀ v < pgs (t.proc i).sz, (T' i).leaf v = parentEntry ((T i).leaf v) ∧
            (T' np).leaf v = childEntry ((T i).leaf v))) E t := by
  unfold fork
  rw [wp_bind]
  refine wp_post (wp_join (allocproc_pid t) (allocproc_spec h)) ?_
  rintro (_ | np) t1 ⟨hpid, ha⟩
  · obtain ⟨hinv, hproc, hres⟩ := ha.out
    refine ⟨T, hinv, Or.inl ⟨rfl, ⟨hproc, ha.own, ha.init, total_congr hproc ha.own fun _ => rfl,
      fun _ _ => Or.inl rfl⟩, ?_, ?_⟩⟩
    · refine views_frame h (fun l => by rw [hproc]; exact ⟨rfl, rfl⟩) fun l hl x hx =>
        ha.keeps x ?_
      have h1 := total_eq T t l (PGROUNDDOWN x)
      rw [held_live hl] at h1
      simp only [Pi.add_apply] at h1
      omega
    · rcases hres with hres | hres
      · refine Or.inr (List.find?_eq_none.mpr fun l _ => ?_)
        simp [hres l]
      · exact Or.inl (by omega)
  obtain ⟨hfree, A0, p0, hidle0, hlive0, hsz0, -, -, hproc0, hinv0, -, hlen0⟩ := ha.out
  have hne : np ≠ i := by rintro rfl; exact hidle0 hi
  obtain ⟨A1, h1, hj, hjsz, hother⟩ := Alloc.views h ha
  obtain ⟨hpi, hvi⟩ := hother i hne.symm
  have hi1 : Live (t1.proc i) := by rw [hpi]; exact hi
  have hT1 : Function.update T np A1 i = T i := Function.update_of_ne hne.symm _ _
  dsimp only
  rw [wp_bind, wp_get, wp_bind, wp_vm]
  have hpair := h1.toPair hne hi1 hj
  rw [hjsz, pgs_zero] at hpair
  refine wp_post (uvmcopy_spec (by have := (h1.slot i hi1).le; omega) hpair) ?_
  rintro r k (⟨rfl, A', B', hsh⟩ | ⟨rfl, hun⟩)
  · rw [if_neg (by norm_num), wp_bind, wp_vm, wp_memmove, wp_bind, wp_vm, wp_st, wp_bind,
      wp_setProc, wp_pure]
    set c : Proc := { t1.proc np with
      sz := (t1.proc i).sz, parent := some i, state := .RUNNABLE } with hc
    obtain ⟨h2, hv2⟩ := fork_child (c := c) h1 hne hi1 hj hsh rfl rfl rfl (by rw [hc]; simp)
    set t2 : Kern := { t1 with k := k, proc := Function.update t1.proc np c } with ht2
    have hp2 : t2.proc np = c := Function.update_self ..
    have hl2 : Live (t2.proc np) := by rw [hp2]; exact hj
    have hq := quiet_trapframe h2 hl2
    have htf : (t2.proc np).trapframe = (t1.proc np).trapframe := by rw [hp2]
    obtain ⟨h3, hv3⟩ := Inv.write h2 hq (m := st64 (move k.mem (t1.proc np).trapframe
        (t1.proc i).trapframe TF_SIZE) ((t1.proc np).trapframe + TF_A0) 0) fun x hx => by
      have hx1 := trapframe_page h2 hl2 TF_A0 8 (by unfold TF_A0 PGSIZE; omega) hx
      have hx2 := trapframe_page h2 hl2 0 TF_SIZE
        (by unfold TF_SIZE PGSIZE; omega) hx
      rw [htf] at hx1 hx2
      rw [st64_out hx1, move_out (by omega)]
    refine ⟨_, h3, Or.inr ⟨np, congrArg some (hpid np rfl), hfree, hne, hl2, ?_, ?_, ha.init, ?_,
      fun x hx => ?_, ?_, fun v hv => ?_⟩⟩
    · refine hv3.trans (hv2.trans ?_)
      rw [hvi]
      funext l
      by_cases hl : l = np
      · subst hl; rw [Function.update_self, Function.update_self]
      · rw [Function.update_of_ne hl, Function.update_of_ne hl, (hother l hl).2]
    · change t2.proc i = t.proc i
      rw [ht2]
      simp only
      rw [Function.update_of_ne hne.symm, hpi]
    · change (t2.proc np).sz = _
      rw [hp2, hc]
      dsimp only
      rw [hpi]
    · have hx' : PGROUNDDOWN x ≠ (t2.proc np).trapframe := by
        rw [hx, htf, ← hpi]
        exact trapframe_ne h1 hi1 hj hne.symm
      have hx1 := trapframe_page h2 hl2 TF_A0 8 (by unfold TF_A0 PGSIZE; omega) hx'
      have hx2 := trapframe_page h2 hl2 0 TF_SIZE (by unfold TF_SIZE PGSIZE; omega) hx'
      rw [htf] at hx1 hx2
      have hw : st64 (move k.mem (t1.proc np).trapframe (t1.proc i).trapframe TF_SIZE)
          ((t1.proc np).trapframe + TF_A0) 0 x = k.mem x := by
        rw [st64_out hx1, move_out (by omega)]
      refine hw.trans ((hsh.keeps x ?_).trans (ha.keeps x ?_))
      · rw [hx, Pi.add_apply]
        unfold rest2
        rw [hpi, ref_self]
        omega
      · have h4 := total_eq T t i (PGROUNDDOWN x)
        have h5 := held_trapframe (A := T i) hi
        rw [hx] at h4 ⊢
        omega
    · have h4 := hsh.free
      rw [hpi] at h4
      change t.k.freelist.length ≤ k.freelist.length + 6 + _
      omega
    · rw [Function.update_of_ne hne.symm, Function.update_self, Function.update_self]
      rw [← hpi] at hv
      have hlow := hsh.low v hv
      rw [hT1] at hlow
      exact hlow
  · rw [if_pos (by norm_num), wp_bind]
    obtain ⟨A, B, h2, hv2, htab, hleaf, hent⟩ := fork_undo h1 hne hi1 hj hjsz hun
    rw [hT1] at htab hleaf hent
    refine wp_post (freeproc_spec (i := np) h2 hj) ?_
    rintro _ t3 ⟨k3, rfl, h3, hk3⟩
    rw [wp_pure]
    have hproc : Function.update t1.proc np unusedProc = t.proc := by
      rw [hproc0, Function.update_idem, ← h.idle np hidle0, Function.update_eq_self]
    refine ⟨_, h3, Or.inl ⟨rfl, ⟨hproc, ha.own, ha.init, total_congr hproc ha.own fun l => ?_,
      fun v hv => ?_⟩, ?_, Or.inl ?_⟩⟩
    · by_cases hl : l = np
      · subst hl
        rw [held_idle hidle0, held_idle hidle0]
      · rw [Function.update_of_ne hl]
        by_cases hli : l = i
        · subst hli
          rw [Function.update_self, held_live hi, held_live hi, htab, hleaf]
        · rw [Function.update_of_ne hli, Function.update_of_ne hl]
    · rw [Function.update_of_ne hne.symm, Function.update_self]
      exact hent v (by rw [hpi]; exact hv)
    · refine (views_remove h2 hk3).trans ?_
      funext l
      by_cases hl : l = np
      · subst hl; rw [Function.update_self, views_idle hidle0]
      · rw [Function.update_of_ne hl, hv2 l hl, (hother l hl).2]
    · have := hun.free
      rw [hpi] at this
      omega

end Xv6.Fork
