import Xv6.Isolation

/-!
Stores to copy-on-write pages.

`usertrap` looks at the faulting address before it looks at the page table: an address in the page
below the user stack pointer, or at the start of the page of the stack pointer, is taken for a
stack overflow even when the page there is a copy-on-write page of the process. And what
`custom_cow` returns is stored in `killed`, over a `kill` that came before the fault.
-/

namespace Xv6.CowFault

open Xv6.ByteMem Xv6.Riscv Xv6.Kalloc Xv6.Vm Xv6.Wp Xv6.PageTable Xv6.Walk Xv6.Unmap
open Xv6.AddrSpace Xv6.Grow Xv6.Cow Xv6.Copyout Xv6.Share Xv6.Process Xv6.Invariant Xv6.View
open Xv6.Ops Xv6.Fork Xv6.Exec Xv6.Kernel Xv6.Steps Xv6.Reach Xv6.RefCount Xv6.StoreFault
open Xv6.Isolation

/-- The fault has given process `i` a writable copy of the page, and nobody can tell otherwise. -/
structure Transparent (t : Kern) (i : Fin NPROC) (stval : ℕ) (t' : Kern) : Prop where
  killed : (t'.proc i).killed = (t.proc i).killed
  writable : has (entryAt t' i stval) PTE_W = true ∧ has (entryAt t' i stval) PTE_COW = false
  flags : ∀ k < 10, k ≠ 2 → k ≠ 5 →
    (entryAt t' i stval).getLsbD k = (entryAt t i stval).getLsbD k
  bytes : ∀ k < PGSIZE, t'.k.mem (PTE2PA (entryAt t' i stval) + k) =
    t.k.mem (PTE2PA (entryAt t i stval) + k)
  alone : ¬ SharedPage t' i (PTE2PA (entryAt t' i stval))
  others : ∀ j, Live (t.proc j) → ∀ v, (j = i → v ≠ stval / PGSIZE) →
    (tabOf t' j).leaf v = (tabOf t j).leaf v ∧ (has ((tabOf t j).leaf v) PTE_V = true →
      ∀ k < PGSIZE, t'.k.mem (PTE2PA ((tabOf t j).leaf v) + k) =
        t.k.mem (PTE2PA ((tabOf t j).leaf v) + k))

/-- Process `i` with `killed` set to `x`, as `kill` does at any time. -/
def withKilled (t : Kern) (i : Fin NPROC) (x : ℤ) : Kern :=
  { t with proc := Function.update t.proc i { t.proc i with killed := x } }

variable {L : Layout} {t : Kern} {T : Fin NPROC → PTab} {i j : Fin NPROC} {stval v p : ℕ}
  {k : KState}

lemma Resolved.alone (h : Inv L t T) (hj : Live (t.proc j)) (hji : j ≠ i)
    (hr : Resolved L (t.proc i).pagetable (rest T t i + ref (t.proc i).trapframe)
      (pgs (t.proc i).sz) (t.proc i).trapframe (T i) v p t.k k) (w : ℕ) :
    ¬ Maps ((T j).leaf w) p := by
  rintro ⟨hV, hpa⟩
  have hfresh := hr.fresh
  simp only [Pi.add_apply] at hfresh
  rcases page_cases h hj hV with h1 | h1
  · have h2 := held_le_rest T t hji p
    rw [hpa] at h1
    omega
  · rw [hpa] at h1
    have h2 := hr.range
    rw [h1] at h2
    exact trampoline_outside L h2

lemma Resolved.kept_other (h : Inv L t T) (hj : Live (t.proc j)) (hji : j ≠ i)
    (hr : Resolved L (t.proc i).pagetable (rest T t i + ref (t.proc i).trapframe)
      (pgs (t.proc i).sz) (t.proc i).trapframe (T i) v p t.k k) {w : ℕ}
    (hV : has ((T j).leaf w) PTE_V = true) {n : ℕ} (hn : n < PGSIZE) :
    k.mem (PTE2PA ((T j).leaf w) + n) = t.k.mem (PTE2PA ((T j).leaf w) + n) := by
  rcases page_cases h hj hV with h1 | h1
  · have h2 := held_le_rest T t hji (PTE2PA ((T j).leaf w))
    have hrange : InRange L (PTE2PA ((T j).leaf w)) := by
      refine h.acct.range _ ?_
      rw [total_eq T t j]
      omega
    refine hr.keeps _ ?_
    rw [(rounddown_eq hrange.1).mpr ⟨by omega, by omega⟩]
    simp only [Pi.add_apply]
    omega
  · refine hr.outside _ ?_
    rw [h1, (rounddown_eq L.tramp_aligned).mpr ⟨by omega, by omega⟩, outside,
      if_neg (trampoline_outside L)]
    omega

lemma Resolved.kept_self (h : Inv L t T) (hi : Live (t.proc i))
    (hr : Resolved L (t.proc i).pagetable (rest T t i + ref (t.proc i).trapframe)
      (pgs (t.proc i).sz) (t.proc i).trapframe (T i) v p t.k k) {w : ℕ} (hw : w ≠ v)
    (hV : has ((T i).leaf w) PTE_V = true) {n : ℕ} (hn : n < PGSIZE) :
    k.mem (PTE2PA ((T i).leaf w) + n) = t.k.mem (PTE2PA ((T i).leaf w) + n) := by
  have hs := (h.slot i hi).space
  rcases (hs.valid_iff w).mp hV with h1 | rfl | rfl
  · refine hr.keeps _ ?_
    rw [(rounddown_eq (hs.user w h1).range.1).mpr ⟨by omega, by omega⟩, Pi.add_apply]
    have hpos : leaves (Function.update (T i).leaf v 0) (PTE2PA ((T i).leaf w)) ≠ 0 := by
      refine leaves_ne_zero.mpr ⟨w, hs.lt_tfv h1.le, ?_⟩
      rw [Function.update_of_ne hw]
      exact ⟨hV, rfl⟩
    omega
  · refine hr.keeps _ ?_
    rw [trapframe_pa hs, (rounddown_eq hs.tf_range.1).mpr ⟨by omega, by omega⟩]
    simp only [Pi.add_apply, ref_self]
    omega
  · refine hr.outside _ ?_
    rw [trampoline_pa hs, (rounddown_eq L.tramp_aligned).mpr ⟨by omega, by omega⟩, outside,
      if_neg (trampoline_outside L)]
    omega

/-- **`custom_cow`** gives a transparent copy. -/
lemma transparent_of_resolved (h : Inv L t T) (hi : Live (t.proc i)) (hk : (t.proc i).killed = 0)
    (hr : Resolved L (t.proc i).pagetable (rest T t i + ref (t.proc i).trapframe)
      (pgs (t.proc i).sz) (t.proc i).trapframe (T i) (stval / PGSIZE) p t.k k) :
    Transparent t i stval
      { t with k := k, proc := Function.update t.proc i { t.proc i with killed := 0 } } := by
  have hproc : Function.update t.proc i { t.proc i with killed := 0 } = t.proc := by
    rw [← hk]
    exact Function.update_eq_self i t.proc
  rw [hproc]
  obtain ⟨h1, -⟩ := Inv.resolved h hi hr
  have hself : tabOf { t with k := k } i =
      setLeaf (T i) (stval / PGSIZE) (cowEntry p ((T i).leaf (stval / PGSIZE))) := by
    rw [Inv.tabOf h1 hi, Function.update_self]
  have hother : ∀ j, Live (t.proc j) → j ≠ i → tabOf { t with k := k } j = T j := by
    intro j hj hji
    rw [Inv.tabOf h1 hj, Function.update_of_ne hji]
  have he : entryAt t i stval = (T i).leaf (stval / PGSIZE) := by
    unfold entryAt; rw [Inv.tabOf h hi]
  have he' : entryAt { t with k := k } i stval = cowEntry p (entryAt t i stval) := by
    rw [he]
    unfold entryAt
    rw [hself]
    simp only [setLeaf, Function.update_self]
  refine ⟨rfl, ?_, fun n hn h2 h5 => ?_, fun n hn => ?_, ?_, fun j hj w hw => ?_⟩
  · rw [he', has_W, has_COW, cowEntry_bit hr.range _ (by omega), cowEntry_bit hr.range _ (by omega)]
    simp
  · rw [he', cowEntry_bit hr.range _ hn]
    simp [h2, h5]
  · rw [he', cowEntry_pa hr.range, he]
    exact hr.copy n hn
  · rintro ⟨j, hji, hj, w, hm⟩
    rw [hother j hj hji, he', cowEntry_pa hr.range] at hm
    exact Resolved.alone h hj hji hr w hm
  · rw [Inv.tabOf h hj]
    by_cases hji : j = i
    · subst hji
      rw [hself]
      refine ⟨?_, fun hV n hn => Resolved.kept_self h hi hr (hw rfl) hV hn⟩
      simp only [setLeaf, Function.update_of_ne (hw rfl)]
    · rw [hother j hj hji]
      exact ⟨rfl, fun hV n hn => Resolved.kept_other h hj hji hr hV hn⟩

lemma transparent_iff (h : Inv L t T) (hi : Live (t.proc i)) (hc : CowPage t i stval)
    (hf : t.k.freelist ≠ []) :
    wp (usertrap_store i stval) (fun _ t' => Transparent t i stval t') (fun _ => False) t ↔
      ¬ Flagged t i stval ∧ (t.proc i).killed = 0 := by
  obtain ⟨hva, hok, hcow⟩ := hc
  by_cases hfl : Flagged t i stval
  · -- the process is killed and the page stays as it is
    have hflag := hfl
    unfold Flagged at hflag
    dsimp only at hflag
    unfold usertrap_store
    rw [wp_bind, wp_get]
    dsimp only
    rw [if_pos hflag, wp_setProc]
    refine ⟨fun htr => ?_, fun hn => absurd hfl hn.1⟩
    have h1 := htr.writable.2
    have h2 : entryAt { t with proc := Function.update t.proc i { t.proc i with killed := 1 } } i
        stval = entryAt t i stval := by
      unfold entryAt
      rw [Inv.tabOf (Inv.killed h i hi 1) (by simp only [Function.update_self]; exact hi),
        Inv.tabOf h hi]
    rw [h2, hcow] at h1
    cases h1
  · have he : entryAt t i stval = (T i).leaf (stval / PGSIZE) := by
      unfold entryAt; rw [Inv.tabOf h hi]
    rw [he] at hok hcow
    obtain ⟨r, k, hrun, rfl, p, hr⟩ := wp_returns
      (custom_cow_copies (E := fun _ => False) (h.as hi) hva hok.1 hcow hf)
    have hflag := hfl
    unfold Flagged at hflag
    dsimp only at hflag
    unfold usertrap_store
    rw [wp_bind, wp_get]
    dsimp only
    rw [if_neg hflag, wp_bind, wp_vm, wp_of_run hrun, wp_setProc]
    refine ⟨fun htr => ⟨hfl, ?_⟩, fun hn => transparent_of_resolved h hi hn.2 hr⟩
    have h1 := htr.killed
    simp only [Function.update_self] at h1
    exact h1.symm

/-- **When a copy-on-write fault is transparent**: in every reachable state, for every process that
runs, whatever `killed` is, and every address in one of its copy-on-write pages, with a page free:
iff the address is outside the window that `usertrap` takes for a stack overflow and the process has
not been killed. -/
theorem cow_fault_transparent_iff (L : Layout) (m : Mem) (ops : List Op) :
    wp (system L ops) (fun _ t => ∀ i, (t.proc i).state = .RUNNABLE → ∀ x stval,
      CowPage (withKilled t i x) i stval → t.k.freelist ≠ [] →
      (wp (usertrap_store i stval) (fun _ t' => Transparent (withKilled t i x) i stval t')
        (fun _ => False) (withKilled t i x) ↔ ¬ Flagged t i stval ∧ x = 0))
      Reachable (powerOn m) := by
  refine wp_post (system_spec L m ops) ?_
  rintro _ t ⟨T, h⟩ i hrun x stval hc hf
  have hi := Inv.live h (i := i) (by rw [hrun]; simp)
  have hi' : Live ((withKilled t i x).proc i) := by
    unfold withKilled
    simp only [Function.update_self]
    exact hi
  have hx : ((withKilled t i x).proc i).killed = x := by
    unfold withKilled
    simp only [Function.update_self]
  have hfl : Flagged (withKilled t i x) i stval ↔ Flagged t i stval := by
    unfold Flagged withKilled
    simp only [Function.update_self]
  have hiff := transparent_iff (t := withKilled t i x) (Inv.killed h i hi x) hi' hc hf
  rw [hx, hfl] at hiff
  exact hiff

/-- The first process forks and stores to address `0` with its stack pointer at `4096`: there is a
page for the copy, and the fault is not transparent. -/
theorem cow_fault_below_stack_kills :
    wp (system sampleLayout [.fork initSlot]) (fun _ t => (t.proc initSlot).state = .RUNNABLE ∧
      CowPage t initSlot 0 ∧ t.k.freelist ≠ [] ∧ ¬ wp (usertrap_store initSlot 0)
        (fun _ t' => Transparent t initSlot 0 t') (fun _ => False) t)
      (fun _ => False) (powerOn fun _ => 0) := by
  have hroom : PGROUNDUP sampleLayout.endp + (sampleLayout.nkern + 100) * PGSIZE ≤ PHYSTOP := by
    unfold sampleLayout PHYSTOP KERNBASE PGROUNDUP u64 PGSIZE
    norm_num
  unfold system
  rw [wp_bind]
  refine wp_post (boot_spec _ (by omega) hroom) ?_
  rintro _ t ⟨T, i, hb, hlen⟩
  have hslot : i = initSlot := Fin.ext hb.slot
  subst hslot
  have hi := Inv.live hb.inv (i := initSlot) (by rw [hb.state]; simp)
  have hpgs : pgs (t.proc initSlot).sz = 1 := by rw [hb.sz, pgs_pgsize]
  rw [Kernel.run, wp_bind]
  unfold Kernel.step running
  rw [wp_bind, wp_get, if_pos hb.state, wp_bind]
  refine wp_post (fork_spec hb.inv hi) ?_
  rintro _ t1 ⟨T1, h1, ⟨-, -, -, hlow | hnone⟩ |
    ⟨np, -, -, -, -, -, hproc, -, -, htf, hfree, hleaf⟩⟩
  · omega
  · exact absurd hnone (Booted.freeSlot hb)
  rw [wp_pure, Kernel.run, wp_pure]
  have hi1 : Live (t1.proc initSlot) := by rw [hproc]; exact hi
  obtain ⟨p, hp, h0⟩ := hb.leaf
  obtain ⟨hpar, -⟩ := hleaf 0 (by omega)
  have hsh := shares_first hp
  have he : entryAt t1 initSlot 0 = parentEntry (newEntry p firstPerm) := by
    unfold entryAt
    rw [Inv.tabOf h1 hi1, Nat.zero_div, hpar, h0]
  have hne : t1.k.freelist ≠ [] := by
    intro hc
    rw [hc, List.length_nil] at hfree
    omega
  have hcow : CowPage t1 initSlot 0 := by
    unfold CowPage
    rw [he]
    exact ⟨by unfold MAXVA; norm_num, hsh.user, hsh.cow⟩
  -- the stack pointer is still where boot put it
  have hsp : (ld64 t1.k.mem ((t1.proc initSlot).trapframe + TF_SP)).toNat = PGSIZE := by
    rw [hproc, ← hb.sp]
    congr 1
    refine ld64_congr fun x hlo hhi => htf x ?_
    have hal := (hb.inv.slot initSlot hi).space.tf_range.1
    rw [rounddown_eq hal]
    unfold TF_SP at hlo hhi
    unfold PGSIZE
    omega
  refine ⟨by rw [hproc]; exact hb.state, hcow, hne, ?_⟩
  rw [transparent_iff h1 hi1 hcow hne]
  rintro ⟨hfl, -⟩
  apply hfl
  unfold Flagged
  rw [hsp]
  right
  unfold sub64 u64 PGROUNDDOWN PGSIZE
  omega

end Xv6.CowFault
