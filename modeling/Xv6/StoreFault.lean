import Xv6.RefCount

/-!
Store page faults of user programs: the `scause == 15` branch of `usertrap`.

The branch is safe exactly when it recognises the address as bad before it calls `custom_cow`,
or when the page is mapped and is not a copy-on-write page closed to the user for which a copy
can be made. Stores to unmapped pages bring the kernel down.
-/

namespace Xv6.StoreFault

open Xv6.ByteMem Xv6.Riscv Xv6.Kalloc Xv6.Vm Xv6.Wp Xv6.PageTable Xv6.Walk Xv6.Unmap
open Xv6.AddrSpace Xv6.Grow Xv6.Cow Xv6.Process Xv6.Invariant Xv6.Ops Xv6.Fork Xv6.Exec
open Xv6.Kernel Xv6.Steps Xv6.Reach Xv6.RefCount

/-- The entry of the page at `stval` in the page table of process `i`. -/
def entryAt (t : Kern) (i : Fin NPROC) (stval : ℕ) : Word := (tabOf t i).leaf (stval / PGSIZE)

/-- A copy-on-write page the user may access. -/
def CowPage (t : Kern) (i : Fin NPROC) (stval : ℕ) : Prop :=
  stval < MAXVA ∧ UserOk (entryAt t i stval) ∧ has (entryAt t i stval) PTE_COW = true

/-- The fault is harmless: no panic, and unless the page is copy-on-write the process is marked
killed and nothing else has changed. -/
def Harmless (t : Kern) (i : Fin NPROC) (stval : ℕ) : Prop :=
  wp (usertrap_store i stval) (fun _ t' => ¬ CowPage t i stval → ∃ x, x ≠ 0 ∧
    t' = { t with proc := Function.update t.proc i { t.proc i with killed := x } })
    (fun _ => False) t

/-- The test `usertrap` makes on the address before it calls `custom_cow`. -/
def Flagged (t : Kern) (i : Fin NPROC) (stval : ℕ) : Prop :=
  let sp := (ld64 t.k.mem ((t.proc i).trapframe + TF_SP)).toNat
  MAXVA ≤ stval ∨ (sub64 (PGROUNDDOWN sp) PGSIZE ≤ stval ∧ stval ≤ PGROUNDDOWN sp)

/-- The page is mapped, and it is not one that only the kernel may access and that would be
copied. -/
def Resolvable (t : Kern) (i : Fin NPROC) (stval : ℕ) : Prop :=
  has (entryAt t i stval) PTE_V = true ∧
    ¬ (has (entryAt t i stval) PTE_COW = true ∧ has (entryAt t i stval) PTE_U = false ∧
      t.k.freelist ≠ [])

variable {L : Layout} {t : Kern} {T : Fin NPROC → PTab} {i : Fin NPROC} {stval : ℕ}

lemma harmless_flagged (hf : Flagged t i stval) : Harmless t i stval := by
  unfold Flagged at hf
  dsimp only at hf
  unfold Harmless usertrap_store
  rw [wp_bind, wp_get]
  dsimp only
  rw [if_pos hf, wp_setProc]
  exact fun _ => ⟨1, by norm_num, rfl⟩

lemma harmless_custom_cow (hf : ¬ Flagged t i stval) :
    Harmless t i stval ↔ wp (custom_cow (t.proc i).pagetable stval) (fun r k =>
      ¬ CowPage t i stval → ∃ x, x ≠ 0 ∧
        ({ t with k := k, proc := Function.update t.proc i { t.proc i with killed := r } } : Kern) =
          { t with proc := Function.update t.proc i { t.proc i with killed := x } })
      (fun _ => False) t.k := by
  unfold Flagged at hf
  dsimp only at hf
  unfold Harmless usertrap_store
  rw [wp_bind, wp_get]
  dsimp only
  rw [if_neg hf, wp_bind, wp_vm]
  rfl

lemma harmless_iff (h : Inv L t T) (hi : Live (t.proc i)) :
    Harmless t i stval ↔ Flagged t i stval ∨ Resolvable t i stval := by
  by_cases hf : Flagged t i stval
  · exact ⟨fun _ => Or.inl hf, fun _ => harmless_flagged hf⟩
  have hva : stval < MAXVA := by
    by_contra hc
    exact hf (Or.inl (by omega))
  have hA := h.as hi
  have he : entryAt t i stval = (T i).leaf (stval / PGSIZE) := by
    unfold entryAt; rw [Inv.tabOf h hi]
  rw [harmless_custom_cow hf]
  unfold Resolvable
  rw [he]
  by_cases hV : has ((T i).leaf (stval / PGSIZE)) PTE_V = true
  · by_cases hc : has ((T i).leaf (stval / PGSIZE)) PTE_COW = false ∨ t.k.freelist = []
    · -- refused: the process is killed
      rw [wp_of_run (custom_cow_refuses hA hva hV hc)]
      refine ⟨fun _ => Or.inr ⟨hV, ?_⟩, fun _ _ => ⟨1, by norm_num, rfl⟩⟩
      rintro ⟨h1, -, h2⟩
      rcases hc with hc | hc
      · rw [h1] at hc; cases hc
      · exact h2 hc
    · rw [not_or] at hc
      have hcow : has ((T i).leaf (stval / PGSIZE)) PTE_COW = true := by simpa using hc.1
      obtain ⟨r, k, hrun, rfl, p, hr⟩ := wp_returns
        (custom_cow_copies (E := fun _ => False) hA hva hV hcow hc.2)
      rw [wp_of_run hrun]
      by_cases hU : has ((T i).leaf (stval / PGSIZE)) PTE_U = true
      · refine ⟨fun _ => Or.inr ⟨hV, ?_⟩, fun _ hn => absurd ?_ hn⟩
        · rintro ⟨-, h1, -⟩
          rw [hU] at h1; cases h1
        · unfold CowPage
          rw [he]
          exact ⟨hva, ⟨hV, hU⟩, hcow⟩
      · -- copied although the user may not touch the page: the process goes on
        have hnot : ¬ CowPage t i stval := fun hcp => by
          unfold CowPage at hcp
          rw [he] at hcp
          exact hU hcp.2.1.2
        constructor
        · intro hh
          obtain ⟨x, hx, heq⟩ := hh hnot
          have := congrArg (fun t : Kern => (t.proc i).killed) heq
          simp only [Function.update_self] at this
          exact absurd this.symm hx
        · rintro (h1 | ⟨-, h1⟩)
          · exact absurd h1 hf
          · exact absurd ⟨hcow, by simpa using hU, hc.2⟩ h1
  · obtain ⟨e, hrun, -⟩ := custom_cow_unmapped hA hva (by simpa using hV)
    refine ⟨fun hh => ?_, fun hh => ?_⟩
    · unfold wp at hh
      rw [hrun] at hh
      exact hh.elim
    · rcases hh with h1 | ⟨h1, -⟩
      · exact absurd h1 hf
      · exact absurd h1 hV

/-- **When a store fault is harmless**, in every reachable state, for every process that runs
and every address. -/
theorem store_fault_harmless_iff (L : Layout) (m : Mem) (ops : List Op) :
    wp (system L ops) (fun _ t => ∀ i, (t.proc i).state = .RUNNABLE → ∀ stval,
      (Harmless t i stval ↔ Flagged t i stval ∨ Resolvable t i stval)) Reachable (powerOn m) := by
  refine wp_post (system_spec L m ops) ?_
  rintro _ t ⟨T, h⟩ i hi stval
  exact harmless_iff h (Inv.live h (by rw [hi]; simp))

/-- A kernel image of 256 KiB that takes 80 pages at boot. -/
def sampleLayout : Layout where
  endp := 0x80040000
  trampoline := 0x80008000
  nkern := 80
  tramp_aligned := by unfold PGSIZE; norm_num
  tramp_ge := by unfold KERNBASE; norm_num
  tramp_lt := by unfold PGSIZE; norm_num
  end_le := by unfold PHYSTOP KERNBASE; norm_num
  room := by unfold PHYSTOP KERNBASE PGROUNDUP u64 PGSIZE; norm_num

/-- The first process, which has one page of memory, stores to address `0x10000`: the fault is
not harmless. -/
theorem store_fault_unmapped_panics :
    wp (system sampleLayout []) (fun _ t => ∃ i, t.initproc = some i ∧
      (t.proc i).state = .RUNNABLE ∧ ¬ Harmless t i 0x10000) (fun _ => False)
      (powerOn fun _ => 0) := by
  unfold system
  rw [wp_bind]
  refine wp_post (boot_spec _ le_rfl sampleLayout.room) ?_
  rintro _ t ⟨T, i, hb, -⟩
  have hi := Inv.live hb.inv (i := i) (by rw [hb.state]; simp)
  refine ⟨i, hb.init, hb.state, ?_⟩
  rw [harmless_iff hb.inv hi]
  rintro (hf | hr)
  · unfold Flagged at hf
    rw [hb.sp] at hf
    unfold sub64 u64 PGROUNDDOWN MAXVA PGSIZE at hf
    omega
  · have hV := hr.1
    unfold entryAt at hV
    have hs := (hb.inv.slot i hi).space
    rw [hb.sz, pgs_pgsize] at hs
    rw [Inv.tabOf hb.inv hi, hs.valid_iff, tfv_eq, trv_eq] at hV
    unfold PGSIZE at hV
    omega

end Xv6.StoreFault
