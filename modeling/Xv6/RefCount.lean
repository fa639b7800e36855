import Xv6.Reach

/-!
What the invariant says of the machine: page tables are read out of physical memory the way the
hardware walks them, and the reference counts, the free list and the sizes of the processes are
compared with what is found there.
-/

namespace Xv6.RefCount

open Xv6.ByteMem Xv6.Riscv Xv6.Kalloc Xv6.Vm Xv6.Wp Xv6.PageTable Xv6.Walk Xv6.Unmap
open Xv6.AddrSpace Xv6.Grow Xv6.Cow Xv6.Process Xv6.Invariant Xv6.Ops Xv6.Fork Xv6.Exec
open Xv6.Kernel Xv6.Steps Xv6.Reach

/-- The page table of process `i`, as it stands in memory. -/
def tabOf (t : Kern) (i : Fin NPROC) : PTab where
  tab := tableAt t.k.mem (t.proc i).pagetable
  leaf := leafAt t.k.mem (t.proc i).pagetable

/-- The number of leaf entries below the trapframe, over all live page tables, that map `p`. -/
noncomputable def leafRefs (t : Kern) (p : ℕ) : ℕ :=
  ∑ i, if Live (t.proc i) then leaves (tabOf t i).leaf p else 0

/-- The single-owner uses of `p`: as a page-table page, as a trapframe, and by the owners outside
the process table. -/
noncomputable def singleRefs (t : Kern) (p : ℕ) : ℕ :=
  (∑ i, if Live (t.proc i) then tabs (tabOf t i) p + ref (t.proc i).trapframe p else 0) +
    t.own.count p

structure Exact (L : Layout) (t : Kern) : Prop where
  count : ∀ p, InRange L p → t.k.temp (p / PGSIZE) = (leafRefs t p + singleRefs t p : ℕ)
  free : ∀ p, InRange L p → t.k.freelist.count p = if t.k.temp (p / PGSIZE) = 0 then 1 else 0
  range : ∀ p ∈ t.k.freelist, InRange L p
  /-- No entry of any table of a live process is writable and copy-on-write. -/
  cow : ∀ i, Live (t.proc i) → ∀ l x q, (tabOf t i).tab l x = some q → ∀ n < 512,
    ¬ (has (ld64 t.k.mem (q + 8 * n)) PTE_W = true ∧ has (ld64 t.k.mem (q + 8 * n)) PTE_COW = true)
  /-- A page mapped more than once is writable nowhere. -/
  write : ∀ p, 1 < leafRefs t p → ∀ i, Live (t.proc i) → ∀ v < TFV,
    Maps ((tabOf t i).leaf v) p → has ((tabOf t i).leaf v) PTE_W = false

variable {L : Layout} {t : Kern} {T : Fin NPROC → PTab} {i j : Fin NPROC} {A : PTab} {p : ℕ}

lemma Inv.tabOf (h : Inv L t T) (hi : Live (t.proc i)) : tabOf t i = T i := by
  have hs := h.slot i hi
  have h1 : tableAt t.k.mem (t.proc i).pagetable = (T i).tab := by
    funext l x; exact tableAt_eq hs.wf hs.rep l x
  have h2 : leafAt t.k.mem (t.proc i).pagetable = (T i).leaf := by
    funext v; exact leafAt_eq hs.wf hs.rep v
  unfold RefCount.tabOf
  rw [h1, h2]

lemma Inv.total_refs (h : Inv L t T) (p : ℕ) : total T t p = leafRefs t p + singleRefs t p := by
  unfold total leafRefs singleRefs
  rw [← add_assoc, ← Finset.sum_add_distrib]
  refine congrArg (· + t.own.count p) (Finset.sum_congr rfl fun i _ => ?_)
  by_cases hi : Live (t.proc i)
  · rw [if_pos hi, if_pos hi, held_live hi, Inv.tabOf h hi]
    simp only [Pi.add_apply]; omega
  · rw [if_neg hi, if_neg hi, held_idle hi]; rfl

lemma Slot.leaf_cow {m : Mem} {p : Proc} (h : Slot L m A p) (v : ℕ) :
    ¬ (has (A.leaf v) PTE_W = true ∧ has (A.leaf v) PTE_COW = true) := by
  rintro ⟨hW, hC⟩
  by_cases hv : v < pgs p.sz
  · rw [(h.space.user v hv).w_or_cow hW] at hC; cases hC
  · by_cases hV : has (A.leaf v) PTE_V = true
    · exact hv (Space.lt_np h.space hV (Or.inr hC))
    · by_cases h1 : v = TFV
      · subst h1; exact hV h.space.isLeaf_trapframe.1
      · by_cases h2 : v = TRV
        · subst h2; exact hV h.space.isLeaf_trampoline.1
        · rw [h.space.none v (by omega) h1 h2, has_zero] at hW
          cases hW

lemma entry_no_write {L : Layout} {o : Option ℕ} (h : ∀ q, o = some q → InRange L q) :
    has (entry o) PTE_W = false := by
  rcases o with _ | q
  · exact has_zero _
  · have hq := h q rfl
    rw [has_W]
    unfold entry
    rw [getLsbD_mk hq.lt (by omega)]
    rfl

lemma Inv.exact (h : Inv L t T) : Exact L t := by
  refine ⟨fun p hp => ?_, fun p hp => ?_, fun p hp => ((h.acct.mem_free p).mp hp).1, ?_, ?_⟩
  · rw [h.acct.count p hp, Inv.total_refs h]
  · rw [h.acct.nodup.count, h.acct.count p hp]
    by_cases h0 : total T t p = 0
    · rw [if_pos ((h.acct.mem_free p).mpr ⟨hp, h0⟩), if_pos (by rw [h0]; rfl)]
    · rw [if_neg fun hc => h0 ((h.acct.mem_free p).mp hc).2, if_neg (by exact_mod_cast h0)]
  · intro i hi l x q hq n hn
    have hs := h.slot i hi
    rw [Inv.tabOf h hi] at hq
    rcases l with _ | l
    · rw [hs.rep.leaf x q hq n hn]
      exact Slot.leaf_cow hs _
    · rw [hs.rep.node l x q hq n hn]
      rintro ⟨hW, -⟩
      rw [entry_no_write (L := L) fun q' hq' => hs.wf.range _ _ _ hq'] at hW
      cases hW
  · intro p hp i hi v hv hm
    rw [Inv.tabOf h hi] at hm ⊢
    have hs := h.slot i hi
    have hlt : v < pgs (t.proc i).sz := by
      have h1 := trv_eq
      have h2 := tfv_eq
      rcases (hs.space.valid_iff v).mp hm.1 with h3 | h3 | h3 <;> omega
    by_contra hW
    have h1 := (h.single i hi).write v hlt (by simpa using hW)
    rw [hm.2, Inv.total_refs h] at h1
    omega

/-- **The reference counts are exact** after every operation of every run, so neither `kfree` nor
`check_and_increment` ever panics. -/
theorem refcounts_exact (L : Layout) (m : Mem) (ops : List Op) :
    wp (system L ops) (fun _ t => Exact L t)
      (fun e => e ≠ .kfree_error ∧ e ≠ .increment_problem) (powerOn m) := by
  refine wp_mono (system_spec L m ops) ?_ ?_
  · rintro _ t ⟨T, h⟩
    exact Inv.exact h
  · rintro e ((rfl | rfl) | rfl) <;> exact ⟨by simp, by simp⟩

/-! ### Sizes -/

/-- The address space of process `i` matches its size. -/
structure Matches (t : Kern) (i : Fin NPROC) : Prop where
  /-- Valid leaf entries are those of `[0, PGROUNDUP(sz))`, `TRAPFRAME` and `TRAMPOLINE`. -/
  valid : ∀ v, has ((tabOf t i).leaf v) PTE_V = true ↔
    v * PGSIZE < PGROUNDUP (t.proc i).sz ∨ v * PGSIZE = TRAPFRAME ∨ v * PGSIZE = TRAMPOLINE
  /-- Every leaf has one of `R`, `W`, `X`. -/
  rwx : ∀ v, has ((tabOf t i).leaf v) PTE_V = true →
    has ((tabOf t i).leaf v) (PTE_R ||| PTE_W ||| PTE_X) = true
  /-- Its tables serve at one place of one page table and have no other use. -/
  own : ∀ l x q, (tabOf t i).tab l x = some q → t.k.temp (q / PGSIZE) = 1 ∧
    ∀ j, Live (t.proc j) → ∀ l' x', (tabOf t j).tab l' x' = some q → j = i ∧ l' = l ∧ x' = x

lemma Slot.rwx {m : Mem} {p : Proc} (h : Slot L m A p) {v : ℕ} (hV : has (A.leaf v) PTE_V = true) :
    has (A.leaf v) (PTE_R ||| PTE_W ||| PTE_X) = true := by
  have hR : has (A.leaf v) PTE_R = true := by
    rcases (h.space.valid_iff v).mp hV with h1 | rfl | rfl
    · exact (h.space.user v h1).readable
    · rw [has_R, Space.trapframe_bit h.space (by omega)]; decide
    · rw [has_R, Space.trampoline_bit h.space (by omega)]; decide
  rw [has_or, has_or, hR]; rfl

lemma Inv.matches (h : Inv L t T) (hi : Live (t.proc i)) : Matches t i := by
  have hs := h.slot i hi
  have hpos : 0 < PGSIZE := by unfold PGSIZE; omega
  refine ⟨fun v => ?_, fun v hv => ?_, fun l x q hq => ?_⟩
  · rw [Inv.tabOf h hi, hs.space.valid_iff v, roundup_eq, trapframe_eq, Create.trampoline_eq,
      Nat.mul_lt_mul_right hpos, Nat.mul_left_inj hpos.ne', Nat.mul_left_inj hpos.ne']
  · rw [Inv.tabOf h hi] at hv ⊢
    exact Slot.rwx hs hv
  · rw [Inv.tabOf h hi] at hq
    have htab : IsTab (T i) q := ⟨l, x, hq⟩
    have hone := (h.single i hi).tab q htab
    refine ⟨by rw [h.acct.count q (hs.wf.range _ _ _ hq), hone]; rfl, fun j hj l' x' hq' => ?_⟩
    rw [Inv.tabOf h hj] at hq'
    have hji : j = i := by
      by_contra hne
      have h1 := held_le_rest T t hne q
      have h2 := held_tab hj ⟨l', x', hq'⟩
      have h3 := held_tab hi htab
      rw [total_eq T t i] at hone
      omega
    subst hji
    exact ⟨rfl, hs.wf.inj _ _ _ _ _ hq' hq⟩

/-- The system calls that create, resize, replace and free address spaces. -/
def Syscall : Op → Prop
  | .fork _ | .growproc _ _ | .exec _ _ _ | .exit _ _ | .wait _ _ | .waitx _ _ _ _ _ _ => True
  | _ => False

lemma syscall_panics (h : Inv L t T) {op : Op} (hop : Syscall op) :
    wp (step L op) (fun _ _ => True) (fun e => e = .init_exiting) t := by
  -- a process that may not run does nothing
  have hrun : ∀ {α : Type} {m : S α} {i : Fin NPROC}, ((t.proc i).state = .RUNNABLE →
      Live (t.proc i) → wp m (fun _ _ => True) (fun e => e = .init_exiting) t) →
      wp (running i m) (fun _ _ => True) (fun e => e = .init_exiting) t := by
    intro α m i hm
    unfold running
    rw [wp_bind, wp_get]
    split_ifs with hs
    · rw [wp_bind]
      exact wp_post (hm hs (Inv.live h (by rw [hs]; simp))) fun _ _ _ => trivial
    · exact trivial
  cases op with
  | fork i => exact hrun fun _ hi => wp_post (fork_spec h hi) fun _ _ _ => trivial
  | growproc i n =>
      refine hrun fun _ hi => wp_post (growproc_spec h hi ?_ ?_) fun _ _ _ => trivial
      · have := BitVec.le_toInt n; simpa using this
      · have := BitVec.toInt_lt (x := n); simpa using this
  | exec i ip argv => exact hrun fun _ hi => wp_post (exec_spec h hi ip argv) fun _ _ _ => trivial
  | exit i status => exact hrun fun _ hi => wp_post (exit_spec h hi status) fun _ _ _ => trivial
  | wait i addr => exact hrun fun hr _ => wp_post (wait_spec h hr addr) fun _ _ _ => trivial
  | waitx i addr addr1 addr2 wtime rtime =>
      exact hrun fun hr _ => wp_post (sys_waitx_spec h hr addr addr1 addr2 wtime rtime)
        fun _ _ _ => trivial
  | store_fault | copyout | user_store | save_regs | own_alloc | own_free | own_write =>
      exact hop.elim

/-- **A process's address space always matches its size**, and no panic but that of the first
process exiting is reachable from the system calls that rely on it. -/
theorem address_space_matches_sz (L : Layout) (m : Mem) (ops : List Op) :
    wp (system L ops) (fun _ t => (∀ i, Live (t.proc i) → Matches t i) ∧
      ∀ op, Syscall op → wp (step L op) (fun _ _ => True) (fun e => e = .init_exiting) t)
      Reachable (powerOn m) := by
  refine wp_post (system_spec L m ops) ?_
  rintro _ t ⟨T, h⟩
  exact ⟨fun i hi => Inv.matches h hi, fun op hop => syscall_panics h hop⟩

end Xv6.RefCount
