import Xv6.Kernel
import Xv6.Create
import Xv6.Share

/-!
The invariant of the kernel's memory.

`Inv L t T`: the page tables of the live processes are `T`, each process's address space matches
its size, every outstanding reference is counted, and what must have a single owner has one:
tables, trapframes, pages of owners outside the process table, and writable user pages. An
operation on one process is proved against `rest`, everything the process does not hold, and put
back into the whole by `Inv.update`, `Inv.insert`, `Inv.remove` and `Inv.pair`.
-/

namespace Xv6.Invariant

open Xv6.ByteMem Xv6.Riscv Xv6.Kalloc Xv6.Vm Xv6.Wp Xv6.PageTable Xv6.Walk Xv6.Unmap
open Xv6.AddrSpace Xv6.Grow Xv6.Cow Xv6.Create Xv6.Share Xv6.Process Xv6.Kernel

/-- The process has an address space. -/
def Live (p : Proc) : Prop := p.pagetable ≠ 0

instance (p : Proc) : Decidable (Live p) := inferInstanceAs (Decidable (_ ≠ _))

/-- The references a process holds: to its tables and its trapframe, and from its user pages. -/
noncomputable def held (A : PTab) (p : Proc) : ℕ → ℕ :=
  if Live p then tabs A + leaves A.leaf + ref p.trapframe else 0

noncomputable def total (T : Fin NPROC → PTab) (t : Kern) : ℕ → ℕ := fun p =>
  (∑ i, held (T i) (t.proc i) p) + t.own.count p

/-- What process `i` does not hold. -/
noncomputable def rest (T : Fin NPROC → PTab) (t : Kern) (i : Fin NPROC) : ℕ → ℕ := fun p =>
  (∑ j ∈ Finset.univ.erase i, held (T j) (t.proc j) p) + t.own.count p

/-- A live process whose address space is `A`. -/
structure Slot (L : Layout) (m : Mem) (A : PTab) (p : Proc) : Prop where
  wf : Wf L p.pagetable A
  rep : Rep m A
  space : Space L A.leaf (pgs p.sz) p.trapframe
  le : p.sz ≤ 2 ^ 27
  used : p.state ≠ .UNUSED

/-- What has a single owner: the process's tables, its trapframe, its writable pages. -/
structure Single (T : Fin NPROC → PTab) (t : Kern) (i : Fin NPROC) : Prop where
  tab : ∀ p, IsTab (T i) p → total T t p = 1
  trapframe : total T t (t.proc i).trapframe = 1
  write : ∀ v < pgs (t.proc i).sz, has ((T i).leaf v) PTE_W = true →
    total T t (PTE2PA ((T i).leaf v)) = 1

structure Inv (L : Layout) (t : Kern) (T : Fin NPROC → PTab) : Prop where
  acct : Acct L t.k (total T t)
  slot : ∀ i, Live (t.proc i) → Slot L t.k.mem (T i) (t.proc i)
  single : ∀ i, Live (t.proc i) → Single T t i
  idle : ∀ i, ¬ Live (t.proc i) → t.proc i = unusedProc
  own_one : ∀ p ∈ t.own, total T t p = 1

variable {L : Layout} {t : Kern} {T : Fin NPROC → PTab} {i j : Fin NPROC} {A : PTab}
  {k : KState} {c : Proc} {q : ℕ} {t' : Kern} {T' : Fin NPROC → PTab}

/-! ### The counts -/

lemma held_live (h : Live c) : held A c = tabs A + leaves A.leaf + ref c.trapframe := if_pos h

lemma held_idle (h : ¬ Live c) : held A c = 0 := if_neg h

lemma total_eq (T : Fin NPROC → PTab) (t : Kern) (i : Fin NPROC) (q : ℕ) :
    total T t q = held (T i) (t.proc i) q + rest T t i q := by
  unfold total rest
  rw [← Finset.add_sum_erase _ _ (Finset.mem_univ i)]
  omega

lemma rest_update (T : Fin NPROC → PTab) (t : Kern) (i : Fin NPROC) (A : PTab) (c : Proc)
    (k : KState) :
    rest (Function.update T i A) { t with k := k, proc := Function.update t.proc i c } i =
      rest T t i := by
  funext q
  unfold rest
  refine congrArg (· + t.own.count q) (Finset.sum_congr rfl fun j hj => ?_)
  have hne := (Finset.mem_erase.mp hj).1
  simp only [Function.update_of_ne hne]

lemma held_le_rest (T : Fin NPROC → PTab) (t : Kern) (hij : j ≠ i) (q : ℕ) :
    held (T j) (t.proc j) q ≤ rest T t i q := by
  unfold rest
  have := Finset.single_le_sum (f := fun j => held (T j) (t.proc j) q) (fun _ _ => Nat.zero_le _)
    (Finset.mem_erase.mpr ⟨hij, Finset.mem_univ j⟩)
  omega

lemma own_le_rest (T : Fin NPROC → PTab) (t : Kern) (i : Fin NPROC) (hq : q ∈ t.own) :
    0 < rest T t i q := by
  have := List.count_pos_iff.mpr hq
  unfold rest
  omega

lemma held_tab (hp : Live c) (hq : IsTab A q) : held A c q ≠ 0 := by
  have := isTab_iff.mpr hq
  rw [held_live hp]
  simp only [Pi.add_apply]; omega

lemma held_trapframe (hp : Live c) : held A c c.trapframe ≠ 0 := by
  rw [held_live hp]
  simp only [Pi.add_apply, ref_self]; omega

lemma Slot.held_leaf {m : Mem} (h : Slot L m A c) (hp : Live c) {v : ℕ} (hv : v < pgs c.sz) :
    held A c (PTE2PA (A.leaf v)) ≠ 0 := by
  have := Space.leaves_user h.space hv
  rw [held_live hp]
  simp only [Pi.add_apply]; omega

/-! ### Changing some processes -/

/-- The processes outside `C` are as before, and no page of theirs or of an outside owner that
had one reference has got another. -/
lemma Inv.rebuild (h : Inv L t T) (C : Fin NPROC → Prop)
    (hsame : ∀ j, ¬ C j → t'.proc j = t.proc j ∧ T' j = T j)
    (hacct : Acct L t'.k (total T' t'))
    (hkeep : ∀ j, ¬ C j → Live (t.proc j) → ∀ x, IsTab (T j) (PGROUNDDOWN x) →
      t'.k.mem x = t.k.mem x)
    (hone : ∀ q, total T t q = 1 → (∃ j, ¬ C j ∧ held (T j) (t.proc j) q ≠ 0) →
      total T' t' q = 1)
    (hown : ∀ q ∈ t'.own, total T' t' q = 1)
    (hlive : ∀ j, C j → Live (t'.proc j) → Slot L t'.k.mem (T' j) (t'.proc j) ∧ Single T' t' j)
    (hidle : ∀ j, C j → ¬ Live (t'.proc j) → t'.proc j = unusedProc) : Inv L t' T' := by
  refine ⟨hacct, fun j hj => ?_, fun j hj => ?_, fun j hj => ?_, hown⟩
  · by_cases hC : C j
    · exact (hlive j hC hj).1
    · obtain ⟨h1, h2⟩ := hsame j hC
      rw [h1] at hj ⊢
      rw [h2]
      have hs := h.slot j hj
      exact ⟨hs.wf, hs.rep.congr hs.wf (hkeep j hC hj), hs.space, hs.le, hs.used⟩
  · by_cases hC : C j
    · exact (hlive j hC hj).2
    · obtain ⟨h1, h2⟩ := hsame j hC
      rw [h1] at hj
      have hs := h.slot j hj
      have h1s := h.single j hj
      refine ⟨fun q hq => ?_, ?_, fun v hv hW => ?_⟩
      · rw [h2] at hq
        exact hone q (h1s.tab q hq) ⟨j, hC, held_tab hj hq⟩
      · rw [h1]
        exact hone _ h1s.trapframe ⟨j, hC, held_trapframe hj⟩
      · rw [h1] at hv
        rw [h2] at hW ⊢
        exact hone _ (h1s.write v hv hW) ⟨j, hC, hs.held_leaf hj hv⟩
  · by_cases hC : C j
    · exact hidle j hC hj
    · rw [(hsame j hC).1] at hj ⊢
      exact h.idle j hj

/-! ### One process -/

lemma Inv.as (h : Inv L t T) (hi : Live (t.proc i)) :
    AS L t.k (t.proc i).pagetable (T i) (rest T t i + ref (t.proc i).trapframe)
      (pgs (t.proc i).sz) (t.proc i).trapframe := by
  have hs := h.slot i hi
  refine ⟨⟨hs.wf, hs.rep, h.acct.congr fun q => ?_, fun q hq => ?_⟩, hs.space⟩
  · rw [total_eq T t i, held_live hi]
    simp only [Pi.add_apply]; omega
  · have h1 := (h.single i hi).tab q hq
    have h2 := isTab_iff.mpr hq
    rw [total_eq T t i, held_live hi] at h1
    simp only [Pi.add_apply] at h1 ⊢
    omega

lemma Inv.priv (h : Inv L t T) (hi : Live (t.proc i)) :
    Priv (rest T t i + ref (t.proc i).trapframe) (T i).leaf (pgs (t.proc i).sz) := by
  intro v hv hW
  have h1 := (h.single i hi).write v hv hW
  have h2 := Space.leaves_user (h.slot i hi).space hv
  rw [total_eq T t i, held_live hi] at h1
  simp only [Pi.add_apply] at h1 ⊢
  omega

lemma one_of_as {R : ℕ → ℕ} {root np tf : ℕ} (h : AS L k root A R np tf) (hp : Priv R A.leaf np) :
    (∀ q, IsTab A q → tabs A q + leaves A.leaf q + R q = 1) ∧
    ∀ v < np, has (A.leaf v) PTE_W = true →
      tabs A (PTE2PA (A.leaf v)) + leaves A.leaf (PTE2PA (A.leaf v)) + R (PTE2PA (A.leaf v)) = 1 := by
  refine ⟨fun q hq => ?_, fun v hv hW => ?_⟩
  · have h1 := h.owns.excl q hq
    have h2 : tabs A q = 1 := if_pos hq
    simp only [Pi.add_apply] at h1
    omega
  · have h1 := hp v hv hW
    have h2 := Space.leaves_user h.space hv
    have h3 : tabs A (PTE2PA (A.leaf v)) = 0 := by
      by_contra hc
      have := h.owns.excl _ (isTab_iff.mp hc)
      simp only [Pi.add_apply] at this
      omega
    omega

/-- **Putting a changed process back**: its new address space was made against the same rest,
maps nothing new of it, and left the tables of the others alone. -/
lemma Inv.update (h : Inv L t T) (hi : Live (t.proc i))
    (has : AS L k c.pagetable A (rest T t i + ref (t.proc i).trapframe) (pgs c.sz)
      (t.proc i).trapframe)
    (htf : c.trapframe = (t.proc i).trapframe)
    (hpriv : Priv (rest T t i + ref (t.proc i).trapframe) A.leaf (pgs c.sz))
    (hnew : NoNew (rest T t i + ref (t.proc i).trapframe) (T i).leaf A.leaf)
    (hkeep : ∀ j, j ≠ i → Live (t.proc j) → ∀ x, IsTab (T j) (PGROUNDDOWN x) →
      k.mem x = t.k.mem x)
    (hsz : c.sz ≤ 2 ^ 27) (hst : c.state ≠ .UNUSED) :
    Inv L { t with k := k, proc := Function.update t.proc i c } (Function.update T i A) := by
  have hlive : Live c := has.owns.root_ne
  set t' : Kern := { t with k := k, proc := Function.update t.proc i c } with ht'
  have hp : t'.proc i = c := Function.update_self ..
  have htot : ∀ q, total (Function.update T i A) t' q = tabs A q + leaves A.leaf q +
      (rest T t i + ref (t.proc i).trapframe) q := by
    intro q
    rw [total_eq _ t' i, hp, Function.update_self, held_live hlive, htf, ht', rest_update]
    simp only [Pi.add_apply]; omega
  -- pages of others with one reference keep it
  have hone : ∀ q, total T t q = 1 → (rest T t i + ref (t.proc i).trapframe) q ≠ 0 →
      total (Function.update T i A) t' q = 1 := by
    intro q h1 hR
    have h2 := hnew q hR
    have h3 : tabs A q = 0 := by
      by_contra hc
      have := has.owns.excl q (isTab_iff.mp hc)
      simp only [Pi.add_apply] at this hR
      omega
    rw [total_eq T t i, held_live hi] at h1
    rw [htot]
    simp only [Pi.add_apply] at h1 hR ⊢
    omega
  obtain ⟨h1, h2⟩ := one_of_as has hpriv
  refine h.rebuild (fun j => j = i) (fun j hj => ⟨Function.update_of_ne hj _ _,
    Function.update_of_ne hj _ _⟩) (has.owns.acct.congr fun q => ?_) hkeep ?_ ?_ ?_ ?_
  · rw [htot]; simp only [Pi.add_apply]; omega
  · rintro q hq ⟨j, hj, hh⟩
    refine hone q hq ?_
    have := held_le_rest T t hj q
    rw [Pi.add_apply]; omega
  · intro q hq
    refine hone q (h.own_one q hq) ?_
    have := own_le_rest T t i hq
    rw [Pi.add_apply]; omega
  · rintro j rfl -
    rw [hp, Function.update_self]
    refine ⟨⟨has.owns.wf, has.owns.rep, by rw [htf]; exact has.space, hsz, hst⟩, ?_, ?_, ?_⟩
    · intro q hq
      rw [Function.update_self] at hq
      rw [htot]; exact h1 q hq
    · rw [hp, htf]
      exact hone _ (h.single j hi).trapframe (by simp)
    · intro v hv hW
      rw [hp] at hv
      rw [Function.update_self] at hW ⊢
      rw [htot]; exact h2 v hv hW
  · rintro j rfl hj
    rw [hp] at hj
    exact absurd hlive hj

/-- Nothing but table pages of live processes and what the counts look at matters. -/
lemma Inv.frame (h : Inv L t T) (hfl : t'.k.freelist = t.k.freelist) (htemp : t'.k.temp = t.k.temp)
    (hmem : ∀ i, Live (t.proc i) → ∀ x, IsTab (T i) (PGROUNDDOWN x) → t'.k.mem x = t.k.mem x)
    (hown : t'.own = t.own)
    (hproc : ∀ i, (t'.proc i).pagetable = (t.proc i).pagetable ∧ (t'.proc i).sz = (t.proc i).sz ∧
      (t'.proc i).trapframe = (t.proc i).trapframe)
    (hused : ∀ i, Live (t.proc i) → (t'.proc i).state ≠ .UNUSED)
    (hidle : ∀ i, ¬ Live (t.proc i) → t'.proc i = t.proc i) : Inv L t' T := by
  have hlive : ∀ i, Live (t'.proc i) ↔ Live (t.proc i) := fun i => by
    unfold Live; rw [(hproc i).1]
  have hheld : ∀ i, held (T i) (t'.proc i) = held (T i) (t.proc i) := fun i => by
    by_cases hi : Live (t.proc i)
    · rw [held_live hi, held_live ((hlive i).mpr hi), (hproc i).2.2]
    · rw [held_idle hi, held_idle (mt (hlive i).mp hi)]
  have htot : total T t' = total T t := by
    funext q
    unfold total
    simp only [hheld, hown]
  refine ⟨by rw [htot]; exact h.acct.of_mem hfl htemp, fun i hi => ?_, fun i hi => ?_,
    fun i hi => ?_, ?_⟩
  · have hi' := (hlive i).mp hi
    obtain ⟨h1, h2, h3⟩ := hproc i
    have hs := h.slot i hi'
    refine ⟨by rw [h1]; exact hs.wf, hs.rep.congr hs.wf (hmem i hi'), ?_, by rw [h2]; exact hs.le,
      hused i hi'⟩
    rw [h2, h3]; exact hs.space
  · have hs := h.single i ((hlive i).mp hi)
    obtain ⟨h1, h2, h3⟩ := hproc i
    refine ⟨?_, ?_, ?_⟩
    · rw [htot]; exact hs.tab
    · rw [htot, h3]; exact hs.trapframe
    · rw [htot, h2]; exact hs.write
  · have hi' := mt (hlive i).mpr hi
    rw [hidle i hi']
    exact h.idle i hi'
  · rw [htot, hown]; exact h.own_one

lemma Inv.recount (h : Inv L t T) (hacct : Acct L k (total T t)) (hk : Keeps (total T t) t.k k)
    (n : ℤ) : Inv L { t with k := k, nextpid := n } T := by
  refine h.rebuild (fun _ => False) (fun _ _ => ⟨rfl, rfl⟩) hacct (fun j _ hj x hx => hk x ?_)
    (fun q hq _ => hq) h.own_one (fun _ hc => hc.elim) fun _ hc => hc.elim
  rw [(h.single j hj).tab _ hx]; omega

lemma rest_idle (hi : ¬ Live (t.proc i)) : rest T t i = total T t := by
  funext q
  rw [total_eq T t i, held_idle hi]
  simp

/-- **A new process** in an idle slot, with its trapframe and page table just made. -/
lemma Inv.insert (h : Inv L t T) (hi : ¬ Live (t.proc i))
    (has : AS L k c.pagetable A (total T t + ref c.trapframe) 0 c.trapframe)
    (hl : leaves A.leaf = 0) (htf : total T t c.trapframe = 0) (hk : Keeps (total T t) t.k k)
    (hsz : c.sz = 0) (hst : c.state ≠ .UNUSED) :
    Inv L { t with k := k, proc := Function.update t.proc i c } (Function.update T i A) := by
  have hlive : Live c := has.owns.root_ne
  set t' : Kern := { t with k := k, proc := Function.update t.proc i c } with ht'
  have hp : t'.proc i = c := Function.update_self ..
  have htot : ∀ q, total (Function.update T i A) t' q =
      tabs A q + leaves A.leaf q + (total T t + ref c.trapframe) q := by
    intro q
    rw [total_eq _ t' i, hp, Function.update_self, held_live hlive, ht', rest_update,
      rest_idle hi]
    simp only [Pi.add_apply]; omega
  have hone : ∀ q, total T t q = 1 → total (Function.update T i A) t' q = 1 := by
    intro q h1
    have h3 : tabs A q = 0 := by
      by_contra hc
      have := has.owns.excl q (isTab_iff.mp hc)
      simp only [Pi.add_apply] at this
      omega
    have h4 : q ≠ c.trapframe := by rintro rfl; omega
    rw [htot, h3, hl, Pi.add_apply, ref_ne h4]
    simp; omega
  have hpgs : pgs c.sz = 0 := by rw [hsz]; exact pgs_zero
  obtain ⟨h1, -⟩ := one_of_as has (fun v hv => by omega)
  refine h.rebuild (fun j => j = i) (fun j hj => ⟨Function.update_of_ne hj _ _,
    Function.update_of_ne hj _ _⟩) (has.owns.acct.congr fun q => ?_) ?_ ?_ ?_ ?_ ?_
  · rw [htot]; simp only [Pi.add_apply]; omega
  · intro j _ hj x hx
    refine hk x ?_
    rw [(h.single j hj).tab _ hx]; omega
  · exact fun q hq _ => hone q hq
  · exact fun q hq => hone q (h.own_one q hq)
  · rintro j rfl -
    rw [hp, Function.update_self]
    refine ⟨⟨has.owns.wf, has.owns.rep, by rw [hpgs]; exact has.space, by omega, hst⟩, ?_, ?_, ?_⟩
    · intro q hq
      rw [Function.update_self] at hq
      rw [htot]; exact h1 q hq
    · have h3 : tabs A c.trapframe = 0 := by
        by_contra hc
        have := has.owns.excl _ (isTab_iff.mp hc)
        simp only [Pi.add_apply, ref_self] at this
        omega
      rw [hp, htot, h3, hl, Pi.add_apply, htf, ref_self]
      simp
    · intro v hv
      rw [hp, hpgs] at hv
      omega
  · rintro j rfl hj
    rw [hp] at hj
    exact absurd hlive hj

/-- **A process is gone**: only what the others hold is left. -/
lemma Inv.remove (h : Inv L t T) (hacct : Acct L k (rest T t i))
    (hk : Keeps (rest T t i) t.k k) :
    Inv L { t with k := k, proc := Function.update t.proc i unusedProc } T := by
  set t' : Kern := { t with k := k, proc := Function.update t.proc i unusedProc } with ht'
  have hp : t'.proc i = unusedProc := Function.update_self ..
  have hnot : ¬ Live (t'.proc i) := by rw [hp]; exact fun hc => hc rfl
  have htot : total T t' = rest T t i := by
    have := rest_update T t i (T i) unusedProc k
    rw [Function.update_eq_self] at this
    rw [← rest_idle hnot]; exact this
  have hle : ∀ q, rest T t i q ≤ total T t q := fun q => by rw [total_eq T t i]; omega
  refine h.rebuild (fun j => j = i) (fun j hj => ⟨Function.update_of_ne hj _ _, rfl⟩)
    (by rw [htot]; exact hacct) (fun j hj hlj x hx => hk x ?_) ?_ ?_ ?_ ?_
  · have h1 := held_le_rest T t hj (PGROUNDDOWN x)
    have h2 := held_tab hlj hx
    omega
  · rintro q hq ⟨j, hj, hh⟩
    have h1 := held_le_rest T t hj q
    have h2 := hle q
    rw [htot]; omega
  · intro q hq
    have h1 := own_le_rest T t i hq
    have h2 := hle q
    have h3 := h.own_one q hq
    rw [htot]; omega
  · rintro j rfl hj
    exact absurd hj hnot
  · rintro j rfl _
    exact hp

/-! ### Two processes -/

/-- What neither of two processes holds, and their trapframes. -/
noncomputable def rest2 (T : Fin NPROC → PTab) (t : Kern) (i j : Fin NPROC) : ℕ → ℕ := fun p =>
  (∑ l ∈ (Finset.univ.erase i).erase j, held (T l) (t.proc l) p) + t.own.count p +
    ref (t.proc i).trapframe p + ref (t.proc j).trapframe p

lemma held_le_rest2 (T : Fin NPROC → PTab) (t : Kern) {l : Fin NPROC} (hli : l ≠ i) (hlj : l ≠ j)
    (q : ℕ) : held (T l) (t.proc l) q ≤ rest2 T t i j q := by
  have hmem : l ∈ (Finset.univ.erase i).erase j := by
    rw [Finset.mem_erase, Finset.mem_erase]
    exact ⟨hlj, hli, Finset.mem_univ l⟩
  have := Finset.single_le_sum (f := fun l => held (T l) (t.proc l) q)
    (fun _ _ => Nat.zero_le _) hmem
  unfold rest2
  omega

lemma rest_eq (T : Fin NPROC → PTab) (t : Kern) (hij : j ≠ i) (hj : Live (t.proc j)) :
    rest T t i + ref (t.proc i).trapframe = rest2 T t i j + tabs (T j) + leaves (T j).leaf := by
  funext q
  have := Finset.add_sum_erase (Finset.univ.erase i) (fun l => held (T l) (t.proc l) q)
    (Finset.mem_erase.mpr ⟨hij, Finset.mem_univ j⟩)
  simp only [Pi.add_apply, rest, rest2]
  rw [← this, held_live hj]
  simp only [Pi.add_apply]
  omega

lemma rest2_comm (T : Fin NPROC → PTab) (t : Kern) (i j : Fin NPROC) :
    rest2 T t i j = rest2 T t j i := by
  funext q
  unfold rest2
  rw [Finset.erase_right_comm]
  omega

lemma Inv.toPair (h : Inv L t T) (hij : j ≠ i) (hi : Live (t.proc i)) (hj : Live (t.proc j)) :
    Pair L t.k (t.proc i).pagetable (T i) (pgs (t.proc i).sz) (t.proc i).trapframe
      (t.proc j).pagetable (T j) (pgs (t.proc j).sz) (t.proc j).trapframe (rest2 T t i j) := by
  refine ⟨?_, ?_⟩
  · rw [← rest_eq T t hij hj]; exact h.as hi
  · rw [rest2_comm, ← rest_eq T t hij.symm hi]; exact h.as hj

/-- **Putting two changed processes back**: the first maps the same pages, and the second maps
none that neither of them mapped. -/
lemma Inv.pair {B : PTab} {c : Proc} (h : Inv L t T) (hij : j ≠ i) (hi : Live (t.proc i))
    (hj : Live (t.proc j))
    (hpair : Pair L k (t.proc i).pagetable A (pgs (t.proc i).sz) (t.proc i).trapframe
      c.pagetable B (pgs c.sz) (t.proc j).trapframe (rest2 T t i j))
    (htf : c.trapframe = (t.proc j).trapframe) (hst : c.state ≠ .UNUSED) (hsz : c.sz ≤ 2 ^ 27)
    (hA : leaves A.leaf = leaves (T i).leaf)
    (hB : ∀ q, leaves (T i).leaf q = 0 → leaves B.leaf q = 0)
    (hpA : Priv (rest2 T t i j + tabs B + leaves B.leaf) A.leaf (pgs (t.proc i).sz))
    (hpB : Priv (rest2 T t i j + tabs A + leaves A.leaf) B.leaf (pgs c.sz))
    (hk : Keeps (rest2 T t i j) t.k k) :
    Inv L { t with k := k, proc := Function.update t.proc j c }
      (Function.update (Function.update T i A) j B) := by
  have hc : Live c := hpair.child.owns.root_ne
  set t' : Kern := { t with k := k, proc := Function.update t.proc j c } with ht'
  set T' := Function.update (Function.update T i A) j B with hT'
  have hTj : T' j = B := Function.update_self ..
  have hTi : T' i = A := by rw [hT', Function.update_of_ne hij.symm, Function.update_self]
  have hpj : t'.proc j = c := Function.update_self ..
  have hpi : t'.proc i = t.proc i := Function.update_of_ne hij.symm _ _
  have hr2 : rest2 T' t' i j = rest2 T t i j := by
    funext q
    have hsum : (∑ l ∈ (Finset.univ.erase i).erase j, held (T' l) (t'.proc l) q) =
        ∑ l ∈ (Finset.univ.erase i).erase j, held (T l) (t.proc l) q := by
      refine Finset.sum_congr rfl fun l hl => ?_
      obtain ⟨h1, h2⟩ := Finset.mem_erase.mp hl
      have h3 := (Finset.mem_erase.mp h2).1
      rw [hT', Function.update_of_ne h1, Function.update_of_ne h3, ht']
      simp only
      rw [Function.update_of_ne h1]
    unfold rest2
    rw [hsum, hpi, hpj, htf]
  have htot : ∀ q, total T' t' q = tabs A q + leaves A.leaf q + tabs B q + leaves B.leaf q +
      rest2 T t i j q := by
    intro q
    have h1 := congrFun (rest_eq T' t' hij (by rw [hpj]; exact hc)) q
    rw [hr2, hTj] at h1
    rw [total_eq T' t' i, hTi, hpi, held_live hi]
    rw [hpi] at h1
    simp only [Pi.add_apply] at h1 ⊢
    omega
  have hold : ∀ q, total T t q = tabs (T i) q + leaves (T i).leaf q + tabs (T j) q +
      leaves (T j).leaf q + rest2 T t i j q := by
    intro q
    have h1 := congrFun (rest_eq T t hij hj) q
    rw [total_eq T t i, held_live hi]
    simp only [Pi.add_apply] at h1 ⊢
    omega
  have hone : ∀ q, total T t q = 1 → rest2 T t i j q ≠ 0 → total T' t' q = 1 := by
    intro q h1 hR
    rw [hold] at h1
    have hiz : leaves (T i).leaf q = 0 := by omega
    have hAz : leaves A.leaf q = 0 := by rw [hA]; exact hiz
    have hBz := hB q hiz
    have h3 : tabs A q = 0 := by
      by_contra hcc
      have := hpair.parent.owns.excl q (isTab_iff.mp hcc)
      simp only [Pi.add_apply] at this
      omega
    have h4 : tabs B q = 0 := by
      by_contra hcc
      have := hpair.child.owns.excl q (isTab_iff.mp hcc)
      simp only [Pi.add_apply] at this
      omega
    rw [htot]; omega
  have hrest : ∀ l, ¬ (l = i ∨ l = j) → ∀ q, held (T l) (t.proc l) q ≤ rest2 T t i j q :=
    fun l hl => held_le_rest2 T t (fun h => hl (Or.inl h)) fun h => hl (Or.inr h)
  obtain ⟨hA1, hA2⟩ := one_of_as hpair.parent hpA
  obtain ⟨hB1, hB2⟩ := one_of_as hpair.child hpB
  refine h.rebuild (fun l => l = i ∨ l = j) (fun l hl => ?_) (hpair.parent.owns.acct.congr
    fun q => ?_) (fun l hl hll x hx => hk x ?_) ?_ ?_ ?_ ?_
  · rw [not_or] at hl
    refine ⟨Function.update_of_ne hl.2 _ _, ?_⟩
    rw [hT', Function.update_of_ne hl.2, Function.update_of_ne hl.1]
  · rw [htot]; simp only [Pi.add_apply]; omega
  · have h1 := hrest l hl (PGROUNDDOWN x)
    have h2 := held_tab hll hx
    omega
  · rintro q hq ⟨l, hl, hh⟩
    refine hone q hq ?_
    have := hrest l hl q
    omega
  · intro q hq
    refine hone q (h.own_one q hq) ?_
    have : 0 < t.own.count q := List.count_pos_iff.mpr hq
    unfold rest2
    omega
  · rintro l (rfl | rfl) -
    · have hs := h.slot l hi
      refine ⟨⟨by rw [hpi, hTi]; exact hpair.parent.owns.wf, by rw [hTi]; exact hpair.parent.owns.rep,
        by rw [hpi, hTi]; exact hpair.parent.space, by rw [hpi]; exact hs.le,
        by rw [hpi]; exact hs.used⟩, ?_, ?_, ?_⟩
      · intro q hq
        rw [hTi] at hq
        have := hA1 q hq
        rw [htot]; simp only [Pi.add_apply] at this; omega
      · rw [hpi]
        refine hone _ (h.single l hi).trapframe ?_
        unfold rest2
        rw [ref_self]; omega
      · intro v hv hW
        rw [hpi] at hv
        rw [hTi] at hW ⊢
        have := hA2 v hv hW
        rw [htot]; simp only [Pi.add_apply] at this; omega
    · refine ⟨⟨by rw [hpj, hTj]; exact hpair.child.owns.wf, by rw [hTj]; exact hpair.child.owns.rep,
        by rw [hpj, hTj, htf]; exact hpair.child.space, by rw [hpj]; exact hsz,
        by rw [hpj]; exact hst⟩, ?_, ?_, ?_⟩
      · intro q hq
        rw [hTj] at hq
        have := hB1 q hq
        rw [htot]; simp only [Pi.add_apply] at this; omega
      · rw [hpj, htf]
        refine hone _ (h.single l hj).trapframe ?_
        unfold rest2
        rw [ref_self]; omega
      · intro v hv hW
        rw [hpj] at hv
        rw [hTj] at hW ⊢
        have := hB2 v hv hW
        rw [htot]; simp only [Pi.add_apply] at this; omega
  · rintro l (rfl | rfl) hl
    · rw [hpi] at hl; exact absurd hi hl
    · rw [hpj] at hl; exact absurd hc hl

end Xv6.Invariant
