import Xv6.Vm

/-!
Three-level page tables in physical memory.

`PTab` is what a page table holds: the page of each of its tables, by level and index, and the
leaf entry of each virtual page. `Rep m A` says that memory `m` stores `A`; it depends only on
the bytes of `A`'s own tables. `Wf` is the shape: one root, every table hangs below another
one, and no page serves as two tables.
-/

namespace Xv6.PageTable

open Xv6.ByteMem Xv6.Riscv Xv6.Kalloc Xv6.Vm Xv6.Wp

/-- The tables by level and index prefix, and the leaf entries by virtual page number. -/
structure PTab where
  tab : ℕ → ℕ → Option ℕ
  leaf : ℕ → Word

/-- What a table of level above 0 stores for the table `t` below it. -/
def entry : Option ℕ → Word
  | none => 0
  | some q => PA2PTE q ||| PTE_V

/-- Memory stores the tables of `A`. -/
structure Rep (m : Mem) (A : PTab) : Prop where
  node : ∀ l x q, A.tab (l + 1) x = some q → ∀ i < 512,
    ld64 m (q + 8 * i) = entry (A.tab l (x * 512 + i))
  leaf : ∀ x q, A.tab 0 x = some q → ∀ i < 512, ld64 m (q + 8 * i) = A.leaf (x * 512 + i)

/-- The shape of a page table with the given root. -/
structure Wf (L : Layout) (root : ℕ) (A : PTab) : Prop where
  root : A.tab 2 0 = some root
  top : ∀ l x q, A.tab l x = some q → l ≤ 2 ∧ x < 512 ^ (2 - l)
  parent : ∀ l x, l < 2 → A.tab (l + 1) (x / 512) = none → A.tab l x = none
  noleaf : ∀ v, A.tab 0 (v / 512) = none → A.leaf v = 0
  inj : ∀ l x l' x' q, A.tab l x = some q → A.tab l' x' = some q → l = l' ∧ x = x'
  range : ∀ l x q, A.tab l x = some q → InRange L q

/-- The page is one of the tables. -/
def IsTab (A : PTab) (p : ℕ) : Prop := ∃ l x, A.tab l x = some p

open Classical in
/-- One reference to each table page. -/
noncomputable def tabs (A : PTab) : ℕ → ℕ := fun p => if IsTab A p then 1 else 0

/-- The address of the level-0 entry for `va`, or `0`. -/
def pteAddr (A : PTab) (va : ℕ) : ℕ :=
  match A.tab 0 (va / PGSIZE / 512) with
  | some q => q + 8 * (va / PGSIZE % 512)
  | none => 0

def setLeaf (A : PTab) (v : ℕ) (e : Word) : PTab := { A with leaf := Function.update A.leaf v e }

def setTab (A : PTab) (l x q : ℕ) : PTab :=
  { A with tab := fun l' x' => if l' = l ∧ x' = x then some q else A.tab l' x' }

variable {L : Layout} {root : ℕ} {A : PTab} {m m' : Mem} {s s' : KState} {R : ℕ → ℕ}

@[simp] lemma setLeaf_tab (A : PTab) (v : ℕ) (e : Word) : (setLeaf A v e).tab = A.tab := rfl

@[simp] lemma setTab_leaf (A : PTab) (l x q : ℕ) : (setTab A l x q).leaf = A.leaf := rfl

lemma tabs_tab {l x q : ℕ} (h : A.tab l x = some q) : tabs A q = 1 := if_pos ⟨l, x, h⟩

lemma isTab_iff {p : ℕ} : tabs A p ≠ 0 ↔ IsTab A p := by unfold tabs; split_ifs <;> simp [*]

/-! ### Entries -/

@[simp] lemma entry_none : entry none = 0 := rfl

lemma isFlags_V : IsFlags PTE_V := by
  intro k hk
  unfold PTE_V
  simp; omega

lemma entry_valid {q : ℕ} (hq : InRange L q) : has (entry (some q)) PTE_V = true := by
  rw [has_V]
  unfold entry
  rw [getLsbD_mk hq.lt (by omega)]
  rfl

lemma entry_pa {q : ℕ} (hq : InRange L q) : PTE2PA (entry (some q)) = q :=
  pte2pa_mk hq.lt hq.1 isFlags_V

@[simp] lemma has_zero (f : Word) : has 0 f = false := by simp [has]

/-! ### Memory -/

lemma entry_page {q i x : ℕ} (hq : q % PGSIZE = 0) (hi : i < 512) (h1 : q + 8 * i ≤ x)
    (h2 : x < q + 8 * i + 8) : PGROUNDDOWN x = q := by
  rw [rounddown_eq hq]; unfold PGSIZE; omega

lemma Rep.congr (h : Rep m A) (hw : Wf L root A)
    (hm : ∀ x, IsTab A (PGROUNDDOWN x) → m' x = m x) : Rep m' A := by
  constructor
  · intro l x q hq i hi
    rw [← h.node l x q hq i hi]
    refine ld64_congr fun y h1 h2 => hm y ?_
    rw [entry_page (hw.range _ _ _ hq).1 hi h1 h2]
    exact ⟨_, _, hq⟩
  · intro x q hq i hi
    rw [← h.leaf x q hq i hi]
    refine ld64_congr fun y h1 h2 => hm y ?_
    rw [entry_page (hw.range _ _ _ hq).1 hi h1 h2]
    exact ⟨_, _, hq⟩

lemma Rep.keeps (h : Rep s.mem A) (hw : Wf L root A) {U : ℕ → ℕ} (hk : Keeps U s s')
    (hU : ∀ p, IsTab A p → U p ≠ 0) : Rep s'.mem A :=
  h.congr hw fun x hx => hk x (hU _ hx)

/-! ### Looking up an address -/

lemma none_below (hw : Wf L root A) (v : ℕ) :
    ∀ l ≤ 2, A.tab l (v / 512 ^ (l + 1)) = none → A.tab 0 (v / 512) = none := by
  intro l
  induction l with
  | zero => intro _ h; simpa using h
  | succ l ih =>
      intro hl h
      refine ih (by omega) (hw.parent l _ (by omega) ?_)
      rw [Nat.div_div_eq_div_mul, ← pow_succ]
      exact h

lemma px_eq (level va : ℕ) : PX level va = va / PGSIZE / 512 ^ level % 512 := by
  unfold PX PGSIZE
  rw [Nat.div_div_eq_div_mul, show 512 = 2 ^ 9 from rfl, ← pow_mul, show 4096 = 2 ^ 12 from rfl,
    ← pow_add]

lemma index_step (v l : ℕ) : v / 512 ^ (l + 2) * 512 + v / 512 ^ (l + 1) % 512 = v / 512 ^ (l + 1) := by
  rw [pow_succ 512 (l + 1), ← Nat.div_div_eq_div_mul]
  omega

lemma vpn_lt {va : ℕ} (h : va < MAXVA) : va / PGSIZE < 2 ^ 26 := by
  unfold MAXVA PGSIZE at *; omega

lemma walkLoop_read (hw : Wf L root A) (hr : Rep s.mem A) (va : ℕ) :
    ∀ level ≤ 2, ∀ t, A.tab level (va / PGSIZE / 512 ^ (level + 1)) = some t →
      walkLoop va false level t s = .ok (pteAddr A va, s) := by
  intro level
  induction level with
  | zero =>
      intro _ t ht
      simp only [zero_add, pow_one] at ht
      simp only [walkLoop, pteAddr, ht, px_eq, pow_zero, Nat.div_one]
      rfl
  | succ l ih =>
      intro hl t ht
      have he := hr.node l _ t ht (va / PGSIZE / 512 ^ (l + 1) % 512) (Nat.mod_lt _ (by omega))
      rw [index_step] at he
      unfold walkLoop
      rw [bind_run]
      simp only [ld, px_eq, he]
      rcases hq : A.tab l (va / PGSIZE / 512 ^ (l + 1)) with _ | q
      · simp only [entry_none, has_zero, Bool.false_eq_true, if_false, pteAddr,
          none_below hw _ l (by omega) hq]
        rfl
      · have hin := hw.range _ _ _ hq
        rw [if_pos (entry_valid hin), entry_pa hin]
        exact ih (by omega) q hq

/-- **`walk` without allocation** finds the entry's address and changes nothing. -/
lemma walk_read (hw : Wf L root A) (hr : Rep s.mem A) {va : ℕ} (hva : va < MAXVA) :
    walk root va false s = .ok (pteAddr A va, s) := by
  unfold walk
  rw [if_neg (by omega)]
  refine walkLoop_read hw hr va 2 le_rfl root ?_
  have := vpn_lt hva
  rw [Nat.div_eq_of_lt (by norm_num; omega)]
  exact hw.root

lemma pteAddr_ne_zero (hw : Wf L root A) {va : ℕ} (h : A.leaf (va / PGSIZE) ≠ 0) :
    pteAddr A va ≠ 0 := by
  unfold pteAddr
  rcases hq : A.tab 0 (va / PGSIZE / 512) with _ | q
  · exact absurd (hw.noleaf _ hq) h
  · have := (hw.range _ _ _ hq).pos
    simp only; omega

lemma ld_pteAddr (hr : Rep m A) {va : ℕ} (h : pteAddr A va ≠ 0) :
    ld64 m (pteAddr A va) = A.leaf (va / PGSIZE) := by
  unfold pteAddr at h ⊢
  rcases hq : A.tab 0 (va / PGSIZE / 512) with _ | q
  · rw [hq] at h; exact absurd rfl h
  · rw [hr.leaf _ q hq _ (Nat.mod_lt _ (by omega))]
    congr 1
    omega

end Xv6.PageTable
