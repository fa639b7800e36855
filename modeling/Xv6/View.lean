import Xv6.Copyout
import Xv6.Invariant

/-!
User memory as a process sees it: its size and the bytes of its pages. `views` reads the memory
of all processes off the kernel state; what an operation does to it is stated on `views`.
-/

namespace Xv6.View

open Xv6.ByteMem Xv6.Riscv Xv6.Kalloc Xv6.Vm Xv6.Wp Xv6.PageTable Xv6.Walk Xv6.Unmap
open Xv6.AddrSpace Xv6.Grow Xv6.Cow Xv6.Copyout Xv6.Share Xv6.Process Xv6.Invariant

/-- The user memory of one process; bytes beyond its last page are `0`. -/
@[ext] structure UMem where
  sz : ℕ
  bytes : ℕ → Byte

def UMem.resize (u : UMem) (sz : ℕ) : UMem :=
  ⟨sz, fun va => if va / PGSIZE < pgs sz then u.bytes va else 0⟩

def UMem.store (u : UMem) (va : ℕ) (b : Byte) : UMem := ⟨u.sz, Function.update u.bytes va b⟩

def view (f : ℕ → Word) (m : Mem) (sz : ℕ) : UMem :=
  ⟨sz, fun va => if va / PGSIZE < pgs sz then rd f m va else 0⟩

/-- The user memories of the live processes. -/
def views (T : Fin NPROC → PTab) (t : Kern) : Fin NPROC → Option UMem := fun i =>
  if Live (t.proc i) then some (view (T i).leaf t.k.mem (t.proc i).sz) else none

variable {L : Layout} {t t' : Kern} {T T' : Fin NPROC → PTab} {i j : Fin NPROC} {A : PTab}
  {k : KState} {c : Proc} {f g : ℕ → Word} {m m' : Mem} {sz sz' np tf : ℕ}

lemma views_live (h : Live (t.proc i)) :
    views T t i = some (view (T i).leaf t.k.mem (t.proc i).sz) := if_pos h

lemma views_idle (h : ¬ Live (t.proc i)) : views T t i = none := if_neg h

lemma view_congr (h : ∀ va, va / PGSIZE < pgs sz → rd g m' va = rd f m va) :
    view g m' sz = view f m sz := by
  unfold view
  congr 1
  funext va
  split_ifs with hc
  · exact h va hc
  · rfl

lemma rd_keeps {R : ℕ → ℕ} {s s' : KState} (hsp : Space L f np tf) (hk : Keeps R s s') {va : ℕ}
    (hva : va / PGSIZE < np) (hR : R (PTE2PA (f (va / PGSIZE))) ≠ 0) :
    rd f s'.mem va = rd f s.mem va := by
  unfold rd
  refine hk _ ?_
  rw [rd_page hsp hva]
  exact hR

lemma view_rest (h : Inv L t T) (hj : Live (t.proc j)) (hji : j ≠ i)
    (hk : Keeps (rest T t i) t.k k) :
    view (T j).leaf k.mem (t.proc j).sz = view (T j).leaf t.k.mem (t.proc j).sz := by
  have hs := h.slot j hj
  refine view_congr fun va hva => rd_keeps hs.space hk hva ?_
  have h1 := held_le_rest T t hji (PTE2PA ((T j).leaf (va / PGSIZE)))
  have h2 := hs.held_leaf hj hva
  omega

lemma views_update (h : Inv L t T) (hp' : Live c) (hk : Keeps (rest T t i) t.k k) :
    views (Function.update T i A) { t with k := k, proc := Function.update t.proc i c } =
      Function.update (views T t) i (some (view A.leaf k.mem c.sz)) := by
  funext j
  by_cases hji : j = i
  · subst hji
    rw [Function.update_self, views_live (by simpa using hp')]
    simp
  · rw [Function.update_of_ne hji]
    unfold views
    simp only [Function.update_of_ne hji]
    split_ifs with hj
    · rw [view_rest h hj hji hk]
    · rfl

lemma views_remove (h : Inv L t T) (hk : Keeps (rest T t i) t.k k) :
    views T { t with k := k, proc := Function.update t.proc i unusedProc } =
      Function.update (views T t) i none := by
  funext j
  by_cases hji : j = i
  · subst hji
    rw [Function.update_self]
    exact views_idle (by simp [Live, unusedProc])
  · rw [Function.update_of_ne hji]
    unfold views
    simp only [Function.update_of_ne hji]
    split_ifs with hj
    · rw [view_rest h hj hji hk]
    · rfl

lemma views_frame (h : Inv L t T)
    (hproc : ∀ i, (t'.proc i).pagetable = (t.proc i).pagetable ∧ (t'.proc i).sz = (t.proc i).sz)
    (hmem : ∀ i, Live (t.proc i) → ∀ x, leaves (T i).leaf (PGROUNDDOWN x) ≠ 0 →
      t'.k.mem x = t.k.mem x) : views T t' = views T t := by
  funext i
  by_cases hi : Live (t.proc i)
  · have hi' : Live (t'.proc i) := by unfold Live; rw [(hproc i).1]; exact hi
    rw [views_live hi, views_live hi', (hproc i).2]
    have hs := h.slot i hi
    congr 1
    refine view_congr fun va hva => hmem i hi _ ?_
    rw [rd_page hs.space hva, Space.leaves_user hs.space hva]
    omega
  · have hi' : ¬ Live (t'.proc i) := by unfold Live; rw [(hproc i).1]; exact hi
    rw [views_idle hi, views_idle hi']

end Xv6.View
