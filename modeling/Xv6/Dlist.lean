import Mathlib.Data.List.Induction
import Mathlib.Data.List.Nodup
import Mathlib.Data.List.Perm.Basic
import Mathlib.Logic.Function.Basic
import Mathlib.Tactic.Common

/-!
Circular doubly linked lists: nodes linked by `next` and `prev` around a head node. The order of
the nodes is a list; taking a node out and putting it in after the head do to the links what they
do to that list, and a walk along the links searches it.
-/

namespace Xv6.Dlist

variable {α : Type*}

/-! ### Walks -/

/-- Following `f` from `a` leads through the nodes of `l` to `z`. -/
def Path (f : α → α) : α → List α → α → Prop
  | a, [], z => f a = z
  | a, x :: l, z => f a = x ∧ Path f x l z

lemma path_append {f : α → α} {a b z : α} {l m : List α} :
    Path f a (l ++ b :: m) z ↔ Path f a l b ∧ Path f b m z := by
  induction l generalizing a with
  | nil => rfl
  | cons x l ih => simp only [List.cons_append, Path, ih, and_assoc]

lemma Path.congr {f g : α → α} {a z : α} {l : List α} (h : Path f a l z)
    (hfg : ∀ x ∈ a :: l, g x = f x) : Path g a l z := by
  induction l generalizing a with
  | nil => rw [Path, hfg a (by simp)]; exact h
  | cons x l ih =>
    refine ⟨?_, ih h.2 fun y hy => hfg y (List.mem_cons_of_mem a hy)⟩
    rw [hfg a (by simp)]
    exact h.1

lemma Path.redirect [DecidableEq α] {f : α → α} {a z : α} {l : List α} (h : Path f a l z)
    (hn : (a :: l).Nodup) (w : α) :
    Path (Function.update f ((a :: l).getLast (by simp)) w) a l w := by
  induction l generalizing a with
  | nil => simp [Path]
  | cons x l ih =>
    obtain ⟨ha, hn⟩ := List.nodup_cons.mp hn
    have hne : a ≠ (x :: l).getLast (by simp) := fun he =>
      ha (he ▸ List.getLast_mem (l := x :: l) (by simp))
    rw [List.getLast_cons (by simp)]
    refine ⟨?_, ih h.2 hn⟩
    rw [Function.update_of_ne hne]
    exact h.1

lemma Path.cut [DecidableEq α] {f : α → α} {a b z : α} {l m : List α}
    (h : Path f a (l ++ b :: m) z) (hn : (a :: (l ++ b :: m)).Nodup) :
    Path (Function.update f ((a :: l).getLast (by simp)) (f b)) a (l ++ m) z := by
  obtain ⟨hto, hon⟩ := path_append.mp h
  rw [← List.cons_append, List.nodup_append] at hn
  have hcut := hto.redirect hn.1 (f b)
  cases m with
  | nil =>
    rw [show f b = z from hon] at hcut ⊢
    rwa [List.append_nil]
  | cons x m =>
    rw [hon.1] at hcut ⊢
    refine path_append.mpr ⟨hcut, hon.2.congr fun y hy => Function.update_of_ne ?_ _ _⟩
    exact (hn.2.2 _ (List.getLast_mem _) y (List.mem_cons_of_mem b hy)).symm

lemma Path.from {f g : α → α} {a b z : α} {l : List α} (h : Path f a l z) (hb : g b = f a)
    (hfg : ∀ x ∈ l, g x = f x) : Path g b l z := by
  cases l with
  | nil => exact hb.trans h
  | cons x l => exact ⟨hb.trans h.1, h.2.congr hfg⟩

/-- The nodes of a list are linked one after the other, and the last to `z`. -/
def Along (f : α → α) : List α → α → Prop
  | [], _ => True
  | a :: l, z => Path f a l z

lemma along_append {f : α → α} {b z : α} {l m : List α} :
    Along f (l ++ b :: m) z ↔ Along f l b ∧ Along f (b :: m) z := by
  cases l with
  | nil => simp [Along]
  | cons a l => exact path_append

lemma Along.congr {f g : α → α} {z : α} {l : List α} (h : Along f l z)
    (hfg : ∀ x ∈ l, g x = f x) : Along g l z := by
  cases l with
  | nil => trivial
  | cons a l => exact Path.congr h hfg

lemma Along.rotate {f : α → α} {a b : α} {l m : List α} (h : Along f (a :: l ++ b :: m) a) :
    Path f b (m ++ a :: l) b := by
  obtain ⟨h1, h2⟩ := along_append.mp h
  exact path_append.mpr ⟨h2, h1⟩

/-! ### Links in both directions -/

structure Links (α : Type*) where
  next : α → α
  prev : α → α

/-- The nodes of `l`, in this order, are linked around `h`. -/
structure Cycle (k : Links α) (h : α) (l : List α) : Prop where
  nodup : (h :: l).Nodup
  next : Path k.next h l h
  prev : Path k.prev h l.reverse h

lemma cycle_nil {k : Links α} {h : α} (hn : k.next h = h) (hp : k.prev h = h) : Cycle k h [] :=
  ⟨List.nodup_singleton h, hn, hp⟩

lemma Cycle.next_eq {k : Links α} {h b : α} {l m : List α} (hc : Cycle k h (l ++ b :: m)) :
    k.next b = (h :: m.reverse).getLast (by simp) := by
  have hp := (path_append.mp hc.next).2
  cases m with
  | nil => exact hp
  | cons x m => simpa using hp.1

lemma reverse_around (l m : List α) (b : α) :
    (l ++ b :: m).reverse = m.reverse ++ b :: l.reverse := by
  simp

lemma Cycle.prev_eq {k : Links α} {h b : α} {l m : List α} (hc : Cycle k h (l ++ b :: m)) :
    k.prev b = (h :: l).getLast (by simp) := by
  have hp := hc.prev
  rw [reverse_around] at hp
  have hp := (path_append.mp hp).2
  induction l using List.reverseRecOn with
  | nil => exact hp
  | append_singleton l x _ =>
    rw [List.reverse_append] at hp
    simpa using hp.1

section Edit

variable [DecidableEq α]

/-- `b` is taken out: its neighbours are linked to each other. -/
def unlink (k : Links α) (b : α) : Links α :=
  let k := { k with prev := Function.update k.prev (k.next b) (k.prev b) }
  { k with next := Function.update k.next (k.prev b) (k.next b) }

/-- `b` is put in right after `h`. -/
def insertAfter (k : Links α) (h b : α) : Links α :=
  let k := { k with next := Function.update k.next b (k.next h) }
  let k := { k with prev := Function.update k.prev b h }
  let k := { k with prev := Function.update k.prev (k.next h) b }
  { k with next := Function.update k.next h b }

variable {k : Links α} {h b : α} {l m : List α}

lemma Cycle.unlink (hc : Cycle k h (l ++ b :: m)) : Cycle (unlink k b) h (l ++ m) := by
  have hnext := hc.next_eq
  have hprev := hc.prev_eq
  have hb : b ≠ k.next b := by
    rw [hnext]
    intro he
    have hm := List.getLast_mem (l := h :: m.reverse) (by simp)
    rw [← he] at hm
    have hn := hc.nodup
    simp only [List.nodup_cons, List.nodup_append, List.mem_append, List.mem_cons,
      List.mem_reverse] at hn hm
    rcases hm with rfl | hm
    · exact hn.1 (Or.inr (Or.inl rfl))
    · exact hn.2.2.1.1 hm
  have hnd : (h :: (l ++ m)).Nodup := by
    refine hc.nodup.sublist ?_
    simp
  refine ⟨hnd, ?_, ?_⟩
  · have hcut := hc.next.cut hc.nodup
    rw [← hprev] at hcut
    simpa [Dlist.unlink, Function.update_of_ne hb] using hcut
  · have hp := hc.prev
    rw [reverse_around] at hp
    have hrev : (h :: (m.reverse ++ b :: l.reverse)).Nodup := by
      rw [← reverse_around]
      refine List.nodup_cons.mpr ⟨?_, List.nodup_reverse.mpr (List.nodup_cons.mp hc.nodup).2⟩
      rw [List.mem_reverse]
      exact (List.nodup_cons.mp hc.nodup).1
    have hcut := hp.cut hrev
    rw [← hnext] at hcut
    simpa [Dlist.unlink] using hcut

lemma Cycle.insertAfter (hc : Cycle k h l) (hbh : b ≠ h) (hbl : b ∉ l) :
    Cycle (insertAfter k h b) h (b :: l) := by
  have hh := (List.nodup_cons.mp hc.nodup).1
  have hnd : (h :: b :: l).Nodup := by
    simp only [List.nodup_cons, List.mem_cons, not_or]
    exact ⟨⟨hbh.symm, hh⟩, hbl, (List.nodup_cons.mp hc.nodup).2⟩
  have hbn : k.next h ≠ b := by
    cases l with
    | nil => rw [show k.next h = h from hc.next]; exact hbh.symm
    | cons x l =>
      rw [hc.next.1]
      rintro rfl
      simp at hbl
  refine ⟨hnd, ⟨?_, ?_⟩, ?_⟩
  · simp [Dlist.insertAfter]
  · cases l with
    | nil => simpa [Path, Dlist.insertAfter, Function.update_of_ne hbh] using hc.next
    | cons x l =>
      refine ⟨?_, hc.next.2.congr fun y hy => ?_⟩
      · simp [Dlist.insertAfter, Function.update_of_ne hbh, hc.next.1]
      · have hyh : y ≠ h := by rintro rfl; exact hh hy
        have hyb : y ≠ b := by rintro rfl; exact hbl hy
        simp [Dlist.insertAfter, Function.update_of_ne hyh, Function.update_of_ne hyb]
  · rw [List.reverse_cons]
    refine path_append.mpr ⟨?_, ?_⟩
    · have hrev : (h :: l.reverse).Nodup :=
        List.nodup_cons.mpr ⟨by simpa using hh, List.nodup_reverse.mpr (List.nodup_cons.mp hc.nodup).2⟩
      have hlast : k.next h = (h :: l.reverse).getLast (by simp) := by
        cases l with
        | nil => exact hc.next
        | cons x l => simpa using hc.next.1
      have hto := hc.prev.redirect hrev b
      rw [← hlast] at hto
      refine hto.congr fun y hy => ?_
      have hyb : y ≠ b := by
        rintro rfl
        simp only [List.mem_cons, List.mem_reverse] at hy
        exact hy.elim hbh hbl
      simp only [Dlist.insertAfter, Function.update_of_ne hbh.symm]
      by_cases hyn : y = k.next h
      · rw [hyn, Function.update_self, Function.update_self]
      · rw [Function.update_of_ne hyn, Function.update_of_ne hyn, Function.update_of_ne hyb]
    · simp [Path, Dlist.insertAfter, Function.update_of_ne hbh.symm, Function.update_of_ne hbn.symm]

end Edit

/-! ### Searching -/

section Seek

variable [DecidableEq α]

/-- Follow `f` from `a` up to `h` for the first node with `p`. -/
def seek (f : α → α) (h : α) (p : α → Bool) : ℕ → α → Option α
  | 0, _ => none
  | n + 1, a => if a = h then none else if p a then some a else seek f h p n (f a)

lemma seek_some {f : α → α} {h : α} {p : α → Bool} {n : ℕ} {a x : α}
    (hs : seek f h p n a = some x) : p x = true := by
  induction n generalizing a with
  | zero => simp [seek] at hs
  | succ n ih =>
    rw [seek] at hs
    split_ifs at hs with h1 h2
    · cases hs
      exact h2
    · exact ih hs

lemma seek_eq_find {f : α → α} {h : α} (p : α → Bool) {l : List α} {a : α}
    (hp : Path f a l h) (hh : h ∉ l) : seek f h p (l.length + 1) (f a) = l.find? p := by
  induction l generalizing a with
  | nil => rw [show f a = h from hp]; simp [seek]
  | cons x l ih =>
    have hx : x ≠ h := by rintro rfl; simp at hh
    rw [hp.1, List.length_cons, seek, if_neg hx, List.find?_cons]
    cases hpx : p x with
    | true => simp
    | false => simpa using ih hp.2 fun hm => hh (List.mem_cons_of_mem x hm)

end Seek

end Xv6.Dlist
