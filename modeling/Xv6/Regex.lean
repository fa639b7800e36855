import Mathlib.Computability.Language

/-!
Search patterns: a sequence of symbols and repeated symbols, which can have to start or to end
where the text does. The languages are described by how a text begins, as a backtracking matcher
looks at it.
-/

namespace Xv6.Regex

open Computability

/-- A symbol of a pattern stands for every letter or for one. -/
inductive Sym (α : Type*)
  | any
  | chr (a : α)

inductive Item (α : Type*)
  | one (s : Sym α)
  | star (s : Sym α)

structure Pattern (α : Type*) where
  atStart : Bool
  items : List (Item α)
  atEnd : Bool

variable {α : Type*}

def Sym.Fits : Sym α → α → Prop
  | .any, _ => True
  | .chr b, a => b = a

def Sym.lang (s : Sym α) : Language α := {w | ∃ a, s.Fits a ∧ w = [a]}

def Item.lang : Item α → Language α
  | .one s => s.lang
  | .star s => s.lang∗

/-- What can be between a match and an end of the text. -/
def margin (anchored : Bool) : Language α := if anchored then 1 else ⊤

/-- The texts that begin with a match. -/
def here (is : List (Item α)) (e : Bool) : Language α := (is.map Item.lang).prod * margin e

/-- The texts with a match. -/
def Pattern.lang (p : Pattern α) : Language α := margin p.atStart * here p.items p.atEnd

variable {s : Sym α} {is : List (Item α)} {e : Bool} {L : Language α} {a : α} {w : List α}

lemma mem_here_nil : w ∈ here [] e ↔ e = true → w = [] := by
  rw [here, List.map_nil, List.prod_nil, one_mul, margin]
  cases e
  · exact iff_of_true trivial fun h => absurd h Bool.false_ne_true
  · rw [if_pos rfl, Language.mem_one]
    exact ⟨fun h _ => h, fun h => h rfl⟩

lemma here_one : here (.one s :: is) e = s.lang * here is e := by
  rw [here, List.map_cons, List.prod_cons, mul_assoc]
  rfl

lemma here_star : here (.star s :: is) e = here is e + s.lang * here (.star s :: is) e := by
  have h : here (.star s :: is) e = s.lang∗ * here is e := by
    rw [here, List.map_cons, List.prod_cons, mul_assoc]
    rfl
  calc here (.star s :: is) e = (1 + s.lang * s.lang∗) * here is e := by
        rw [h, Language.one_add_self_mul_kstar_eq_kstar]
    _ = here is e + s.lang * here (.star s :: is) e := by rw [add_mul, one_mul, h, mul_assoc]

lemma nil_notMem_sym : [] ∉ s.lang * L := by
  intro h
  obtain ⟨u, ⟨a, -, rfl⟩, v, -, h⟩ := Language.mem_mul.mp h
  simp at h

lemma cons_mem_sym : a :: w ∈ s.lang * L ↔ s.Fits a ∧ w ∈ L := by
  constructor
  · intro h
    obtain ⟨u, ⟨b, hb, rfl⟩, v, hv, h⟩ := Language.mem_mul.mp h
    obtain ⟨rfl, rfl⟩ : b = a ∧ v = w := by simpa using h
    exact ⟨hb, hv⟩
  · rintro ⟨h, hw⟩
    exact Language.mem_mul.mpr ⟨[a], ⟨a, h, rfl⟩, w, hw, rfl⟩

lemma nil_mem_star : [] ∈ here (.star s :: is) e ↔ [] ∈ here is e := by
  rw [here_star, Language.mem_add]
  exact or_iff_left nil_notMem_sym

lemma cons_mem_star : a :: w ∈ here (.star s :: is) e ↔
    a :: w ∈ here is e ∨ s.Fits a ∧ w ∈ here (.star s :: is) e := by
  nth_rewrite 1 [here_star]
  rw [Language.mem_add, cons_mem_sym]

lemma nil_mem_top_mul : [] ∈ (⊤ : Language α) * L ↔ [] ∈ L := by
  constructor
  · intro h
    obtain ⟨u, -, v, hv, h⟩ := Language.mem_mul.mp h
    obtain ⟨-, rfl⟩ := List.append_eq_nil_iff.mp h
    exact hv
  · exact fun h => Language.mem_mul.mpr ⟨[], trivial, [], h, rfl⟩

lemma cons_mem_top_mul : a :: w ∈ (⊤ : Language α) * L ↔ a :: w ∈ L ∨ w ∈ (⊤ : Language α) * L := by
  constructor
  · intro h
    obtain ⟨u, -, v, hv, h⟩ := Language.mem_mul.mp h
    rcases u with _ | ⟨b, u⟩
    · exact Or.inl (h ▸ hv)
    · obtain ⟨-, h⟩ := List.cons.inj h
      exact Or.inr (Language.mem_mul.mpr ⟨u, trivial, v, hv, h⟩)
  · rintro (h | h)
    · exact Language.mem_mul.mpr ⟨[], trivial, _, h, rfl⟩
    · obtain ⟨u, -, v, hv, h⟩ := Language.mem_mul.mp h
      exact Language.mem_mul.mpr ⟨a :: u, trivial, v, hv, congrArg (a :: ·) h⟩

end Xv6.Regex
