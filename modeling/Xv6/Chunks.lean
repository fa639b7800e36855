import Mathlib.Data.List.Basic

/-!
Loops that read data in pieces until a read returns nothing. A read returns any number of items,
at least one unless there is no room or nothing is left.
-/

namespace Xv6.Chunks

variable {σ α : Type*} (room : σ → ℕ) (body : σ → List α → σ)

/-- The number of items that a read returns; it differs with what is left in any way. -/
def got (choose : ℕ → ℕ) (want : ℕ) (d : List α) : ℕ :=
  min (choose d.length + 1) (min want d.length)

def loop (choose : ℕ → ℕ) (s : σ) (d : List α) : σ :=
  if room s = 0 ∨ d = [] then s
  else
    let n := got choose (room s) d
    loop choose (body s (d.take n)) (d.drop n)
termination_by d.length
decreasing_by
  rename_i h
  rw [not_or] at h
  have := List.length_pos_iff.mpr h.2
  simp only [List.length_drop, got]
  omega

variable {room body}

lemma loop_rule {I : σ → List α → Prop} (choose : ℕ → ℕ)
    (hstep : ∀ s c d, I s (c ++ d) → c ≠ [] → c.length ≤ room s → I (body s c) d) (s : σ)
    (d : List α) (h : I s d) :
    ∃ d', I (loop room body choose s d) d' ∧
      (room (loop room body choose s d) = 0 ∨ d' = []) := by
  induction s, d using loop.induct room body choose with
  | case1 s d hend =>
    rw [loop, if_pos hend]
    exact ⟨d, h, hend⟩
  | case2 s d hend n ih =>
    rw [loop, if_neg hend]
    rw [not_or] at hend
    have hd := List.length_pos_iff.mpr hend.2
    have hn : 0 < n ∧ n ≤ room s := by
      simp only [n, got]
      omega
    refine ih (hstep s _ _ ?_ ?_ ?_)
    · rwa [List.take_append_drop]
    · rw [← List.length_pos_iff, List.length_take]
      omega
    · rw [List.length_take]
      omega

end Xv6.Chunks
