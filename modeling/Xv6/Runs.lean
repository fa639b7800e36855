import Mathlib.Data.List.Basic

/-!
Runs of a deterministic system under a condition on its steps.
-/

namespace Xv6.Runs

variable {σ ε : Type*} (step : σ → ε → σ)

def run (s : σ) (es : List ε) : σ := es.foldl step s

/-- Every step of the run satisfies the condition in the state it is taken in. -/
def Along (P : σ → ε → Prop) : σ → List ε → Prop
  | _, [] => True
  | s, e :: es => P s e ∧ Along P (step s e) es

variable {step} {P Q : σ → ε → Prop} {I : σ → Prop}

instance Along.decidable [∀ s e, Decidable (P s e)] :
    ∀ (s : σ) (es : List ε), Decidable (Along step P s es)
  | _, [] => isTrue trivial
  | s, e :: es => @instDecidableAnd _ _ _ (Along.decidable (step s e) es)

variable (step) in
lemma run_append (s : σ) (es fs : List ε) :
    run step s (es ++ fs) = run step (run step s es) fs := List.foldl_append

lemma along_append {es fs : List ε} : ∀ {s : σ},
    Along step P s (es ++ fs) ↔ Along step P s es ∧ Along step P (run step s es) fs := by
  induction es with
  | nil =>
    intro s
    exact (and_iff_right trivial).symm
  | cons e es ih =>
    intro s
    rw [List.cons_append, Along, Along, ih, and_assoc]
    rfl

lemma Along.inv (hstep : ∀ s e, I s → P s e → I (step s e)) (es : List ε) :
    ∀ {s : σ}, I s → Along step P s es → I (run step s es) := by
  induction es with
  | nil => intro s h _; exact h
  | cons e es ih => intro s h hes; exact ih (hstep s e h hes.1) hes.2

/-- What every step under the condition does where the invariant holds, every step of the run
does. -/
lemma Along.imp (hstep : ∀ s e, I s → P s e → I (step s e)) (hPQ : ∀ s e, I s → P s e → Q s e)
    (es : List ε) : ∀ {s : σ}, I s → Along step P s es → Along step Q s es := by
  induction es with
  | nil => intro s _ _; trivial
  | cons e es ih =>
    intro s h hes
    exact ⟨hPQ s e h hes.1, ih (hstep s e h hes.1) hes.2⟩

end Xv6.Runs
