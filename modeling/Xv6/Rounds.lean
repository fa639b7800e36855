import Xv6.Ring

/-!
Invariants of a ring that count its turns.

The clock of the ring starts at `0` and the last thread of a round advances it, so the number of
turns taken so far says whose turn it is, at which time, and which threads have had their turn at
which time. An invariant may therefore speak of the turns already taken; a condition on the turns
of a run, stated of the shared state each of them finds, may be assumed along the run.
-/

namespace Xv6.Rounds

open Xv6.Ring

variable {Θ S Λ : Type}

/-- After the turns `tr` it is the turn of `t`, in the shared state `s`; it has had none at this
time yet. -/
structure Due (pos : Θ → ℕ) (n : ℕ) (clock : S → ℤ) (tr : List (Θ × S)) (s : S) (t : Θ) :
    Prop where
  place : pos t = tr.length % n
  time : clock s = (tr.length / n : ℕ)
  fresh : ∀ e ∈ tr, e.1 = t → clock e.2 < clock s

/-- Among the first `k` turns is the one of `u` at time `c`. -/
def Turned (pos : Θ → ℕ) (n k : ℕ) (u : Θ) (c : ℤ) : Prop := 0 ≤ c ∧ c * n + pos u < k

instance (pos : Θ → ℕ) (n k : ℕ) (u : Θ) (c : ℤ) : Decidable (Turned pos n k u c) :=
  inferInstanceAs (Decidable (0 ≤ c ∧ c * n + pos u < k))

variable {P : Prog Θ S Λ} {pos : Θ → ℕ} {n : ℕ} {clock : S → ℤ} {tr : List (Θ × S)} {s : S}
  {t u : Θ} {c : ℤ}

lemma not_turned_zero : ¬ Turned pos n 0 u c := by
  rintro ⟨h0, h1⟩
  have : 0 ≤ c * (n : ℤ) := Int.mul_nonneg h0 (Int.natCast_nonneg n)
  omega

lemma Turned.succ {k : ℕ} (h : Turned pos n k u c) : Turned pos n (k + 1) u c :=
  ⟨h.1, h.2.trans (by omega)⟩

lemma Due.moment (h : Due pos n clock tr s t) : clock s * n + pos t = tr.length := by
  have h1 := Nat.div_add_mod tr.length n
  rw [h.time, h.place, Int.mul_comm]
  exact_mod_cast h1

lemma Due.nonneg (h : Due pos n clock tr s t) : 0 ≤ clock s := by
  rw [h.time]; exact Int.natCast_nonneg _

lemma moment_lt {a b : ℤ} {p q : ℕ} (hp : p < n) (hq : q < n) :
    a * n + p < b * n + q ↔ a < b ∨ (a = b ∧ p < q) := by
  have hn : (0 : ℤ) < n := by omega
  rcases lt_trichotomy a b with h | rfl | h
  · have h1 : (a + 1) * n ≤ b * n := Int.mul_le_mul_of_nonneg_right (by omega) hn.le
    have h2 : (a + 1) * n = a * n + n := by ring
    constructor
    · exact fun _ => Or.inl h
    · intro _; omega
  · omega
  · have h1 : (b + 1) * n ≤ a * n := Int.mul_le_mul_of_nonneg_right (by omega) hn.le
    have h2 : (b + 1) * n = b * n + n := by ring
    constructor
    · intro _; omega
    · rintro (h3 | ⟨rfl, -⟩)
      · omega
      · omega

/-- The turn of `u` at time `c` comes before that of `v` at time `d`. -/
def Before (pos : Θ → ℕ) (n : ℕ) (u : Θ) (c : ℤ) (v : Θ) (d : ℤ) : Prop :=
  0 ≤ c ∧ c * n + pos u < d * n + pos v

lemma Due.before_iff (h : Due pos n clock tr s t) :
    Before pos n u c t (clock s) ↔ Turned pos n tr.length u c := by
  rw [Before, Turned, h.moment]

variable (hN : Numbered P pos n)
include hN

lemma before_iff {v : Θ} {d : ℤ} :
    Before pos n u c v d ↔ 0 ≤ c ∧ (c < d ∨ (c = d ∧ pos u < pos v)) := by
  rw [Before, moment_lt (hN.lt u) (hN.lt v)]

/-- Before the turn of `t` a thread has had its turns of earlier times, and that of this time if
it is before `t` in the round. -/
lemma Due.turned_iff (h : Due pos n clock tr s t) :
    Turned pos n tr.length u c ↔ 0 ≤ c ∧ (c < clock s ∨ (c = clock s ∧ pos u < pos t)) := by
  rw [Turned, ← h.moment, moment_lt (hN.lt u) (hN.lt t)]

lemma Due.turned_succ (h : Due pos n clock tr s t) (e : Θ × S) :
    Turned pos n (tr ++ [e]).length u c ↔
      Turned pos n tr.length u c ∨ (u = t ∧ c = clock s) := by
  have hlen : (tr ++ [e]).length = tr.length + 1 := by simp
  rw [hlen]
  constructor
  · rintro ⟨h0, h1⟩
    by_cases h2 : c * n + pos u < tr.length
    · exact Or.inl ⟨h0, h2⟩
    right
    have h3 : ¬ c * n + pos u < clock s * n + pos t := by rw [h.moment]; exact h2
    have h4 : ¬ clock s * n + pos t < c * n + pos u := by rw [h.moment]; omega
    rw [moment_lt (hN.lt u) (hN.lt t)] at h3
    rw [moment_lt (hN.lt t) (hN.lt u)] at h4
    have h5 : c = clock s := by omega
    exact ⟨hN.inj (by omega), h5⟩
  · rintro (h1 | ⟨rfl, rfl⟩)
    · exact h1.succ
    · exact ⟨h.nonneg, by rw [h.moment]; omega⟩

lemma Due.turned_other (h : Due pos n clock tr s t) (e : Θ × S) (hu : u ≠ t) :
    Turned pos n (tr ++ [e]).length u c ↔ Turned pos n tr.length u c := by
  rw [h.turned_succ hN]
  exact or_iff_left fun hc => hu hc.1

lemma Due.turned_self (h : Due pos n clock tr s t) :
    Turned pos n tr.length t c ↔ 0 ≤ c ∧ c < clock s := by
  rw [h.turned_iff hN]
  constructor
  · rintro ⟨h0, h1 | ⟨-, h1⟩⟩
    · exact ⟨h0, h1⟩
    · exact absurd h1 (lt_irrefl _)
  · exact fun ⟨h0, h1⟩ => ⟨h0, Or.inl h1⟩

lemma turned_past {k : ℕ} (hnow : clock s = (k / n : ℕ)) (h0 : 0 ≤ c) (h1 : c < clock s) :
    Turned pos n k u c := by
  refine ⟨h0, ?_⟩
  have h2 : (k / n : ℕ) * (n : ℤ) ≤ k := by exact_mod_cast Nat.div_mul_le_self k n
  have h3 : (c + 1) * (n : ℤ) ≤ (k / n : ℕ) * (n : ℤ) :=
    Int.mul_le_mul_of_nonneg_right (by omega) (Int.natCast_nonneg n)
  have h4 : (c + 1) * (n : ℤ) = c * n + n := by ring
  have h5 := hN.lt u
  omega

omit hN

/-! ### Runs -/

variable [DecidableEq Θ] {σ : State Θ S Λ} {C : Θ → S → Prop} {R : List (Θ × S) → S → Prop}

/-- A body that the step runs finds the shared state as `C` asks. -/
def AtBody (C : Θ → S → Prop) (σ : State Θ S Λ) : Option Θ → Prop
  | none => True
  | some t => σ.pc t = .body → C t σ.shared

instance [DecidableEq Λ] [∀ t s, Decidable (C t s)] (σ : State Θ S Λ) (a : Option Θ) :
    Decidable (AtBody C σ a) :=
  match a with
  | none => isTrue trivial
  | some t => inferInstanceAs (Decidable (σ.pc t = .body → C t σ.shared))

/-- A turn that is due and finds what `C` asks keeps `R`. -/
def Keeps (P : Prog Θ S Λ) (pos : Θ → ℕ) (n : ℕ) (clock : S → ℤ) (C : Θ → S → Prop)
    (R : List (Θ × S) → S → Prop) : Prop :=
  ∀ tr s t, Due pos n clock tr s t → C t s → R tr s → R (tr ++ [(t, s)]) (P.body t s)

lemma due_of_body (hi : Inv pos n σ) (hc : Clocked n clock 0 σ) (ht : σ.pc t = .body) :
    Due pos n clock σ.trace σ.shared t := by
  obtain ⟨-, -, -, h4⟩ := hi.token.of_inside ht not_outside_body
  simp only [reduceCtorEq, false_and, true_and, false_or, or_false] at h4
  exact ⟨h4.1, by rw [hc.now, Int.zero_add], hc.fresh hi ht⟩

lemma Kept.turn (hN : Numbered P pos n) (hT : Ticks P pos n clock) (hR : Keeps P pos n clock C R)
    (h : Kept pos n clock 0 R σ) {a : Option Θ} (ha : AtBody C σ a) :
    Kept pos n clock 0 R (step P σ a) := by
  refine ⟨h.inv.step hN a, h.clocked.step hN hT h.inv a, ?_⟩
  obtain ⟨h1, h2⟩ | ⟨t, rfl, hp, h1, h2⟩ := step_cases P σ a
  · rw [h1, h2]; exact h.holds
  · rw [h1, h2]
    exact hR _ _ _ (due_of_body h.inv h.clocked hp) (ha hp) h.holds

lemma Kept.turns (hN : Numbered P pos n) (hT : Ticks P pos n clock)
    (hR : Keeps P pos n clock C R) (h : Kept pos n clock 0 R σ) {sched : List (Option Θ)}
    (ha : Along P (AtBody C) σ sched) : Kept pos n clock 0 R (run P σ sched) := by
  induction sched generalizing σ with
  | nil => exact h
  | cons a sched ih => exact ih (Kept.turn hN hT hR h ha.1) ha.2

lemma along_always {D : State Θ S Λ → Option Θ → Prop} (h : ∀ σ a, D σ a) (σ : State Θ S Λ)
    (sched : List (Option Θ)) : Along P D σ sched := by
  induction sched generalizing σ with
  | nil => trivial
  | cons a sched ih => exact ⟨h σ a, ih _⟩

lemma holds_along (hN : Numbered P pos n) (hT : Ticks P pos n clock)
    (hR : Keeps P pos n clock C R) (h0 : clock s = 0) (hs : R [] s) {sched : List (Option Θ)}
    (ha : Along P (AtBody C) (init P s) sched) :
    Kept pos n clock 0 R (run P (init P s) sched) := by
  have h : Kept pos n clock 0 R (init P s) := by
    rw [← h0]; exact kept_init hs
  exact Kept.turns hN hT hR h ha

lemma holds (hN : Numbered P pos n) (hT : Ticks P pos n clock)
    (hR : Keeps P pos n clock (fun _ _ => True) R) (h0 : clock s = 0) (hs : R [] s)
    (sched : List (Option Θ)) : Kept pos n clock 0 R (run P (init P s) sched) := by
  refine holds_along hN hT hR h0 hs (along_always (fun σ a => ?_) _ _)
  cases a with
  | none => trivial
  | some t => exact fun _ => trivial

lemma Along.take {D : State Θ S Λ → Option Θ → Prop} {σ : State Θ S Λ} {l l' : List (Option Θ)}
    (h : Along P D σ (l ++ l')) : Along P D σ l := by
  induction l generalizing σ with
  | nil => trivial
  | cons a l ih => exact ⟨h.1, ih h.2⟩

/-- A property that holds as long as every turn finds what `C` asks, and fails after the first
turn that does not, holds along a run iff every turn of the run finds what `C` asks. -/
lemma holds_iff_along {D : S → Prop} (hN : Numbered P pos n) (hT : Ticks P pos n clock)
    (hR : Keeps P pos n clock C R) (h0 : clock s = 0) (hs : R [] s) (hD : ∀ tr s, R tr s → D s)
    (hC : ∀ tr s t, Due pos n clock tr s t → R tr s → D (P.body t s) → C t s)
    (sched : List (Option Θ)) :
    (∀ l, l <+: sched → D (run P (init P s) l).shared) ↔
      Along P (AtBody C) (init P s) sched := by
  have h : Kept pos n clock 0 R (init P s) := by
    rw [← h0]; exact kept_init hs
  constructor
  · generalize init P s = σ at h ⊢
    intro hall
    induction sched generalizing σ with
    | nil => trivial
    | cons a sched ih =>
      have ha : AtBody C σ a := by
        cases a with
        | none => trivial
        | some t =>
          intro ht
          have h1 := hall [some t] ⟨sched, rfl⟩
          rw [run_cons, run_nil] at h1
          simp only [Ring.step, ht] at h1
          exact hC σ.trace σ.shared t (due_of_body h.inv h.clocked ht) h.holds h1
      refine ⟨ha, ih _ (Kept.turn hN hT hR h ha) fun l hl => ?_⟩
      exact hall (a :: l) (by simpa using hl)
  · rintro ha l ⟨l', rfl⟩
    exact hD _ _ (Kept.turns hN hT hR h (Along.take ha)).holds

end Xv6.Rounds
