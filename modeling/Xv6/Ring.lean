import Mathlib

/-!
Threads that take turns by passing one token around a ring of semaphores.

Every thread loops: it tests whether to leave, waits on the semaphore of the thread before it,
runs its body inside a common lock and posts its own semaphore. A starter thread posts one
semaphore once. The module says what the threads can do under every schedule, whatever the
bodies compute: there is one token, the bodies run in the order of the ring, and threads can
only be stranded by a thread that leaves in front of one that already waits for it.
-/

namespace Xv6.Ring

/-- Where a thread stands in its loop; the test may read the shared state several times and
keeps in `l` what it has seen. -/
inductive Pc (Λ : Type) where
  | test (l : Λ)
  | wait
  | lock
  | body
  | unlock
  | post
  | gone
deriving DecidableEq

/-- What the threads run. `prev t` owns the semaphore `t` waits on, `first` owns the one the
starter posts. -/
structure Prog (Θ S Λ : Type) where
  prev : Θ → Θ
  first : Θ
  start : Λ
  probe : Λ → S → Λ ⊕ Bool
  body : Θ → S → S

/-- The state of a run, with the bodies run so far and the shared state each of them found. -/
structure State (Θ S Λ : Type) where
  sem : Θ → ℕ
  mutex : ℕ
  pc : Θ → Pc Λ
  shared : S
  begun : Bool
  trace : List (Θ × S)

variable {Θ S Λ : Type}

def init (P : Prog Θ S Λ) (s : S) : State Θ S Λ where
  sem := fun _ => 0
  mutex := 1
  pc := fun _ => .test P.start
  shared := s
  begun := false
  trace := []

variable [DecidableEq Θ]

def State.goto (σ : State Θ S Λ) (t : Θ) (c : Pc Λ) : State Θ S Λ :=
  { σ with pc := Function.update σ.pc t c }

def State.setSem (σ : State Θ S Λ) (t : Θ) (k : ℕ) : State Θ S Λ :=
  { σ with sem := Function.update σ.sem t k }

/-- One step of the starter (`none`) or of a thread; a blocked thread stays where it is. -/
def step (P : Prog Θ S Λ) (σ : State Θ S Λ) : Option Θ → State Θ S Λ
  | none =>
    if σ.begun then σ else { σ.setSem P.first (σ.sem P.first + 1) with begun := true }
  | some t =>
    match σ.pc t with
    | .test l =>
      match P.probe l σ.shared with
      | .inl l' => σ.goto t (.test l')
      | .inr true => σ.goto t .gone
      | .inr false => σ.goto t .wait
    | .wait =>
      if 0 < σ.sem (P.prev t) then
        (σ.setSem (P.prev t) (σ.sem (P.prev t) - 1)).goto t .lock
      else σ
    | .lock => if 0 < σ.mutex then { σ.goto t .body with mutex := σ.mutex - 1 } else σ
    | .body =>
      { σ.goto t .unlock with
        shared := P.body t σ.shared
        trace := σ.trace ++ [(t, σ.shared)] }
    | .unlock => { σ.goto t .post with mutex := σ.mutex + 1 }
    | .post => (σ.setSem t (σ.sem t + 1)).goto t (.test P.start)
    | .gone => σ

/-- A run is given by the schedule: who moves next. -/
def run (P : Prog Θ S Λ) (σ : State Θ S Λ) (sched : List (Option Θ)) : State Θ S Λ :=
  sched.foldl (step P) σ

@[simp] lemma run_nil (P : Prog Θ S Λ) (σ : State Θ S Λ) : run P σ [] = σ := rfl

@[simp] lemma run_cons (P : Prog Θ S Λ) (σ : State Θ S Λ) (a : Option Θ)
    (sched : List (Option Θ)) : run P σ (a :: sched) = run P (step P σ a) sched := rfl

/-- The thread can move: it is neither gone nor blocked on a semaphore. -/
def Enabled (P : Prog Θ S Λ) (σ : State Θ S Λ) (t : Θ) : Prop :=
  match σ.pc t with
  | .wait => 0 < σ.sem (P.prev t)
  | .lock => 0 < σ.mutex
  | .gone => False
  | _ => True

instance (P : Prog Θ S Λ) (σ : State Θ S Λ) (t : Θ) : Decidable (Enabled P σ t) := by
  unfold Enabled; split <;> infer_instance

/-- The thread has the token: it is past its `wait` and has not posted yet. -/
def Pc.inside : Pc Λ → Bool
  | .lock | .body | .unlock | .post => true
  | _ => false

/-- The thread is at its test, waits or is gone. -/
def Pc.Outside (c : Pc Λ) : Prop := c.inside = false

@[simp] lemma outside_test (l : Λ) : (Pc.test l).Outside := rfl
@[simp] lemma outside_wait : (Pc.wait : Pc Λ).Outside := rfl
@[simp] lemma outside_gone : (Pc.gone : Pc Λ).Outside := rfl
@[simp] lemma not_outside_lock : ¬ (Pc.lock : Pc Λ).Outside := by simp [Pc.Outside, Pc.inside]
@[simp] lemma not_outside_body : ¬ (Pc.body : Pc Λ).Outside := by simp [Pc.Outside, Pc.inside]
@[simp] lemma not_outside_unlock : ¬ (Pc.unlock : Pc Λ).Outside := by
  simp [Pc.Outside, Pc.inside]
@[simp] lemma not_outside_post : ¬ (Pc.post : Pc Λ).Outside := by simp [Pc.Outside, Pc.inside]

/-! ### One token -/

/-- The threads of the ring are numbered: `prev` steps back by one around `n`, and the starter
posts the semaphore of the last one. -/
structure Numbered (P : Prog Θ S Λ) (pos : Θ → ℕ) (n : ℕ) : Prop where
  lt : ∀ t, pos t < n
  inj : Function.Injective pos
  prev : ∀ t, (pos (P.prev t) + 1) % n = pos t
  first : pos P.first + 1 = n

/-- Where the token is after `c` bodies have run. -/
inductive Token (pos : Θ → ℕ) (n c : ℕ) (σ : State Θ S Λ) : Prop where
  | unborn (hb : σ.begun = false) (hc : c = 0) (hs : ∀ u, σ.sem u = 0)
      (ho : ∀ u, (σ.pc u).Outside) (hm : σ.mutex = 1)
  | free (t : Θ) (hb : σ.begun = true) (ht : (pos t + 1) % n = c % n) (h1 : σ.sem t = 1)
      (hs : ∀ u, u ≠ t → σ.sem u = 0) (ho : ∀ u, (σ.pc u).Outside) (hm : σ.mutex = 1)
  | entering (t : Θ) (hb : σ.begun = true) (ht : pos t = c % n) (hp : σ.pc t = .lock)
      (hs : ∀ u, σ.sem u = 0) (ho : ∀ u, u ≠ t → (σ.pc u).Outside) (hm : σ.mutex = 1)
  | running (t : Θ) (hb : σ.begun = true) (ht : pos t = c % n) (hp : σ.pc t = .body)
      (hs : ∀ u, σ.sem u = 0) (ho : ∀ u, u ≠ t → (σ.pc u).Outside) (hm : σ.mutex = 0)
  | leaving (t : Θ) (hb : σ.begun = true) (ht : (pos t + 1) % n = c % n) (hp : σ.pc t = .unlock)
      (hs : ∀ u, σ.sem u = 0) (ho : ∀ u, u ≠ t → (σ.pc u).Outside) (hm : σ.mutex = 0)
  | posting (t : Θ) (hb : σ.begun = true) (ht : (pos t + 1) % n = c % n) (hp : σ.pc t = .post)
      (hs : ∀ u, σ.sem u = 0) (ho : ∀ u, u ≠ t → (σ.pc u).Outside) (hm : σ.mutex = 1)

/-- The bodies have run in the order of the ring, and there is one token. -/
structure Inv (pos : Θ → ℕ) (n : ℕ) (σ : State Θ S Λ) : Prop where
  order : ∀ k (hk : k < σ.trace.length), pos (σ.trace[k]).1 = k % n
  token : Token pos n σ.trace.length σ

variable {P : Prog Θ S Λ} {pos : Θ → ℕ} {n : ℕ} {σ : State Θ S Λ} {t u : Θ}

lemma Token.outside {c : ℕ} {p : Pc Λ} (h : Token pos n c σ) (ht : (σ.pc t).Outside)
    (hp : p.Outside) : Token pos n c (σ.goto t p) := by
  have hout : ∀ {q : Θ → Prop}, (∀ u, q u → (σ.pc u).Outside) →
      ∀ u, q u → (Function.update σ.pc t p u).Outside := by
    intro q ho u hq
    by_cases hu : u = t
    · subst hu; simpa using hp
    · rw [Function.update_of_ne hu]; exact ho u hq
  have hne : ∀ {v : Θ}, ¬ (σ.pc v).Outside → Function.update σ.pc t p v = σ.pc v := by
    intro v hv
    exact Function.update_of_ne (by rintro rfl; exact hv ht) _ _
  cases h with
  | unborn hb hc hs ho hm =>
    exact .unborn hb hc hs (fun u => hout (q := fun _ => True) (fun u _ => ho u) u trivial) hm
  | free v hb hv h1 hs ho hm =>
    exact .free v hb hv h1 hs (fun u => hout (q := fun _ => True) (fun u _ => ho u) u trivial) hm
  | entering v hb hv hp hs ho hm =>
    exact .entering v hb hv ((hne (by simp [hp])).trans hp) hs (hout ho) hm
  | running v hb hv hp hs ho hm =>
    exact .running v hb hv ((hne (by simp [hp])).trans hp) hs (hout ho) hm
  | leaving v hb hv hp hs ho hm =>
    exact .leaving v hb hv ((hne (by simp [hp])).trans hp) hs (hout ho) hm
  | posting v hb hv hp hs ho hm =>
    exact .posting v hb hv ((hne (by simp [hp])).trans hp) hs (hout ho) hm

lemma outside_goto {p : Pc Λ} (ho : ∀ u, u ≠ t → (σ.pc u).Outside) (u : Θ) (hu : u ≠ t) :
    ((σ.goto t p).pc u).Outside := by
  simpa [State.goto, Function.update_of_ne hu] using ho u hu

lemma Token.of_inside {c : ℕ} {p : Pc Λ} (h : Token pos n c σ) (ht : σ.pc t = p)
    (hp : ¬ p.Outside) :
    σ.begun = true ∧ (∀ u, σ.sem u = 0) ∧ (∀ u, u ≠ t → (σ.pc u).Outside) ∧
      ((p = .lock ∧ pos t = c % n ∧ σ.mutex = 1) ∨ (p = .body ∧ pos t = c % n ∧ σ.mutex = 0) ∨
        (p = .unlock ∧ (pos t + 1) % n = c % n ∧ σ.mutex = 0) ∨
        (p = .post ∧ (pos t + 1) % n = c % n ∧ σ.mutex = 1)) := by
  have hsame : ∀ {v : Θ}, (∀ u, u ≠ v → (σ.pc u).Outside) → t = v := by
    intro v ho
    by_contra hne
    exact hp (ht ▸ ho t hne)
  subst ht
  cases h with
  | unborn hb hc hs ho hm => exact absurd (ho t) hp
  | free v hb hv h1 hs ho hm => exact absurd (ho t) hp
  | entering v hb hv hq hs ho hm =>
    obtain rfl := hsame ho
    exact ⟨hb, hs, ho, Or.inl ⟨hq, hv, hm⟩⟩
  | running v hb hv hq hs ho hm =>
    obtain rfl := hsame ho
    exact ⟨hb, hs, ho, Or.inr (Or.inl ⟨hq, hv, hm⟩)⟩
  | leaving v hb hv hq hs ho hm =>
    obtain rfl := hsame ho
    exact ⟨hb, hs, ho, Or.inr (Or.inr (Or.inl ⟨hq, hv, hm⟩))⟩
  | posting v hb hv hq hs ho hm =>
    obtain rfl := hsame ho
    exact ⟨hb, hs, ho, Or.inr (Or.inr (Or.inr ⟨hq, hv, hm⟩))⟩

omit [DecidableEq Θ] in
lemma inv_init (s : S) : Inv pos n (init P s) :=
  ⟨fun k hk => by simp [init] at hk,
    .unborn rfl rfl (fun _ => rfl) (fun _ => outside_test _) rfl⟩

omit [DecidableEq Θ] in
lemma Numbered.prev_mod (hN : Numbered P pos n) {c : ℕ} (h : (pos u + 1) % n = c % n)
    (hu : u = P.prev t) : pos t = c % n := by
  rw [← h, hu, hN.prev]

lemma Inv.step_none (hN : Numbered P pos n) (h : Inv pos n σ) : Inv pos n (step P σ none) := by
  unfold step
  by_cases hb : σ.begun = true
  · rw [if_pos hb]; exact h
  · rw [if_neg hb]
    refine ⟨h.order, ?_⟩
    cases h.token with
    | unborn hb' hc hs ho hm =>
      refine .free P.first rfl ?_ ?_ (fun u hu => ?_) ho hm
      · rw [hN.first, Nat.mod_self]
        simp only [State.setSem]
        rw [hc, Nat.zero_mod]
      · simp [State.setSem, hs]
      · simp [State.setSem, Function.update_of_ne hu, hs]
    | free v hb' => exact absurd hb' hb
    | entering v hb' => exact absurd hb' hb
    | running v hb' => exact absurd hb' hb
    | leaving v hb' => exact absurd hb' hb
    | posting v hb' => exact absurd hb' hb

lemma Inv.step_wait (hN : Numbered P pos n) (h : Inv pos n σ)
    (hs : 0 < σ.sem (P.prev t)) :
    Inv pos n ((σ.setSem (P.prev t) (σ.sem (P.prev t) - 1)).goto t .lock) := by
  refine ⟨h.order, ?_⟩
  cases h.token with
  | free v hb hv h1 hz ho hm =>
    have hvp : P.prev t = v := by
      by_contra hne
      rw [hz _ hne] at hs
      omega
    refine .entering t hb (hN.prev_mod hv hvp.symm) (Function.update_self ..) (fun u => ?_)
      (fun u hu => outside_goto (fun u _ => ho u) u hu) hm
    simp only [State.goto, State.setSem]
    by_cases hu : u = P.prev t
    · subst hu
      rw [Function.update_self, hvp, h1]
    · rw [Function.update_of_ne hu]
      exact hz u (by rw [← hvp]; exact hu)
  | unborn hb hc hz => rw [hz] at hs; omega
  | entering v hb hv hp hz => rw [hz] at hs; omega
  | running v hb hv hp hz => rw [hz] at hs; omega
  | leaving v hb hv hp hz => rw [hz] at hs; omega
  | posting v hb hv hp hz => rw [hz] at hs; omega

lemma Inv.step_body (hN : Numbered P pos n) (h : Inv pos n σ) (ht : σ.pc t = .body) :
    Inv pos n { σ.goto t .unlock with
      shared := P.body t σ.shared
      trace := σ.trace ++ [(t, σ.shared)] } := by
  obtain ⟨hb, hz, ho, h4⟩ := h.token.of_inside ht not_outside_body
  simp only [reduceCtorEq, false_and, true_and, false_or, or_false] at h4
  have hpos : 0 < n := Nat.lt_of_le_of_lt (Nat.zero_le _) (hN.lt t)
  constructor
  · intro k hk
    simp only [List.length_append, List.length_singleton] at hk
    rcases Nat.lt_or_ge k σ.trace.length with h1 | h1
    · rw [List.getElem_append_left h1]
      exact h.order k h1
    · obtain rfl : k = σ.trace.length := by omega
      simpa using h4.1
  · refine .leaving t hb ?_ (Function.update_self ..) hz (outside_goto ho) h4.2
    rw [List.length_append, List.length_singleton, h4.1, Nat.add_mod, Nat.mod_mod, ← Nat.add_mod]

/-- Every step keeps the token and the order. -/
lemma Inv.step (hN : Numbered P pos n) (h : Inv pos n σ) (a : Option Θ) :
    Inv pos n (step P σ a) := by
  rcases a with _ | t
  · exact h.step_none hN
  cases ht : σ.pc t with
  | test l =>
    have hout : (σ.pc t).Outside := by rw [ht]; simp
    simp only [Ring.step, ht]
    rcases P.probe l σ.shared with l' | (_ | _)
    · exact ⟨h.order, h.token.outside hout (outside_test _)⟩
    · exact ⟨h.order, h.token.outside hout outside_wait⟩
    · exact ⟨h.order, h.token.outside hout outside_gone⟩
  | wait =>
    simp only [Ring.step, ht]
    split_ifs with hs
    · exact h.step_wait hN hs
    · exact h
  | lock =>
    obtain ⟨hb, hz, ho, h4⟩ := h.token.of_inside ht not_outside_lock
    simp only [reduceCtorEq, false_and, true_and, or_false] at h4
    simp only [Ring.step, ht]
    rw [if_pos (by omega)]
    refine ⟨h.order, .running t hb h4.1 (Function.update_self ..) hz (outside_goto ho) ?_⟩
    simp [h4.2]
  | body =>
    simp only [Ring.step, ht]
    exact h.step_body hN ht
  | unlock =>
    obtain ⟨hb, hz, ho, h4⟩ := h.token.of_inside ht not_outside_unlock
    simp only [reduceCtorEq, false_and, true_and, false_or, or_false] at h4
    simp only [Ring.step, ht]
    refine ⟨h.order, .posting t hb h4.1 (Function.update_self ..) hz (outside_goto ho) ?_⟩
    simp [h4.2]
  | post =>
    obtain ⟨hb, hz, ho, h4⟩ := h.token.of_inside ht not_outside_post
    simp only [reduceCtorEq, false_and, true_and, false_or] at h4
    simp only [Ring.step, ht]
    refine ⟨h.order, .free t hb h4.1 ?_ (fun u hu => ?_) (fun u => ?_) h4.2⟩
    · simp [State.goto, State.setSem, hz]
    · simp [State.goto, State.setSem, Function.update_of_ne hu, hz]
    · by_cases hu : u = t
      · subst hu; simp [State.goto]
      · exact outside_goto ho u hu
  | gone =>
    simp only [Ring.step, ht]
    exact h

lemma Inv.run (hN : Numbered P pos n) (h : Inv pos n σ) (sched : List (Option Θ)) :
    Inv pos n (run P σ sched) := by
  induction sched generalizing σ with
  | nil => exact h
  | cons a sched ih => exact ih (h.step hN a)

/-- The semaphores and the threads inside hold one token between them. -/
lemma Inv.one_token [Fintype Θ] (h : Inv pos n σ) (hb : σ.begun = true) :
    ∑ u, σ.sem u + (Finset.univ.filter fun u => (σ.pc u).inside = true).card = 1 := by
  have hone : ∀ {v : Θ}, ¬ (σ.pc v).Outside → (∀ u, σ.sem u = 0) →
      (∀ u, u ≠ v → (σ.pc u).Outside) →
      ∑ u, σ.sem u + (Finset.univ.filter fun u => (σ.pc u).inside = true).card = 1 := by
    intro v hv hs ho
    have hset : (Finset.univ.filter fun u => (σ.pc u).inside = true) = {v} := by
      ext u
      simp only [Finset.mem_filter, Finset.mem_univ, true_and, Finset.mem_singleton]
      constructor
      · intro hu
        by_contra hne
        have := ho u hne
        rw [Pc.Outside, hu] at this
        cases this
      · rintro rfl
        simpa [Pc.Outside] using hv
    rw [hset, Finset.sum_eq_zero fun u _ => hs u, Finset.card_singleton]
  cases h.token with
  | unborn hb' => rw [hb] at hb'; cases hb'
  | free v _ hv h1 hs ho hm =>
    have hset : (Finset.univ.filter fun u => (σ.pc u).inside = true) = ∅ :=
      Finset.filter_false_of_mem fun u _ => by simpa [Pc.Outside] using ho u
    rw [hset, Finset.sum_eq_single v (fun u _ hu => hs u hu) (by simp), h1, Finset.card_empty]
  | entering v _ hv hp hs ho hm => exact hone (by simp [hp]) hs ho
  | running v _ hv hp hs ho hm => exact hone (by simp [hp]) hs ho
  | leaving v _ hv hp hs ho hm => exact hone (by simp [hp]) hs ho
  | posting v _ hv hp hs ho hm => exact hone (by simp [hp]) hs ho

/-! ### One turn for each value of the clock -/

/-- The last thread of the ring advances the clock by one, the others leave it. -/
def Ticks (P : Prog Θ S Λ) (pos : Θ → ℕ) (n : ℕ) (clock : S → ℤ) : Prop :=
  ∀ t s, clock (P.body t s) = clock s + if pos t + 1 = n then 1 else 0

/-- The clock counts the completed turns of the ring. -/
structure Clocked (n : ℕ) (clock : S → ℤ) (c0 : ℤ) (σ : State Θ S Λ) : Prop where
  past : ∀ k (hk : k < σ.trace.length), clock (σ.trace[k]).2 = c0 + (k / n : ℕ)
  now : clock σ.shared = c0 + (σ.trace.length / n : ℕ)

variable {clock : S → ℤ} {c0 : ℤ}

/-- Only a body changes the shared state and the trace. -/
lemma step_cases (P : Prog Θ S Λ) (σ : State Θ S Λ) (a : Option Θ) :
    ((step P σ a).shared = σ.shared ∧ (step P σ a).trace = σ.trace) ∨
      ∃ t, a = some t ∧ σ.pc t = .body ∧ (step P σ a).shared = P.body t σ.shared ∧
        (step P σ a).trace = σ.trace ++ [(t, σ.shared)] := by
  rcases a with _ | t
  · left
    unfold step
    split_ifs <;> exact ⟨rfl, rfl⟩
  cases ht : σ.pc t with
  | test l =>
    left
    simp only [step, ht]
    rcases P.probe l σ.shared with l' | (_ | _) <;> exact ⟨rfl, rfl⟩
  | wait =>
    left
    simp only [step, ht]
    split_ifs <;> exact ⟨rfl, rfl⟩
  | lock =>
    left
    simp only [step, ht]
    split_ifs <;> exact ⟨rfl, rfl⟩
  | body =>
    right
    exact ⟨t, rfl, ht, by simp only [step, ht], by simp only [step, ht]⟩
  | unlock => left; simp only [step, ht]; exact ⟨rfl, rfl⟩
  | post => left; simp only [step, ht]; exact ⟨rfl, rfl⟩
  | gone => left; simp [step, ht]

lemma Clocked.step (hN : Numbered P pos n) (hT : Ticks P pos n clock) (hi : Inv pos n σ)
    (h : Clocked n clock c0 σ) (a : Option Θ) : Clocked n clock c0 (step P σ a) := by
  obtain ⟨h1, h2⟩ | ⟨t, rfl, hp, h1, h2⟩ := step_cases P σ a
  · refine ⟨fun k hk => ?_, ?_⟩
    · simp only [h2] at hk ⊢
      exact h.past k hk
    · rw [h1, h2]; exact h.now
  have hpos : pos t = σ.trace.length % n := by
    obtain ⟨-, -, -, h4⟩ := hi.token.of_inside hp not_outside_body
    simp only [reduceCtorEq, false_and, true_and, false_or, or_false] at h4
    exact h4.1
  refine ⟨fun k hk => ?_, ?_⟩
  · simp only [h2] at hk ⊢
    simp only [List.length_append, List.length_singleton] at hk
    rcases Nat.lt_or_ge k σ.trace.length with h3 | h3
    · rw [List.getElem_append_left h3]
      exact h.past k h3
    · obtain rfl : k = σ.trace.length := by omega
      simpa using h.now
  · rw [h1, h2, hT, h.now, List.length_append, List.length_singleton, Nat.succ_div, hpos]
    have hn : 0 < n := Nat.lt_of_le_of_lt (Nat.zero_le _) (hN.lt t)
    have hiff : σ.trace.length % n + 1 = n ↔ n ∣ σ.trace.length + 1 := by
      rw [Nat.dvd_iff_mod_eq_zero, Nat.add_mod]
      have hlt := Nat.mod_lt σ.trace.length hn
      rcases Nat.lt_or_ge 1 n with h1 | h1
      · rw [Nat.mod_eq_of_lt h1]
        rcases Nat.lt_or_ge (σ.trace.length % n + 1) n with h3 | h3
        · rw [Nat.mod_eq_of_lt h3]; omega
        · have : σ.trace.length % n + 1 = n := by omega
          rw [this, Nat.mod_self]; omega
      · obtain rfl : n = 1 := by omega
        simp [Nat.mod_one]
    by_cases hd : n ∣ σ.trace.length + 1
    · rw [if_pos (hiff.mpr hd), if_pos hd]; push_cast; ring
    · rw [if_neg (fun hc => hd (hiff.mp hc)), if_neg hd]; push_cast; ring

omit [DecidableEq Θ] in
lemma clocked_init (s : S) : Clocked n clock (clock s) (init P s) :=
  ⟨fun k hk => by simp [init] at hk, by simp [init]⟩

lemma Clocked.run (hN : Numbered P pos n) (hT : Ticks P pos n clock) (hi : Inv pos n σ)
    (h : Clocked n clock c0 σ) (sched : List (Option Θ)) :
    Clocked n clock c0 (run P σ sched) := by
  induction sched generalizing σ with
  | nil => exact h
  | cons a sched ih => exact ih (hi.step hN a) (h.step hN hT hi a)

/-- What a run of the ring guarantees: one token; the bodies in the order of the ring, one round
for each value of the clock; hence at most one turn of a thread for each value, and exactly one
for each value already past. -/
structure Turns [Fintype Θ] (order : List Θ) (clock : S → ℤ) (c0 : ℤ) (σ : State Θ S Λ) :
    Prop where
  token : σ.begun = true →
    ∑ u, σ.sem u + (Finset.univ.filter fun u => (σ.pc u).inside = true).card = 1
  turn : ∀ k (hk : k < σ.trace.length),
    order[k % order.length]? = some (σ.trace[k]).1 ∧
      clock (σ.trace[k]).2 = c0 + (k / order.length : ℕ)
  now : clock σ.shared = c0 + (σ.trace.length / order.length : ℕ)
  most : ∀ j k (hj : j < σ.trace.length) (hk : k < σ.trace.length),
    (σ.trace[j]).1 = (σ.trace[k]).1 → clock (σ.trace[j]).2 = clock (σ.trace[k]).2 → j = k
  least : ∀ t c, c0 ≤ c → c < clock σ.shared →
    ∃ k, ∃ hk : k < σ.trace.length, (σ.trace[k]).1 = t ∧ clock (σ.trace[k]).2 = c

/-- **One turn for each thread and tick**: every schedule from the initial state. -/
lemma turns [Fintype Θ] {order : List Θ} (hN : Numbered P pos order.length)
    (hord : ∀ t, order[pos t]? = some t) (hT : Ticks P pos order.length clock) (s : S)
    (sched : List (Option Θ)) : Turns order clock (clock s) (run P (init P s) sched) := by
  set σ := run P (init P s) sched with hσ
  have hi : Inv pos order.length σ := (inv_init s).run hN sched
  have hc : Clocked order.length clock (clock s) σ := (clocked_init s).run hN hT (inv_init s) sched
  have hpos : 0 < order.length := Nat.lt_of_le_of_lt (Nat.zero_le _) (hN.lt P.first)
  refine ⟨hi.one_token, fun k hk => ⟨?_, hc.past k hk⟩, hc.now, ?_, ?_⟩
  · rw [← hi.order k hk]
    exact hord _
  · intro j k hj hk ht htick
    rw [hc.past j hj, hc.past k hk] at htick
    have h1 : j % order.length = k % order.length := by rw [← hi.order j hj, ← hi.order k hk, ht]
    have h2 : j / order.length = k / order.length := by omega
    rw [← Nat.div_add_mod j order.length, ← Nat.div_add_mod k order.length, h1, h2]
  · intro t c h0 h1
    obtain ⟨d, rfl⟩ := Int.le.dest h0
    rw [hc.now] at h1
    have hd : d < σ.trace.length / order.length := by omega
    have hlt : d * order.length + pos t < σ.trace.length := by
      have h2 := Nat.div_mul_le_self σ.trace.length order.length
      have h3 : (d + 1) * order.length ≤ σ.trace.length / order.length * order.length :=
        Nat.mul_le_mul_right _ hd
      have h4 := hN.lt t
      rw [Nat.add_mul, Nat.one_mul] at h3
      omega
    refine ⟨_, hlt, hN.inj ?_, ?_⟩
    · rw [hi.order _ hlt, Nat.add_comm, Nat.add_mul_mod_self_right, Nat.mod_eq_of_lt (hN.lt t)]
    · rw [hc.past _ hlt, Nat.add_comm, Nat.add_mul_div_right _ _ hpos,
        Nat.div_eq_of_lt (hN.lt t), Nat.zero_add]

/-! ### Leaving the ring -/

/-- No thread is left that can move, and one has not left. -/
def Stranded (P : Prog Θ S Λ) (σ : State Θ S Λ) : Prop :=
  (∃ t, σ.pc t ≠ .gone) ∧ ∀ t, ¬ Enabled P σ t

instance [Fintype Θ] [DecidableEq Λ] (P : Prog Θ S Λ) (σ : State Θ S Λ) :
    Decidable (Stranded P σ) :=
  inferInstanceAs (Decidable ((∃ t, σ.pc t ≠ .gone) ∧ ∀ t, ¬ Enabled P σ t))

/-- The test of `t` is one look at the shared state. -/
def Looks (P : Prog Θ S Λ) (done : S → Bool) : Prop := ∀ l s, P.probe l s = .inr (done s)

/-- The step does not make a thread leave in front of one that waits for its empty semaphore. -/
def Timely (P : Prog Θ S Λ) (done : S → Bool) (σ : State Θ S Λ) : Option Θ → Prop
  | none => True
  | some t => ∀ l, σ.pc t = .test l → done σ.shared = true →
      ∀ u, P.prev u = t → σ.pc u = .wait → 0 < σ.sem t

instance [Fintype Θ] [Fintype Λ] [DecidableEq Λ] (P : Prog Θ S Λ) (done : S → Bool)
    (σ : State Θ S Λ) (a : Option Θ) : Decidable (Timely P done σ a) :=
  match a with
  | none => isTrue trivial
  | some t => inferInstanceAs (Decidable (∀ l, σ.pc t = .test l → done σ.shared = true →
      ∀ u, P.prev u = t → σ.pc u = .wait → 0 < σ.sem t))

/-- Every step of the schedule meets `C`. -/
def Along (P : Prog Θ S Λ) (C : State Θ S Λ → Option Θ → Prop) :
    State Θ S Λ → List (Option Θ) → Prop
  | _, [] => True
  | σ, a :: sched => C σ a ∧ Along P C (step P σ a) sched

instance decidableAlong (P : Prog Θ S Λ) (C : State Θ S Λ → Option Θ → Prop)
    [∀ σ a, Decidable (C σ a)] (σ : State Θ S Λ) : (sched : List (Option Θ)) →
      Decidable (Along P C σ sched)
  | [] => isTrue trivial
  | a :: sched =>
    haveI := decidableAlong P C (step P σ a) sched
    inferInstanceAs (Decidable (C σ a ∧ Along P C (step P σ a) sched))

/-- Threads only leave once `done` holds, and nobody waits behind a thread that has left unless
the token is there. -/
structure Closing (P : Prog Θ S Λ) (done : S → Bool) (s0 : S) (σ : State Θ S Λ) : Prop where
  start : σ.trace = [] → σ.shared = s0
  left : ∀ t, σ.pc t = .gone → done σ.shared = true
  served : ∀ u, σ.pc (P.prev u) = .gone → σ.pc u = .wait → 0 < σ.sem (P.prev u)

variable {done : S → Bool} {s0 : S}

omit [DecidableEq Θ] in
lemma Numbered.prev_inj (hN : Numbered P pos n) (h : P.prev t = P.prev u) : t = u :=
  hN.inj (by rw [← hN.prev t, ← hN.prev u, h])

omit [DecidableEq Θ] in
lemma closing_init : Closing P done s0 (init P s0) :=
  ⟨fun _ => rfl, fun t h => by simp [init] at h, fun u h => by simp [init] at h⟩

/-- A thread that moves from one place to another, neither of them `wait` nor `gone`, disturbs
nothing. -/
lemma Closing.goto {p : Pc Λ} (h : Closing P done s0 σ) (hp : p ≠ .wait) (hg : p ≠ .gone) :
    Closing P done s0 (σ.goto t p) := by
  refine ⟨h.start, fun v hv => ?_, fun v hv hw => ?_⟩
  · by_cases hvt : v = t
    · subst hvt; simp [State.goto, hg] at hv
    · exact h.left v (by simpa [State.goto, Function.update_of_ne hvt] using hv)
  · have h1 : v ≠ t := by rintro rfl; simp [State.goto, hp] at hw
    have h2 : P.prev v ≠ t := by
      intro hc; rw [hc] at hv; simp [State.goto, hg] at hv
    simp only [State.goto, Function.update_of_ne h1, Function.update_of_ne h2] at hv hw
    exact h.served v hv hw

lemma Closing.step (hN : Numbered P pos n) (hL : Looks P done)
    (hkeep : ∀ t, σ.pc t = .body → done σ.shared = true → done (P.body t σ.shared) = true)
    (h : Closing P done s0 σ) {a : Option Θ} (ha : Timely P done σ a) :
    Closing P done s0 (step P σ a) := by
  rcases a with _ | t
  · simp only [Ring.step]
    by_cases hb : σ.begun = true
    · rw [if_pos hb]; exact h
    · rw [if_neg hb]
      refine ⟨h.start, h.left, fun u hu hw => ?_⟩
      have := h.served u hu hw
      simp only [State.setSem]
      by_cases hf : P.prev u = P.first
      · rw [hf, Function.update_self]; omega
      · rwa [Function.update_of_ne hf]
  cases ht : σ.pc t with
  | test l =>
    simp only [Ring.step, ht, hL l σ.shared]
    cases hd : done σ.shared with
    | true =>
      refine ⟨h.start, fun _ _ => hd, fun u hu hw => ?_⟩
      have h1 : u ≠ t := by rintro rfl; simp [State.goto] at hw
      simp only [State.goto, Function.update_of_ne h1] at hw ⊢
      by_cases h2 : P.prev u = t
      · rw [h2]; exact ha l ht hd u h2 hw
      · simp only [State.goto, Function.update_of_ne h2] at hu
        exact h.served u hu hw
    | false =>
      -- nobody has left yet
      have hno : ∀ u, σ.pc u ≠ .gone := fun u hu => by
        have := h.left u hu
        rw [hd] at this; cases this
      have hno' : ∀ u, (σ.goto t .wait).pc u ≠ .gone := fun u => by
        by_cases hu : u = t
        · subst hu; simp [State.goto]
        · simpa [State.goto, Function.update_of_ne hu] using hno u
      exact ⟨h.start, fun u hu => absurd hu (hno' u), fun u hu => absurd hu (hno' _)⟩
  | wait =>
    simp only [Ring.step, ht]
    split_ifs with hs
    · refine ⟨h.start, fun u hu => ?_, fun u hu hw => ?_⟩
      · have h1 : u ≠ t := by rintro rfl; simp [State.goto] at hu
        exact h.left u (by simpa [State.goto, State.setSem, Function.update_of_ne h1] using hu)
      · have h1 : u ≠ t := by rintro rfl; simp [State.goto] at hw
        have h2 : P.prev u ≠ t := by intro hc; rw [hc] at hu; simp [State.goto] at hu
        have h3 : P.prev u ≠ P.prev t := fun hc => h1 (hN.prev_inj hc)
        simp only [State.goto, State.setSem, Function.update_of_ne h1, Function.update_of_ne h2,
          Function.update_of_ne h3] at hu hw ⊢
        exact h.served u hu hw
    · exact h
  | lock =>
    simp only [Ring.step, ht]
    split_ifs
    · have h1 := h.goto (t := t) (p := .body) (by simp) (by simp)
      exact ⟨h1.start, h1.left, h1.served⟩
    · exact h
  | body =>
    simp only [Ring.step, ht]
    have h1 := h.goto (t := t) (p := .unlock) (by simp) (by simp)
    exact ⟨fun hc => by simp at hc, fun u hu => hkeep t ht (h1.left u hu), h1.served⟩
  | unlock =>
    simp only [Ring.step, ht]
    have h1 := h.goto (t := t) (p := .post) (by simp) (by simp)
    exact ⟨h1.start, h1.left, h1.served⟩
  | post =>
    simp only [Ring.step, ht]
    have h1 := h.goto (t := t) (p := .test P.start) (by simp) (by simp)
    refine ⟨h1.start, h1.left, fun u hu hw => ?_⟩
    have h2 := h1.served u hu hw
    have h3 : P.prev u ≠ t := by
      intro hc; rw [hc] at hu; simp [State.goto] at hu
    simpa [State.goto, State.setSem, Function.update_of_ne h3] using h2
  | gone =>
    simp only [Ring.step, ht]
    exact h

omit [DecidableEq Θ] in
lemma Numbered.reach (hN : Numbered P pos n) (t u : Θ) : ∃ k, P.prev^[k] t = u := by
  have hback : ∀ k, (pos (P.prev^[k] t) + k) % n = pos t := by
    intro k
    induction k with
    | zero => simpa using Nat.mod_eq_of_lt (hN.lt t)
    | succ k ih =>
      rw [Function.iterate_succ_apply', ← ih, ← hN.prev (P.prev^[k] t), Nat.mod_add_mod]
      congr 1; omega
  have ht := hN.lt t
  have hu := hN.lt u
  refine ⟨pos t + (n - pos u), hN.inj ?_⟩
  have h1 := hback (pos t + (n - pos u))
  have h2 := hN.lt (P.prev^[pos t + (n - pos u)] t)
  set x := pos (P.prev^[pos t + (n - pos u)] t) with hx
  rcases Nat.lt_or_ge (x + (pos t + (n - pos u))) n with h3 | h3
  · rw [Nat.mod_eq_of_lt h3] at h1; omega
  · rcases Nat.lt_or_ge (x + (pos t + (n - pos u)) - n) n with h4 | h4
    · rw [Nat.mod_eq_sub_mod h3, Nat.mod_eq_of_lt h4] at h1; omega
    · rcases Nat.lt_or_ge (x + (pos t + (n - pos u)) - n - n) n with h5 | h5
      · rw [Nat.mod_eq_sub_mod h3, Nat.mod_eq_sub_mod h4, Nat.mod_eq_of_lt h5] at h1; omega
      · omega

omit [DecidableEq Θ] in
/-- A thread that cannot move and is not gone waits for an empty semaphore; if nobody is left
in front of it, neither has anybody else. -/
lemma Closing.not_stranded [Finite Θ] (hN : Numbered P pos n) (hi : Inv pos n σ)
    (h : Closing P done s0 σ) (h0 : done s0 = false) (hd : done σ.shared = true) :
    ¬ Stranded P σ := by
  rintro ⟨⟨w, hw⟩, hno⟩
  have hin : ∀ v, ¬ (σ.pc v).Outside → σ.mutex = 1 ∨ σ.pc v ≠ .lock → False := by
    intro v hv hm
    refine hno v ?_
    unfold Enabled
    cases hp : σ.pc v with
    | lock =>
      rcases hm with hm | hm
      · simp [hm]
      · exact absurd hp hm
    | test l => trivial
    | wait => rw [hp] at hv; exact absurd outside_wait hv
    | body => trivial
    | unlock => trivial
    | post => trivial
    | gone => rw [hp] at hv; exact absurd outside_gone hv
  cases hi.token with
  | unborn hb hc hs ho hm =>
    rw [h.start (List.eq_nil_of_length_eq_zero hc), h0] at hd
    cases hd
  | entering v hb hv hp hs ho hm => exact hin v (by simp [hp]) (Or.inl hm)
  | running v hb hv hp hs ho hm => exact hin v (by simp [hp]) (Or.inr (by simp [hp]))
  | leaving v hb hv hp hs ho hm => exact hin v (by simp [hp]) (Or.inr (by simp [hp]))
  | posting v hb hv hp hs ho hm => exact hin v (by simp [hp]) (Or.inl hm)
  | free v hb hv h1 hs ho hm =>
    have hwait : ∀ u, σ.pc u ≠ .gone → σ.pc u = .wait ∧ σ.sem (P.prev u) = 0 := by
      intro u hu
      have hn := hno u
      have hou := ho u
      unfold Enabled at hn
      cases hp : σ.pc u with
      | wait =>
        rw [hp] at hn
        exact ⟨rfl, by simpa using hn⟩
      | gone => exact absurd hp hu
      | test l => rw [hp] at hn; exact absurd trivial hn
      | lock => rw [hp] at hou; exact absurd hou not_outside_lock
      | body => rw [hp] at hou; exact absurd hou not_outside_body
      | unlock => rw [hp] at hou; exact absurd hou not_outside_unlock
      | post => rw [hp] at hou; exact absurd hou not_outside_post
    -- the thread the token waits for has left, yet walking back from `w` nobody has
    obtain ⟨u, hu⟩ : ∃ u, P.prev u = v :=
      (Finite.injective_iff_surjective.mp fun _ _ => hN.prev_inj) v
    have hug : σ.pc u = .gone := by
      by_contra hc
      have := (hwait u hc).2
      rw [hu, h1] at this
      cases this
    have hback : ∀ k, σ.pc (P.prev^[k] w) ≠ .gone := by
      intro k
      induction k with
      | zero => exact hw
      | succ k ih =>
        rw [Function.iterate_succ_apply']
        intro hc
        have h2 := h.served _ hc (hwait _ ih).1
        have h3 := (hwait _ ih).2
        omega
    obtain ⟨k, hk⟩ := hN.reach w u
    exact hback k (by rw [hk, hug])

/-! ### Properties of the shared state and of the bodies run so far -/

lemma Clocked.fresh (hi : Inv pos n σ) (h : Clocked n clock c0 σ) (ht : σ.pc t = .body) :
    ∀ e ∈ σ.trace, e.1 = t → clock e.2 < clock σ.shared := by
  intro e he het
  obtain ⟨k, hk, rfl⟩ := List.mem_iff_getElem.mp he
  obtain ⟨-, -, -, h4⟩ := hi.token.of_inside ht not_outside_body
  simp only [reduceCtorEq, false_and, true_and, false_or, or_false] at h4
  have hmod : k % n = σ.trace.length % n := by rw [← hi.order k hk, het, h4.1]
  have hdiv : k / n < σ.trace.length / n := by
    by_contra hc
    have h1 := Nat.div_add_mod k n
    have h2 := Nat.div_add_mod σ.trace.length n
    have h3 := Nat.mul_le_mul_left n (Nat.not_lt.mp hc)
    omega
  rw [h.past k hk, h.now]
  omega

/-- The bodies keep `R`, a property of the shared state and of the bodies run so far, provided no
thread runs its body twice for one value of the clock. -/
def Respects (P : Prog Θ S Λ) (clock : S → ℤ) (R : List (Θ × S) → S → Prop) : Prop :=
  ∀ tr s t, R tr s → (∀ e ∈ tr, e.1 = t → clock e.2 < clock s) → R (tr ++ [(t, s)]) (P.body t s)

/-- The invariants of the ring together with a property that the bodies keep. -/
structure Kept (pos : Θ → ℕ) (n : ℕ) (clock : S → ℤ) (c0 : ℤ) (R : List (Θ × S) → S → Prop)
    (σ : State Θ S Λ) : Prop where
  inv : Inv pos n σ
  clocked : Clocked n clock c0 σ
  holds : R σ.trace σ.shared

variable {R : List (Θ × S) → S → Prop}

omit [DecidableEq Θ] in
lemma kept_init {s : S} (h : R [] s) : Kept pos n clock (clock s) R (init P s) :=
  ⟨inv_init s, clocked_init s, h⟩

lemma Kept.step (hN : Numbered P pos n) (hT : Ticks P pos n clock) (hR : Respects P clock R)
    (h : Kept pos n clock c0 R σ) (a : Option Θ) : Kept pos n clock c0 R (step P σ a) := by
  refine ⟨h.inv.step hN a, h.clocked.step hN hT h.inv a, ?_⟩
  obtain ⟨h1, h2⟩ | ⟨t, rfl, hp, h1, h2⟩ := step_cases P σ a
  · rw [h1, h2]; exact h.holds
  · rw [h1, h2]; exact hR _ _ _ h.holds (h.clocked.fresh h.inv hp)

lemma Kept.run (hN : Numbered P pos n) (hT : Ticks P pos n clock) (hR : Respects P clock R)
    (h : Kept pos n clock c0 R σ) (sched : List (Option Θ)) :
    Kept pos n clock c0 R (run P σ sched) := by
  induction sched generalizing σ with
  | nil => exact h
  | cons a sched ih => exact ih (h.step hN hT hR a)

lemma Closing.run (hN : Numbered P pos n) (hT : Ticks P pos n clock) (hR : Respects P clock R)
    (hL : Looks P done)
    (hkeep : ∀ tr s t, R tr s → (∀ e ∈ tr, e.1 = t → clock e.2 < clock s) → done s = true →
      done (P.body t s) = true)
    (h : Closing P done s0 σ) (hk : Kept pos n clock c0 R σ) {sched : List (Option Θ)}
    (ha : Along P (Timely P done) σ sched) : Closing P done s0 (run P σ sched) := by
  induction sched generalizing σ with
  | nil => exact h
  | cons a sched ih =>
    refine ih (h.step hN hL (fun t hp hd => ?_) ha.1) (hk.step hN hT hR a) ha.2
    exact hkeep _ _ t hk.holds (hk.clocked.fresh hk.inv hp) hd

end Xv6.Ring
