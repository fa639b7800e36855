import Mathlib.Tactic.Common

/-!
Weakest preconditions for state-passing programs that may stop in a panic.

A program of type `StateT σ (Except ε) α` either returns a value and a new state or stops
with a panic. `wp m Q E s` says that `m`, run from `s`, ends in `Q` if it returns and in `E`
if it panics. The rules below take a program apart along its binds, so that a proof about a
caller cites one `wp` lemma for each function it calls.
-/

namespace Xv6.Wp

variable {σ ε α β : Type}

/-- `m` run from `s` returns into `Q` or panics into `E`. -/
def wp (m : StateT σ (Except ε) α) (Q : α → σ → Prop) (E : ε → Prop) (s : σ) : Prop :=
  match m s with
  | .ok (a, s') => Q a s'
  | .error e => E e

variable {Q : α → σ → Prop} {E : ε → Prop} {s : σ}

lemma bind_run (m : StateT σ (Except ε) α) (f : α → StateT σ (Except ε) β) (s : σ) :
    (m >>= f) s = match m s with
      | .ok (a, s') => f a s'
      | .error e => .error e := by
  change (m s >>= fun p => f p.1 p.2) = _
  cases m s <;> rfl

@[simp] lemma wp_pure (a : α) : wp (pure a) Q E s ↔ Q a s := Iff.rfl

@[simp] lemma wp_throw (e : ε) : wp (throw e : StateT σ (Except ε) α) Q E s ↔ E e := Iff.rfl

@[simp] lemma wp_get {Q : σ → σ → Prop} :
    wp (get : StateT σ (Except ε) σ) Q E s ↔ Q s s := Iff.rfl

@[simp] lemma wp_set {Q : PUnit → σ → Prop} (t : σ) :
    wp (set t : StateT σ (Except ε) PUnit) Q E s ↔ Q ⟨⟩ t := Iff.rfl

@[simp] lemma wp_modify {Q : PUnit → σ → Prop} (f : σ → σ) :
    wp (modify f : StateT σ (Except ε) PUnit) Q E s ↔ Q ⟨⟩ (f s) := Iff.rfl

@[simp] lemma wp_bind {Q : β → σ → Prop} (m : StateT σ (Except ε) α)
    (f : α → StateT σ (Except ε) β) :
    wp (m >>= f) Q E s ↔ wp m (fun a t => wp (f a) Q E t) E s := by
  unfold wp
  rw [bind_run]
  cases m s <;> rfl

@[simp] lemma wp_ite (c : Prop) [Decidable c] (m n : StateT σ (Except ε) α) :
    wp (if c then m else n) Q E s ↔ if c then wp m Q E s else wp n Q E s := by
  split <;> rfl

/-- **Consequence**: a stronger postcondition and a smaller set of panics. -/
lemma wp_mono {m : StateT σ (Except ε) α} {Q Q' : α → σ → Prop} {E E' : ε → Prop}
    (h : wp m Q E s) (hQ : ∀ a t, Q a t → Q' a t) (hE : ∀ e, E e → E' e) : wp m Q' E' s := by
  unfold wp at h ⊢
  rcases hm : m s with e | ⟨a, t⟩
  · rw [hm] at h; exact hE e h
  · rw [hm] at h; exact hQ a t h

lemma wp_post {m : StateT σ (Except ε) α} {Q Q' : α → σ → Prop} {E : ε → Prop}
    (h : wp m Q E s) (hQ : ∀ a t, Q a t → Q' a t) : wp m Q' E s :=
  wp_mono h hQ fun _ => id

lemma wp_returns {m : StateT σ (Except ε) α} (h : wp m Q (fun _ => False) s) :
    ∃ a t, m s = .ok (a, t) ∧ Q a t := by
  unfold wp at h
  rcases hm : m s with e | ⟨a, t⟩
  · rw [hm] at h; exact h.elim
  · rw [hm] at h; exact ⟨a, t, rfl, h⟩

lemma wp_true {m : StateT σ (Except ε) α} : wp m (fun _ _ => True) (fun _ => True) s := by
  unfold wp
  cases m s <;> trivial

/-- The panics are left open. -/
lemma wp_any {m : StateT σ (Except ε) α} (h : wp m Q E s) : wp m Q (fun _ => True) s :=
  wp_mono h (fun _ _ => id) fun _ _ => trivial

/-- What a program returns is what its run gives. -/
lemma wp_self {m : StateT σ (Except ε) α} :
    wp m (fun a t => m s = .ok (a, t)) (fun _ => True) s := by
  unfold wp
  rcases m s with e | ⟨a, t⟩
  · trivial
  · rfl

/-- **Conjunction**: two specifications of one program. -/
lemma wp_and {m : StateT σ (Except ε) α} {Q Q' : α → σ → Prop} {E E' : ε → Prop}
    (h : wp m Q E s) (h' : wp m Q' E' s) :
    wp m (fun a t => Q a t ∧ Q' a t) (fun e => E e ∧ E' e) s := by
  unfold wp at h h' ⊢
  rcases hm : m s with e | ⟨a, t⟩
  · rw [hm] at h h'; exact ⟨h, h'⟩
  · rw [hm] at h h'; exact ⟨h, h'⟩

lemma wp_join {m : StateT σ (Except ε) α} {Q Q' : α → σ → Prop} {E : ε → Prop}
    (h : wp m Q (fun _ => True) s) (h' : wp m Q' E s) :
    wp m (fun a t => Q a t ∧ Q' a t) E s :=
  wp_mono (wp_and h h') (fun _ _ => id) fun _ he => he.2

lemma wp_of_run {m : StateT σ (Except ε) α} {a : α} {t : σ} (h : m s = .ok (a, t)) :
    wp m Q E s ↔ Q a t := by
  unfold wp; rw [h]

/-! ### Programs on a part of the state -/

variable {τ : Type}

/-- Run a program on the component of the state that `view` reads and `put` writes back. -/
def zoom (view : τ → σ) (put : τ → σ → τ) (m : StateT σ (Except ε) α) :
    StateT τ (Except ε) α := fun t =>
  match m (view t) with
  | .ok (a, s') => .ok (a, put t s')
  | .error e => .error e

@[simp] lemma wp_zoom (view : τ → σ) (put : τ → σ → τ) (m : StateT σ (Except ε) α)
    {Q : α → τ → Prop} {t : τ} :
    wp (zoom view put m) Q E t ↔ wp m (fun a s' => Q a (put t s')) E (view t) := by
  unfold wp zoom
  cases m (view t) <;> rfl

/-! ### Programs that leave a part of the state as it is -/

/-- `m` does not change what `f` sees of the state. -/
def Keeps (f : σ → τ) (m : StateT σ (Except ε) α) : Prop :=
  ∀ s, wp m (fun _ t => f t = f s) (fun _ => True) s

variable {f : σ → τ}

lemma Keeps.pure (a : α) : Keeps f (pure a : StateT σ (Except ε) α) := fun _ => rfl

lemma Keeps.throw (e : ε) : Keeps f (throw e : StateT σ (Except ε) α) := fun _ => trivial

lemma Keeps.get : Keeps f (get : StateT σ (Except ε) σ) := fun _ => rfl

lemma Keeps.modify {g : σ → σ} (h : ∀ s, f (g s) = f s) :
    Keeps f (modify g : StateT σ (Except ε) PUnit) := h

lemma Keeps.bind {m : StateT σ (Except ε) α} {k : α → StateT σ (Except ε) β} (hm : Keeps f m)
    (hk : ∀ a, Keeps f (k a)) : Keeps f (m >>= k) := by
  intro s
  rw [wp_bind]
  refine wp_post (hm s) fun a t ht => wp_post (hk a t) fun b u hu => ?_
  exact hu.trans ht

lemma Keeps.ite {c : Prop} [Decidable c] {m n : StateT σ (Except ε) α} (hm : Keeps f m)
    (hn : Keeps f n) : Keeps f (if c then m else n) := by
  split
  · exact hm
  · exact hn

end Xv6.Wp
