import Xv6.Wp

/-!
A program that keeps a record besides what another keeps: without the record, which nothing reads,
it is that other program. The rules take both apart along their binds.
-/

namespace Xv6.Wp

variable {σ τ ρ ε α β : Type} {view : τ → σ}

/-- Seen through `view`, `m'` does what `m` does. -/
def Forgets (view : τ → σ) (m' : StateT τ (Except ε) α) (m : StateT σ (Except ε) α) : Prop :=
  ∀ t, ((m' t).map fun r => (r.1, view r.2)) = m (view t)

namespace Forgets

variable {m' n' : StateT τ (Except ε) α} {m n : StateT σ (Except ε) α}

lemma pure (a : α) : Forgets view (Pure.pure a : StateT τ (Except ε) α) (Pure.pure a) :=
  fun _ => rfl

lemma throw (e : ε) :
    Forgets view (MonadExcept.throw e : StateT τ (Except ε) α) (MonadExcept.throw e) :=
  fun _ => rfl

lemma bind {k' : α → StateT τ (Except ε) β} {k : α → StateT σ (Except ε) β}
    (hm : Forgets view m' m) (hk : ∀ a, Forgets view (k' a) (k a)) :
    Forgets view (m' >>= k') (m >>= k) := by
  intro t
  rw [bind_run, bind_run, ← hm t]
  rcases m' t with e | ⟨a, u⟩
  · rfl
  · exact hk a u

lemma get {k' : τ → StateT τ (Except ε) β} {k : σ → StateT σ (Except ε) β}
    (hk : ∀ t, Forgets view (k' t) (k (view t))) : Forgets view (get >>= k') (get >>= k) :=
  fun t => hk t t

lemma ite {c : Prop} [Decidable c] (hm : Forgets view m' m) (hn : Forgets view n' n) :
    Forgets view (if c then m' else n') (if c then m else n) := by
  split
  · exact hm
  · exact hn

lemma record {g : τ → τ} {k' : PUnit → StateT τ (Except ε) α} (hg : ∀ t, view (g t) = view t)
    (hk : Forgets view (k' ⟨⟩) m) :
    Forgets view ((modify g : StateT τ (Except ε) PUnit) >>= k') m := by
  intro t
  rw [← hg t]
  exact hk (g t)

lemma zoom {part : τ → ρ} {part' : σ → ρ} {put : τ → ρ → τ} {put' : σ → ρ → σ}
    (m : StateT ρ (Except ε) α) (hpart : ∀ t, part' (view t) = part t)
    (hput : ∀ t r, view (put t r) = put' (view t) r) :
    Forgets view (Wp.zoom part put m) (Wp.zoom part' put' m) := by
  intro t
  unfold Wp.zoom
  rw [hpart]
  rcases m (part t) with e | ⟨a, r⟩
  · rfl
  · exact congrArg (fun s => Except.ok (a, s)) (hput t r)

lemma wp (h : Forgets view m' m) {Q : α → σ → Prop} {E : ε → Prop} {t : τ}
    (hw : Wp.wp m' (fun a u => Q a (view u)) E t) : Wp.wp m Q E (view t) := by
  have ht := h t
  unfold Wp.wp at hw ⊢
  rw [← ht]
  rcases hm : m' t with e | ⟨a, u⟩
  · rw [hm] at hw
    exact hw
  · rw [hm] at hw
    exact hw

end Forgets

end Xv6.Wp
