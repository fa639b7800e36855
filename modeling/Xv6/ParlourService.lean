import Xv6.ParlourHouse

/-!
Seats, machines and outcomes of the parlour, for every run: the seats are counted exactly, a
machine finishes what it starts in the tick that the preparation time gives, and a customer who
leaves has one reason to, up to the two of a customer who withdraws.
-/

namespace Xv6.ParlourService

open Xv6.Ring Xv6.Rounds Xv6.Crew Xv6.CInt Xv6.Parlour Xv6.Turns Xv6.ParlourTurns Xv6.ParlourHouse

variable {inp : Input} {tr : List (Thread inp.N inp.total_customers ×
    St inp.N inp.total_customers)} {s : St inp.N inp.total_customers}
  {m : Fin inp.N} {c : Fin inp.total_customers} {i : ℕ}

/-! ### Seats -/

/-- Rounds in which every thread passes through its whole loop. -/
def laps (inp : Input) (k : ℕ) : List (Option (Thread inp.N inp.total_customers)) :=
  none :: (List.replicate k ((round inp.customers_pos).flatMap fun t =>
    List.replicate 8 (some t))).flatten

/-- The starts on order `i`: which machine, and when. -/
def starts (tr : List (Thread inp.N inp.total_customers × St inp.N inp.total_customers)) (i : ℕ) :
    List (Fin inp.N × ℤ) :=
  tr.filterMap fun e =>
    match e.1 with
    | .worker m => if started m e.2 = some i then some (m, e.2.ticks) else none
    | .customer _ => none

/-- The turns in which order `i` is completed: which machine, and when. -/
def completions (tr : List (Thread inp.N inp.total_customers × St inp.N inp.total_customers))
    (i : ℕ) : List (Fin inp.N × ℤ) :=
  tr.filterMap fun e =>
    match e.1 with
    | .worker m => if finished m e.2 = some i then some (m, e.2.ticks) else none
    | .customer _ => none

lemma starts_worker (tr : List (Thread inp.N inp.total_customers × St inp.N inp.total_customers))
    (m : Fin inp.N) (s : St inp.N inp.total_customers) (i : ℕ) :
    starts (tr ++ [(Thread.worker m, s)]) i =
      starts tr i ++ if started m s = some i then [(m, s.ticks)] else [] := by
  by_cases h : started m s = some i <;> simp [starts, List.filterMap_append, h]

lemma completions_worker
    (tr : List (Thread inp.N inp.total_customers × St inp.N inp.total_customers))
    (m : Fin inp.N) (s : St inp.N inp.total_customers) (i : ℕ) :
    completions (tr ++ [(Thread.worker m, s)]) i =
      completions tr i ++ if finished m s = some i then [(m, s.ticks)] else [] := by
  by_cases h : finished m s = some i <;> simp [completions, List.filterMap_append, h]

/-- What the turns did to an order is what is written on it. -/
def Logged (tr : List (Thread inp.N inp.total_customers × St inp.N inp.total_customers))
    (s : St inp.N inp.total_customers) (i : ℕ) : Prop :=
  ((s.orders i).icecream_machine_id = -1 ∧ starts tr i = [] ∧ completions tr i = []) ∨
    ∃ m : Fin inp.N, (s.orders i).icecream_machine_id = (m : ℕ) + 1 ∧
      starts tr i = [(m, (s.orders i).start_time_of_order)] ∧
      completions tr i = if (s.orders i).is_completed then [(m, ready (s.orders i))] else []

lemma Logged.congr {tr' : List (Thread inp.N inp.total_customers × St inp.N inp.total_customers)}
    {s' : St inp.N inp.total_customers} (h : Logged tr s i)
    (hc : core (s'.orders i) = core (s.orders i)) (h1 : starts tr' i = starts tr i)
    (h2 : completions tr' i = completions tr i) : Logged tr' s' i := by
  obtain ⟨e1, e2, e3, e4⟩ := core_eq hc
  unfold Logged
  simp only [ready, e1, e2, e3, e4, h1, h2]
  exact h

lemma rejects_core (m : Fin inp.N) (l : List ℕ) (s : St inp.N inp.total_customers) (j : ℕ) :
    core ((rejects m l s).orders j) = core (s.orders j) := by
  induction l generalizing s with
  | nil => rfl
  | cons i l ih =>
    refine (ih (reject m i s)).trans ?_
    by_cases hji : j = i
    · subst hji; exact written_core (written m s j)
    · rw [(touches_reject m i s).others j (by simpa using hji)]

lemma Logged.worker (h : House inp tr s) (hl : ∀ i, Logged tr s i) (i : ℕ) :
    Logged (tr ++ [(Thread.worker m, s)]) (icecream_machine_func m s) i := by
  have hstop : ∀ s' : St inp.N inp.total_customers, (stop m s').orders = s'.orders := fun s' => by
    unfold stop
    split_ifs <;> rfl
  have hwork : Logged (tr ++ [(Thread.worker m, s)]) (work m s) i := by
    have hw := working m s
    generalize work m s = s' at hw ⊢
    cases hw with
    | nothing hs hf hidle =>
      exact (hl i).congr rfl (by simp [starts_worker, hs]) (by simp [completions_worker, hf])
    | scan h0 h1 hb hs hf =>
      exact (hl i).congr (rejects_core m _ s i) (by simp [starts_worker, hs])
        (by simp [completions_worker, hf])
    | start j h0 h1 hb hs hf hj hlt =>
      have hcore := rejects_core m (List.range j) s
      by_cases hij : i = j
      · subst hij
        have hw := (waiting_iff.mp (by
          simp only [startable, Bool.and_eq_true] at hj
          exact hj.1.1)).2.1
        rcases hl i with ⟨-, h2, h3⟩ | ⟨k, h2, -⟩
        · have hopen : (s.orders i).is_completed = false := by
            rcases h.known i with h4 | ⟨k, h4⟩
            · exact h4.completed
            · have h5 := h4.id
              omega
          have hnow : (rejects m (List.range i) s).ticks = s.ticks :=
            (touches_rejects m (List.range i) s).ticks
          have hopen' : ((rejects m (List.range i) s).orders i).is_completed = false :=
            (core_eq (hcore i)).2.2.1.trans hopen
          refine Or.inr ⟨m, ?_, ?_, ?_⟩
          · simp [start_order, St.setMachine, St.setOrder]
          · simp [starts_worker, hs, h2, start_order, St.setMachine, St.setOrder, hnow]
          · simp [completions_worker, hf, h3, start_order, St.setMachine, St.setOrder, hopen']
        · omega
      · have hord : (start_order m j (rejects m (List.range j) s)).orders i =
            (rejects m (List.range j) s).orders i := by
          simp [start_order, St.setMachine, St.setOrder, Function.update_of_ne hij]
        refine (hl i).congr (by rw [hord]; exact hcore i) ?_ (by simp [completions_worker, hf])
        simp [starts_worker, hs, Ne.symm hij]
    | complete j h0 h1 hb ho hs hf =>
      by_cases hij : i = j
      · subst hij
        obtain ⟨hst, hopen⟩ := h.holds hb ho
        have hr : ready (s.orders i) = s.ticks := by
          simp only [finished, ho] at hf
          rw [if_pos ⟨h0, h1, hb⟩] at hf
          have h2 := (Option.filter_eq_some_iff.mp hf).2
          rwa [beq_iff_eq] at h2
        have hid := hst.id
        rcases hl i with ⟨h2, -⟩ | ⟨k, h2, h3, h4⟩
        · omega
        · obtain rfl : k = m := Fin.ext (by omega)
          unfold ready at hr
          refine Or.inr ⟨k, ?_, ?_, ?_⟩
          · simpa [complete_order, St.setMachine, St.setOrder] using hid
          · simp [starts_worker, hs, h3, complete_order, St.setMachine, St.setOrder]
          · simp [completions_worker, hf, h4, hopen, complete_order, St.setMachine, St.setOrder,
              ready, hr]
      · have hord : (complete_order m j s).orders i = s.orders i := by
          simp [complete_order, St.setMachine, St.setOrder, Function.update_of_ne hij]
        refine (hl i).congr (by rw [hord]) (by simp [starts_worker, hs]) ?_
        simp [completions_worker, hf, Ne.symm hij]
  rw [machine_turn]
  exact hwork.congr (by rw [hstop]) rfl rfl

lemma visit_core (h : House inp tr s) (hd : Next tr s (.customer c)) (i : ℕ) :
    core ((customer_func c s).orders i) = core (s.orders i) := by
  have hbody : core ((visit c s).orders i) = core (s.orders i) := by
    have hv := h.visited hd
    generalize visit c s = s' at hv ⊢
    cases hv with
    | full => exact marked_core (f := noSeat) (fun _ => rfl) _ _ i
    | short => exact marked_core (f := shortAtPlacement) (fun _ => rfl) _ _ i
    | seated => exact marked_core (f := placed s.ticks) (fun _ => rfl) _ _ i
    | withdrawn => exact marked_core (withdrawn_core _ _) _ _ i
    | served => rfl
    | nothing => rfl
  rw [customer_turn]
  split_ifs
  · exact hbody
  · exact hbody

lemma Logged.of_mem (h : House inp tr s) (hl : Logged tr s i) {t : ℤ} (hmem : (m, t) ∈ starts tr i) :
    Started inp tr s i m ∧ t = (s.orders i).start_time_of_order ∧
      completions tr i = if (s.orders i).is_completed then [(m, ready (s.orders i))] else [] := by
  rcases hl with ⟨-, h1, -⟩ | ⟨k, hid, h1, h2⟩
  · simp [h1] at hmem
  · rw [h1, List.mem_singleton, Prod.mk.injEq] at hmem
    obtain ⟨rfl, rfl⟩ := hmem
    obtain ⟨k, hst⟩ := (h.known i).resolve_left fun hu => by
      have h3 := hu.id
      omega
    obtain rfl : m = k := by
      have h3 := hst.id
      rw [hid] at h3
      exact Fin.ext (by omega)
    exact ⟨hst, rfl, h2⟩

end Xv6.ParlourService
