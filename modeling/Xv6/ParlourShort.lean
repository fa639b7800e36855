import Xv6.ParlourClosing

/-!
What a machine does about an order for which a topping is short.

It enters the rejection in the table of votes, at the row of its id, which is the row of the next
machine, and behind the last row for a machine with the highest id. It rejects the order only where
that entry is still free. So the order is not rejected when the next machine has voted against it
for lack of time.
-/

namespace Xv6.ParlourShort

open Xv6.Ring Xv6.Rounds Xv6.Crew Xv6.Parlour Xv6.Turns Xv6.ParlourTurns Xv6.ParlourHouse
open Xv6.ParlourService Xv6.ParlourClosing

def MAX_ICECREAM_MACHINES : ℕ := 10

variable {N C : ℕ} {m : Fin N} {s : St N C} {i j : ℕ} {l : List ℕ}

/-- The machine is open and idle. -/
def Idle (m : Fin N) (s : St N C) : Prop :=
  (s.icecream_machines m).start_time ≤ s.ticks ∧ s.ticks < (s.icecream_machines m).end_time ∧
    (s.icecream_machines m).is_busy = false

instance (m : Fin N) (s : St N C) : Decidable (Idle m s) :=
  inferInstanceAs (Decidable (_ ∧ _ ∧ _))

/-- The machine could not finish the order in time. -/
def late (m : Fin N) (s : St N C) (i : ℕ) : Bool :=
  waiting s i &&
    decide ((s.icecream_machines m).end_time ≤ (s.orders i).icecreams.time_to_finish s.ticks)

/-- It could, but some topping is short. -/
def lacking (m : Fin N) (s : St N C) (i : ℕ) : Bool :=
  waiting s i &&
    decide ((s.orders i).icecreams.time_to_finish s.ticks < (s.icecream_machines m).end_time) &&
    !s.possible ((s.orders i).icecreams.topping.take s.T)

/-- In its turn the machine examines the order, before it starts on another one, and finds a
topping short. -/
def Short (m : Fin N) (s : St N C) (i : ℕ) : Prop :=
  Idle m s ∧ i < s.total_orders ∧ (∀ j, j < i → startable m s j = false) ∧ lacking m s i = true

instance (m : Fin N) (s : St N C) (i : ℕ) : Decidable (Short m s i) :=
  inferInstanceAs (Decidable (_ ∧ _ ∧ (∀ j, j < i → _) ∧ _))

/-- The entries of `machine_reject_which_order`, by row and column, that a scan of `k` orders from
`i` on reads and writes. -/
def accesses (m : Fin N) : ℕ → ℕ → St N C → List (ℕ × ℕ)
  | 0, _, _ => []
  | k + 1, i, s =>
    let o := s.orders i
    if o.is_to_considered && o.icecream_machine_id == -1 && o.is_placed != -1 then
      if (s.icecream_machines m).end_time ≤ o.icecreams.time_to_finish s.ticks then
        (m.val, i) :: accesses m k (i + 1) (reject_time m i s)
      else if s.possible (o.icecreams.topping.take s.T) then []
      else (m + 1, i) :: accesses m k (i + 1) (reject_toppings m i s)
    else accesses m k (i + 1) s

/-- The entries that the machine reads and writes in its turn. -/
def entries (m : Fin N) (s : St N C) : List (ℕ × ℕ) :=
  if Idle m s then accesses m s.total_orders 0 s else []

/-! ### The order -/

lemma lacking_iff : lacking m s i = true ↔ waiting s i = true ∧
    ¬ (s.icecream_machines m).end_time ≤ (s.orders i).icecreams.time_to_finish s.ticks ∧
    ¬ s.possible ((s.orders i).icecreams.topping.take s.T) = true := by
  simp [lacking, and_assoc]

lemma not_startable (h : lacking m s i = true) : startable m s i = false := by
  have hp := (lacking_iff.mp h).2.2
  simp [startable, hp]

/-- The rejection for want of a topping. -/
def shortAtPreparation (o : Order) : Order :=
  { o with rejected_due_to_is_atpreparation := true, rejected := true, is_to_considered := false }

lemma reject_lacking (h : lacking m s i = true) : (reject m i s).orders i =
    if s.machine_reject_which_order (m + 1) i then s.orders i
    else shortAtPreparation (s.orders i) := by
  obtain ⟨hw, ht, hp⟩ := lacking_iff.mp h
  rw [reject, if_pos hw, if_neg ht, if_neg hp, reject_toppings]
  split_ifs
  · rfl
  · simp [St.setOrder, shortAtPreparation]

lemma rejects_lacking (hl : l.Nodup) (hi : i ∈ l) (h : lacking m s i = true) :
    (rejects m l s).orders i = if s.machine_reject_which_order (m + 1) i then s.orders i
      else shortAtPreparation (s.orders i) := by
  obtain ⟨l1, h1, hsplit⟩ := rejects_orders m s hl hi
  have ht := touches_rejects m l1 s
  have hT : (rejects m l1 s).T = s.T := congrArg Shape.T ht.shape
  have hthere : lacking m (rejects m l1 s) i = true := by
    rw [← h]
    simp only [lacking, waiting, St.possible, ht.others i h1, ht.ticks, ht.machines, ht.toppings, hT]
  rw [hsplit, reject_lacking hthere, table_rejects m s h1, ht.others i h1]

lemma orders_stop (m : Fin N) (s : St N C) : (stop m s).orders = s.orders := by
  unfold stop
  split_ifs <;> rfl

/-- **A shortage found**: the order is rejected where the entry is free, else nothing happens. -/
lemma Short.turn (h : Short m s i) : (icecream_machine_func m s).orders i =
    if s.machine_reject_which_order (m + 1) i then s.orders i
    else shortAtPreparation (s.orders i) := by
  obtain ⟨⟨h0, h1, hb⟩, hi, hbefore, hlack⟩ := h
  have hwork : work m s = examine m s.total_orders 0 s := by
    rw [work, if_pos ⟨h0, h1⟩, if_neg (by simp [hb])]
  rw [machine_turn, orders_stop, hwork, examine_eq, ← List.range_eq_range']
  cases hf : (List.range s.total_orders).find? (startable m s) with
  | none => exact rejects_lacking List.nodup_range (List.mem_range.mpr hi) hlack
  | some k =>
    have hk : startable m s k = true := List.find?_some hf
    have hik : i < k := by
      rcases Nat.lt_trichotomy i k with hlt | rfl | hlt
      · exact hlt
      · rw [not_startable hlack] at hk
        cases hk
      · rw [hbefore k hlt] at hk
        cases hk
    dsimp only
    rw [Nat.sub_zero, ← List.range_eq_range',
      ← rejects_lacking List.nodup_range (List.mem_range.mpr hik) hlack]
    simp [start_order, St.setOrder, St.setMachine, Function.update_of_ne (Nat.ne_of_lt hik)]

lemma Short.rejected_iff (h : Short m s i) :
    (((icecream_machine_func m s).orders i).rejected = true ∧
      ((icecream_machine_func m s).orders i).is_to_considered = false) ↔
    s.machine_reject_which_order (m + 1) i = false := by
  have hopen : (s.orders i).is_to_considered = true :=
    (waiting_iff.mp (lacking_iff.mp h.2.2.2).1).1
  rw [h.turn]
  cases hv : s.machine_reject_which_order (m + 1) i with
  | true => simp [hopen]
  | false => simp [shortAtPreparation]

/-! ### The rows -/

/-- What a scan reads and writes: for an order that is too late the row of the machine, for one that
lacks a topping the row after it. -/
lemma mem_accesses (m : Fin N) (k i : ℕ) (s : St N C) (e : ℕ × ℕ) : e ∈ accesses m k i s ↔
    ∃ j, i ≤ j ∧ j < i + k ∧ (∀ g, i ≤ g → g < j → startable m s g = false) ∧
      ((late m s j = true ∧ e = (m.val, j)) ∨ (lacking m s j = true ∧ e = (m.val + 1, j))) := by
  induction k generalizing i s with
  | zero =>
    refine ⟨fun h => absurd h List.not_mem_nil, ?_⟩
    rintro ⟨j, h1, h2, -⟩
    omega
  | succ k ih =>
    -- an order that the machine starts on ends the scan
    cases hs : startable m s i with
    | true =>
      have hs' := hs
      simp only [startable, Bool.and_eq_true, decide_eq_true_eq] at hs'
      obtain ⟨⟨hw, ht⟩, hp⟩ := hs'
      have hnone : accesses m (k + 1) i s = [] := by
        unfold accesses
        dsimp only
        rw [if_pos (by exact hw), if_neg (by omega), if_pos hp]
      rw [hnone]
      refine ⟨fun h => absurd h List.not_mem_nil, ?_⟩
      rintro ⟨j, h1, -, hbefore, hj⟩
      obtain rfl : j = i := by
        by_contra hne
        rw [hbefore i (le_refl i) (by omega)] at hs
        cases hs
      rcases hj with ⟨hlate, -⟩ | ⟨hlack, -⟩
      · simp only [late, Bool.and_eq_true, decide_eq_true_eq] at hlate
        omega
      · rw [not_startable hlack] at hs
        cases hs
    | false =>
      have hstep : e ∈ accesses m (k + 1) i s ↔ ((late m s i = true ∧ e = (m.val, i)) ∨
          (lacking m s i = true ∧ e = (m.val + 1, i))) ∨
            e ∈ accesses m k (i + 1) (reject m i s) := by
        rw [accesses, reject]
        by_cases hw : waiting s i = true
        · rw [if_pos (by exact hw), if_pos hw]
          by_cases ht : (s.icecream_machines m).end_time ≤
              (s.orders i).icecreams.time_to_finish s.ticks
          · have hlate : late m s i = true := by simp [late, hw, ht]
            have hlack : ¬ lacking m s i = true := fun h => (lacking_iff.mp h).2.1 ht
            rw [if_pos ht, if_pos ht, List.mem_cons]
            simp [hlate, hlack]
          · have hp : ¬ s.possible ((s.orders i).icecreams.topping.take s.T) = true := by
              intro hp
              simp only [startable, hw, hp, Bool.and_true, Bool.true_and,
                decide_eq_false_iff_not] at hs
              omega
            have hlate : ¬ late m s i = true := by simp [late, ht]
            have hlack : lacking m s i = true := lacking_iff.mpr ⟨hw, ht, hp⟩
            rw [if_neg ht, if_neg ht, if_neg hp, if_neg hp, List.mem_cons]
            simp [hlate, hlack]
        · have hlate : ¬ late m s i = true := by simp [late, hw]
          have hlack : ¬ lacking m s i = true := fun h => hw (lacking_iff.mp h).1
          rw [if_neg (by exact hw), if_neg hw]
          simp [hlate, hlack]
      have ht := touches_reject m i s
      have hT : (reject m i s).T = s.T := congrArg Shape.T ht.shape
      -- what the machine finds behind order `i` is not affected
      have hsame : ∀ g, i < g → startable m (reject m i s) g = startable m s g ∧
          late m (reject m i s) g = late m s g ∧ lacking m (reject m i s) g = lacking m s g := by
        intro g hg
        have hne : g ∉ [i] := by simp; omega
        refine ⟨ht.startable_eq hne m, ?_, ?_⟩ <;>
          simp only [late, lacking, waiting, St.possible, ht.others g hne, ht.ticks, ht.machines,
            ht.toppings, hT]
      rw [hstep, ih]
      constructor
      · rintro (hi | ⟨j, h1, h2, hbefore, hj⟩)
        · exact ⟨i, le_refl i, by omega, fun g h1 h2 => by omega, hi⟩
        · rw [(hsame j (by omega)).2.1, (hsame j (by omega)).2.2] at hj
          refine ⟨j, by omega, by omega, fun g h3 h4 => ?_, hj⟩
          rcases Nat.eq_or_lt_of_le h3 with rfl | h5
          · exact hs
          · rw [← (hsame g h5).1]
            exact hbefore g h5 h4
      · rintro ⟨j, h1, h2, hbefore, hj⟩
        rcases Nat.eq_or_lt_of_le h1 with rfl | h3
        · exact Or.inl hj
        · refine Or.inr ⟨j, h3, by omega, fun g h4 h5 => ?_, ?_⟩
          · rw [(hsame g (by omega)).1]
            exact hbefore g (by omega) h5
          · rwa [(hsame j h3).2.1, (hsame j h3).2.2]

lemma mem_entries {e : ℕ × ℕ} (he : e ∈ entries m s) :
    e.1 = m.val ∨ (e.1 = m.val + 1 ∧ Short m s e.2) := by
  unfold entries at he
  split_ifs at he with hidle
  · obtain ⟨j, -, hj, hbefore, hcase⟩ := (mem_accesses m _ _ s e).mp he
    rcases hcase with ⟨-, rfl⟩ | ⟨hlack, rfl⟩
    · exact Or.inl rfl
    · exact Or.inr ⟨rfl, hidle, by omega, fun g hg => hbefore g (Nat.zero_le g) hg, hlack⟩
  · cases he

lemma Short.entry (h : Short m s i) : (m.val + 1, i) ∈ entries m s := by
  obtain ⟨hidle, hi, hbefore, hlack⟩ := h
  rw [entries, if_pos hidle, mem_accesses]
  exact ⟨i, Nat.zero_le i, by omega, fun g _ hg => hbefore g hg, Or.inr ⟨hlack, rfl⟩⟩

/-- A turn of a machine rejects every order for which it finds a topping short, and keeps to the row
of the machine and to the table. -/
def Handled : Thread N C → St N C → Prop
  | .worker m, s =>
    (∀ i, i < s.total_orders → Short m s i →
      ((icecream_machine_func m s).orders i).rejected = true ∧
        ((icecream_machine_func m s).orders i).is_to_considered = false) ∧
    ∀ e ∈ entries m s, e.1 < MAX_ICECREAM_MACHINES ∧ e.1 = m.val
  | .customer _, _ => True

instance (t : Thread N C) (s : St N C) : Decidable (Handled t s) :=
  match t with
  | .worker _ => inferInstanceAs (Decidable ((∀ i, i < _ → _ → _) ∧ ∀ e ∈ _, _))
  | .customer _ => isTrue trivial

/-- No machine finds a topping short in its turn. -/
def Supplied : Thread N C → St N C → Prop
  | .worker m, s => ∀ i, i < s.total_orders → ¬ Short m s i
  | .customer _, _ => True

instance (t : Thread N C) (s : St N C) : Decidable (Supplied t s) :=
  match t with
  | .worker _ => inferInstanceAs (Decidable (∀ i, i < _ → ¬ _))
  | .customer _ => isTrue trivial

lemma handled_iff (hN : N ≤ MAX_ICECREAM_MACHINES) (t : Thread N C) (s : St N C) :
    Handled t s ↔ Supplied t s := by
  cases t with
  | customer c => exact Iff.rfl
  | worker m =>
    constructor
    · intro h i hi hshort
      have hrow := (h.2 _ hshort.entry).2
      exact absurd hrow (Nat.succ_ne_self m.val)
    · intro h
      refine ⟨fun i hi hshort => absurd hshort (h i hi), fun e he => ?_⟩
      rcases mem_entries he with hrow | ⟨-, hshort⟩
      · exact ⟨by have := m.isLt; omega, hrow⟩
      · exact absurd hshort (h e.2 hshort.2.1)

/-- **When shortages are handled**: in a run every turn handles them and keeps to the row of its
machine, iff no turn finds a topping short. An order for which one does is rejected at once iff the
entry in the next row is free, and the turn leaves the table iff its machine is the last that the
table has a row for. -/
theorem shortages_handled_iff (inp : Input) (hN : inp.N ≤ MAX_ICECREAM_MACHINES)
    (sched : List (Option (Thread inp.N inp.total_customers))) :
    ((∀ e ∈ (exec inp sched).trace, Handled e.1 e.2) ↔
      ∀ e ∈ (exec inp sched).trace, Supplied e.1 e.2) ∧
    ∀ e ∈ (exec inp sched).trace, ∀ m i, e.1 = .worker m → Short m e.2 i →
      ((((icecream_machine_func m e.2).orders i).rejected = true ∧
          ((icecream_machine_func m e.2).orders i).is_to_considered = false) ↔
        e.2.machine_reject_which_order (m + 1) i = false) ∧
      ((∃ a ∈ entries m e.2, MAX_ICECREAM_MACHINES ≤ a.1) ↔
        m.val + 1 = MAX_ICECREAM_MACHINES) := by
  refine ⟨forall₂_congr fun e _ => handled_iff hN e.1 e.2, fun e _ m i _ hshort => ?_⟩
  refine ⟨hshort.rejected_iff, fun ⟨a, ha, hrow⟩ => ?_, fun hlast => ?_⟩
  · have hm := m.isLt
    rcases mem_entries ha with h | ⟨h, -⟩ <;> omega
  · exact ⟨_, hshort.entry, by dsimp only; omega⟩

/-- Three machines and one unit of a topping that the second and the third customer both want. The
first machine opens late, and the second does not have the time. -/
def voteInput : Input where
  machines := [(1, 9), (0, 2), (0, 9)]
  K := 10
  toppings := [1, 1]
  arrivals := [⟨50, [⟨1, []⟩]⟩, ⟨0, [⟨3, [0]⟩]⟩, ⟨0, [⟨3, [0]⟩]⟩]
  machines_pos := by decide
  arrivals_pos := by decide

/-- As long as the first machine is closed nothing is amiss. -/
theorem shortages_handled_first : (exec voteInput (laps voteInput 1)).trace ≠ [] ∧
    ∀ e ∈ (exec voteInput (laps voteInput 1)).trace, Handled e.1 e.2 := by
  constructor
  · decide +kernel
  · refine (shortages_handled_iff voteInput (by decide) (laps voteInput 1)).1.mpr ?_
    decide +kernel

/-- When it opens, it finds the topping short for the last order, and leaves the order as it is:
the second machine has voted against it. -/
theorem shortage_ignored :
    (∃ e ∈ (exec voteInput (laps voteInput 2)).trace, e.1 = .worker ⟨0, by decide⟩ ∧
      Short ⟨0, by decide⟩ e.2 2 ∧ e.2.machine_reject_which_order 1 2 = true ∧
      ((icecream_machine_func ⟨0, by decide⟩ e.2).orders 2).rejected = false) ∧
    ¬ ∀ e ∈ (exec voteInput (laps voteInput 2)).trace, Handled e.1 e.2 := by
  constructor <;> decide +kernel

end Xv6.ParlourShort
