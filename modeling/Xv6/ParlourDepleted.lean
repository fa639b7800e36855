import Xv6.ParlourCounts

/-!
What is left of the toppings when the parlour closes.

It closes when the quantity of every topping is `0`, or `-1`, the value of an unlimited one. So it
does when no topping is limited; and an order for which a topping is short, once a machine has
started on it, leaves that topping at `-1` too.
-/

namespace Xv6.ParlourDepleted

open Xv6.Ring Xv6.Rounds Xv6.Crew Xv6.Parlour Xv6.Turns Xv6.ParlourTurns Xv6.ParlourHouse
open Xv6.ParlourService Xv6.ParlourCounts

variable {inp : Input} {tr : List (Thread inp.N inp.total_customers ×
    St inp.N inp.total_customers)} {s s' : St inp.N inp.total_customers}
  {m : Fin inp.N} {c : Fin inp.total_customers} {t : Thread inp.N inp.total_customers}

/-- Some topping is limited. -/
def Limited (inp : Input) : Prop := ∃ j < inp.toppings.length, inp.toppings.getD j 0 ≠ -1

instance (inp : Input) : Decidable (Limited inp) :=
  inferInstanceAs (Decidable (∃ j < _, _))

/-- Some topping is limited, and of those that are nothing is left. -/
def Depleted (inp : Input) (s : St inp.N inp.total_customers) : Prop :=
  Limited inp ∧ ∀ j < inp.toppings.length, inp.toppings.getD j 0 ≠ -1 → s.toppings j = 0

instance (inp : Input) (s : St inp.N inp.total_customers) : Decidable (Depleted inp s) :=
  inferInstanceAs (Decidable (_ ∧ ∀ j < _, _))

/-- Some topping is limited, and the orders that machines have started on use no more of any than
there was. -/
def Sold (inp : Input) (s : St inp.N inp.total_customers) : Prop :=
  Limited inp ∧ ∀ j < inp.toppings.length, inp.toppings.getD j 0 ≠ -1 →
    used s j ≤ inp.toppings.getD j 0

/-- The turn closes the parlour. -/
def Closes (t : Thread inp.N inp.total_customers) (s : St inp.N inp.total_customers) : Prop :=
  s.super = false ∧ ((prog inp).body t s).super = true

/-- The quantity of a limited topping: what the started orders have left, or `-1` if they use more
than there was. A quantity below `-1` becomes no more. -/
structure Tally (inp : Input) (s : St inp.N inp.total_customers) : Prop where
  limited : ∀ j < inp.toppings.length, 0 ≤ inp.toppings.getD j 0 →
    (0 ≤ s.toppings j ∧ inp.toppings.getD j 0 - s.toppings j = used s j) ∨
      (s.toppings j = -1 ∧ inp.toppings.getD j 0 < used s j)
  le : ∀ j, s.toppings j ≤ inp.toppings.getD j 0

lemma Tally.congr (h : Tally inp s) (h1 : s'.toppings = s.toppings)
    (h2 : ∀ j, used s' j = used s j) : Tally inp s' := by
  refine ⟨fun j hj h0 => ?_, fun j => ?_⟩
  · rw [h1, h2]; exact h.limited j hj h0
  · rw [h1]; exact h.le j

lemma tally_start (inp : Input) : Tally inp (start inp) := by
  refine ⟨fun j hj h0 => Or.inl ?_, fun j => le_rfl⟩
  exact (stocked_start inp).inStock j hj h0

lemma Tally.machine (h : Tally inp s) : Tally inp (icecream_machine_func m s) := by
  rcases toppings_machine m s with ⟨-, h1, h2⟩ | ⟨i, -, -, h1, h2⟩
  · exact h.congr h1 h2
  · refine ⟨fun j hj h0 => ?_, fun j => ?_⟩
    · rw [h1, h2]
      generalize (s.orders i).icecreams.topping = ts
      have hcount : (0 : ℤ) ≤ ts.count j := Int.natCast_nonneg _
      rcases h.limited j hj h0 with ⟨h3, h4⟩ | ⟨h3, h4⟩
      · by_cases henough : (ts.count j : ℤ) ≤ s.toppings j
        · rw [use_toppings_enough _ _ henough]
          exact Or.inl ⟨by omega, by omega⟩
        · rw [use_toppings_short _ _ (by omega) (by omega)]
          exact Or.inr ⟨rfl, by omega⟩
      · rw [use_toppings_short _ _ (by omega) (by omega)]
        exact Or.inr ⟨rfl, by omega⟩
    · rw [h1]
      exact (use_toppings_le _ _ j).trans (h.le j)

lemma super_machine (m : Fin inp.N) (s : St inp.N inp.total_customers) :
    (icecream_machine_func m s).super = s.super := by
  have hstop : ∀ s' : St inp.N inp.total_customers, (stop m s').super = s'.super := fun s' => by
    unfold stop
    split_ifs <;> rfl
  rw [machine_turn, hstop]
  have hw := working m s
  generalize work m s = s' at hw ⊢
  cases hw with
  | nothing => rfl
  | scan => exact (touches_rejects m _ s).super
  | start i => exact (touches_rejects m (List.range i) s).super
  | complete => rfl

/-- When the parlour closes, every quantity is `0` or `-1`, and stays so. -/
lemma Closes.none_left (h : Closes t s) (hh : House inp tr s) (hd : Next tr s t) :
    (∀ j < inp.toppings.length, s.toppings j = -1 ∨ s.toppings j = 0) ∧
      ((prog inp).body t s).toppings = s.toppings := by
  obtain ⟨h0, h1⟩ := h
  cases t with
  | worker m =>
    rw [show (prog inp).body (.worker m) s = icecream_machine_func m s from rfl, super_machine,
      h0] at h1
    cases h1
  | customer c =>
    refine ⟨?_, (toppings_customer hh hd).1⟩
    change (customer_func c s).super = true at h1
    have hbody : (visit c s).super = s.super ∧ (visit c s).T = s.T ∧
        (visit c s).toppings = s.toppings := by
      have hv := hh.visited hd
      generalize visit c s = s' at hv ⊢
      cases hv <;> exact ⟨rfl, rfl, rfl⟩
    rw [customer_turn] at h1
    split_ifs at h1
    · rw [tick] at h1
      simp only [hbody.1, hbody.2.1, hbody.2.2, h0, Bool.false_or, List.all_eq_true,
        List.mem_range, Bool.or_eq_true, beq_iff_eq, House.T_eq hh] at h1
      exact h1
    · rw [hbody.1, h0] at h1
      cases h1

lemma Tally.depleted_iff (h : Tally inp s)
    (hnone : ∀ j < inp.toppings.length, s.toppings j = -1 ∨ s.toppings j = 0) :
    Depleted inp s ↔ Sold inp s := by
  refine and_congr_right fun _ => forall₃_congr fun j hj hlim => ?_
  have hle := h.le j
  have hnow := hnone j hj
  by_cases h0 : 0 ≤ inp.toppings.getD j 0
  · rcases h.limited j hj h0 with ⟨h1, h2⟩ | ⟨h1, h2⟩ <;> omega
  · omega

lemma depleted_keep (inp : Input) :
    Keeps (prog inp) pos (round (W := inp.N) inp.customers_pos).length St.ticks (fun _ _ => True)
      (fun tr s => (House inp tr s ∧ Tally inp s) ∧
        ∀ e ∈ tr, Closes e.1 e.2 →
          (Depleted inp ((prog inp).body e.1 e.2) ↔ Sold inp e.2)) := by
  rintro tr s t hd hC ⟨⟨hh, h⟩, hpast⟩
  refine ⟨⟨house_keeps inp (fun _ _ => True) tr s t hd hC hh, ?_⟩, fun e he hclose => ?_⟩
  · cases t with
    | worker m => exact h.machine
    | customer c =>
      obtain ⟨h1, h2⟩ := toppings_customer hh hd
      exact h.congr h1 h2
  · rcases List.mem_append.mp he with he | he
    · exact hpast e he hclose
    · obtain rfl := List.mem_singleton.mp he
      obtain ⟨hnone, hsame⟩ := hclose.none_left hh hd
      unfold Depleted
      rw [hsame]
      exact h.depleted_iff hnone

/-- **When the parlour closes for depletion**: in a run it closes only with a limited topping and
with every limited topping at `0`, iff, whenever it closes, some topping is limited and the orders
started on use no more of any limited topping than there was. -/
theorem closes_depleted_iff_sold (inp : Input)
    (sched : List (Option (Thread inp.N inp.total_customers))) :
    (∀ e ∈ (exec inp sched).trace, Closes e.1 e.2 → Depleted inp ((prog inp).body e.1 e.2)) ↔
      ∀ e ∈ (exec inp sched).trace, Closes e.1 e.2 → Sold inp e.2 := by
  have h := (holds (numbered_parlour inp) (ticks_parlour inp) (depleted_keep inp) rfl
    ⟨⟨house_start inp, tally_start inp⟩, nofun⟩ sched).holds
  exact forall₃_congr fun e he hclose => h.2 e he hclose

/-- One machine and one unlimited topping. -/
def plentyInput : Input where
  machines := [(0, 9)]
  K := 10
  toppings := [-1]
  arrivals := [⟨0, [⟨1, [0]⟩]⟩]
  machines_pos := by decide
  arrivals_pos := by decide

/-- With unlimited toppings only, and with a topping of which too much was used, the parlour closes
in the first tick. -/
theorem closes_undepleted :
    ((exec plentyInput (laps plentyInput 1)).shared.super = true ∧
      ¬ Depleted plentyInput (exec plentyInput (laps plentyInput 1)).shared) ∧
    ((exec twiceInput (laps twiceInput 1)).shared.super = true ∧
      ¬ Depleted twiceInput (exec twiceInput (laps twiceInput 1)).shared) := by
  refine ⟨⟨?_, ?_⟩, ?_, ?_⟩ <;> decide +kernel

end Xv6.ParlourDepleted
