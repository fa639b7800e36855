import Xv6.CafeLedger

/-!
Orders that are never completed.

A barista compares the ticks since it took an order with the preparation time of the coffee, once
in each tick from the next one on. It never finds them equal if the preparation time is zero, as it
is for a coffee that is not on the menu, and then the barista is never free again.
-/

namespace Xv6.CafeStuck

open Xv6.Ring Xv6.Rounds Xv6.Crew Xv6.Cafe Xv6.CafeClose Xv6.CafeLedger Xv6.Turns

variable {inp : Input} {tr : List (Thread inp.B inp.N × St inp.B inp.N)}
  {s s' : St inp.B inp.N} {b : Fin inp.B} {i j : Fin inp.N}

/-- No order that was taken up and is not completed is past the tick in which it is ready. -/
def OnTime (s : St inp.B inp.N) : Prop :=
  ∀ i, (s.orders i).barista_id ≠ -1 → (s.orders i).is_completed = false →
    s.ticks ≤ ready (s.orders i)

instance (s : St inp.B inp.N) : Decidable (OnTime s) :=
  inferInstanceAs (Decidable (∀ _, _ → _ → _))

/-- The clock does not tick while an order is taken up that takes no time. -/
def Prepared : Thread inp.B inp.N → St inp.B inp.N → Prop
  | .worker _, _ => True
  | .customer j, s => j.val = 0 → ∀ i, (s.orders i).barista_id ≠ -1 →
      (s.orders i).customer.coffee.time_to_make ≠ 0

instance (t : Thread inp.B inp.N) (s : St inp.B inp.N) : Decidable (Prepared t s) :=
  match t with
  | .worker _ => isTrue trivial
  | .customer _ => inferInstanceAs (Decidable (_ → ∀ _, _ → _))

lemma time_nonneg (hmenu : ∀ c ∈ inp.menu, 0 ≤ c.time_to_make) (h : Ledger inp tr s)
    (i : Fin inp.N) : 0 ≤ (s.orders i).customer.coffee.time_to_make := by
  rw [h.coffees, h.accounts.customers]
  change 0 ≤ time_to_make inp.menu _
  unfold time_to_make
  split
  · rename_i c hc
    exact hmenu c (List.mem_of_find?_eq_some hc)
  · exact le_refl 0

/-- A barista takes an order in time and finishes at most its own. -/
lemma OnTime.worker (hmenu : ∀ c ∈ inp.menu, 0 ≤ c.time_to_make) (h : Ledger inp tr s)
    (ho : OnTime s) : OnTime (barista_func b s) := by
  intro i hid hc
  have htime := time_nonneg hmenu h i
  rw [ticks_barista_func]
  have hserv := serving h.hands b
  generalize barista_func b s = s' at hserv hid hc ⊢
  cases hserv with
  | nothing ht hf => exact ho i hid hc
  | take j hj hw hb =>
    by_cases hij : i = j
    · subst hij
      simp only [St.setOrder, St.setBarista, Function.update_self, ready]
      omega
    · simp only [St.setOrder, St.setBarista, Function.update_of_ne hij] at hid hc ⊢
      exact ho i hid hc
  | finish j ht hf hb hoj =>
    have hij : i ≠ j := by
      rintro rfl
      have hdone : ((finish_order b i s).orders i).is_completed = true := by
        unfold finish_order
        dsimp only
        split_ifs <;> simp [St.setOrder, St.setBarista]
      rw [hdone] at hc
      cases hc
    rw [finish_orders b s hij] at hid hc ⊢
    exact ho i hid hc

lemma visit_order (j i : Fin inp.N) (s : St inp.B inp.N) :
    ((customer_func j s).orders i).barista_id = (s.orders i).barista_id ∧
    ((customer_func j s).orders i).is_completed = (s.orders i).is_completed ∧
    ready ((customer_func j s).orders i) = ready (s.orders i) := by
  have hv := visit j s
  by_cases hij : i = j
  · subst hij
    refine ⟨hv.barista_id, hv.is_completed, ?_⟩
    rw [ready, hv.is_taken_up, hv.coffee]
    rfl
  · rw [hv.others i hij]
    exact ⟨rfl, rfl, rfl⟩

/-- When the clock ticks, the baristas have had their turns of this tick. -/
lemma OnTime.customer (hmenu : ∀ c ∈ inp.menu, 0 ≤ c.time_to_make) (h : Ledger inp tr s)
    (hd : Next tr s (.customer j)) (hp : Prepared (.customer j) s) (ho : OnTime s) :
    OnTime (customer_func j s) := by
  intro i hid hc
  have htime := time_nonneg hmenu h i
  obtain ⟨hid', hc', hready⟩ := visit_order j i s
  rw [hid'] at hid
  rw [hc'] at hc
  rw [hready, ticks_customer_func]
  have hnow := ho i hid hc
  split_ifs with hj
  · obtain ⟨b, ht⟩ := (h.entry i).resolve_left fun hn => hid hn.id
    have hlate : ready (s.orders i) ≠ s.ticks := by
      intro hr
      have h0 := hp hj i hid
      have hhad : Had inp tr (.worker b) (ready (s.orders i)) := by
        rw [Had, hd.turned_iff (numbered_cafe inp), hr]
        refine ⟨hd.nonneg, Or.inr ⟨rfl, ?_⟩⟩
        have hb := b.isLt
        have hi := i.isLt
        simp only [pos, if_pos hj]
        omega
      rw [ht.completed.mpr ⟨by omega, hhad⟩] at hc
      cases hc
    omega
  · omega

lemma prepared_of_onTime (h : Ledger inp tr s) (hd : Next tr s (.customer j))
    (ho : OnTime (customer_func j s)) : Prepared (.customer j) s := by
  intro hj i hid h0
  obtain ⟨b, ht⟩ := (h.entry i).resolve_left fun hn => hid hn.id
  have hc : (s.orders i).is_completed = false := by
    by_contra hn
    have hone := (ht.completed.mp (by simpa using hn)).1
    omega
  obtain ⟨hid', hc', hready⟩ := visit_order j i s
  have hnow := ho i (by rwa [hid']) (by rwa [hc'])
  rw [hready, ticks_customer_func, if_pos hj] at hnow
  have hsince := ((hd.turned_iff (numbered_cafe inp)).mp ht.since).2
  have htaken : ready (s.orders i) = (s.orders i).is_taken_up := by
    rw [ready, h0, Int.add_zero]
  omega

lemma onTime_keeps (inp : Input) (hmenu : ∀ c ∈ inp.menu, 0 ≤ c.time_to_make) :
    Keeps (prog inp) pos (round (W := inp.B) inp.N_pos).length St.ticks Prepared
      (fun tr s => Ledger inp tr s ∧ OnTime s) := by
  rintro tr s t hd hp ⟨h, ho⟩
  refine ⟨ledger_keeps inp Prepared tr s t hd hp h, ?_⟩
  cases t with
  | worker b => exact ho.worker hmenu h
  | customer j => exact ho.customer hmenu h hd hp

/-- **When no barista is stuck**: along a run no order that was taken up is past its time and not
completed, iff the clock never ticks while an order is taken up whose coffee takes no time, as one
does that is not on the menu. -/
theorem never_stuck_iff_prepared (inp : Input) (hmenu : ∀ c ∈ inp.menu, 0 ≤ c.time_to_make)
    (sched : List (Option (Thread inp.B inp.N))) :
    (∀ l, l <+: sched → OnTime (exec inp l).shared) ↔
      Along (prog inp) (AtBody Prepared) (init (prog inp) (start inp)) sched := by
  refine holds_iff_along (numbered_cafe inp) (ticks_cafe inp) (onTime_keeps inp hmenu) rfl
    ⟨ledger_start inp, fun i hid => absurd rfl hid⟩ (fun tr s h => h.2)
    (fun tr s t hd h ho => ?_) sched
  cases t with
  | worker b => trivial
  | customer j => exact prepared_of_onTime h.1 hd ho

/-- One barista, and one customer with patience for five ticks. -/
def oneInput (coffee : String) : Input where
  B := 1
  menu := [⟨"Espresso", 1⟩]
  arrivals := [⟨coffee, 0, 5⟩]
  B_pos := by decide
  arrivals_pos := by simp

/-- Three rounds. -/
def threeLaps (coffee : String) :
    List (Option (Thread (oneInput coffee).B (oneInput coffee).N)) :=
  let lap := List.replicate 6 (some (.worker ⟨0, (oneInput coffee).B_pos⟩)) ++
    List.replicate 6 (some (.customer ⟨0, (oneInput coffee).N_pos⟩))
  none :: (lap ++ lap ++ lap)

/-- Whoever orders from the menu is served. -/
theorem never_stuck_from_menu :
    OnTime (exec (oneInput "Espresso") (threeLaps "Espresso")).shared := by
  refine (never_stuck_iff_prepared (oneInput "Espresso") ?_ (threeLaps "Espresso")).mpr ?_ _
    List.prefix_rfl
  · simp [oneInput]
  · decide +kernel

/-- The barista takes an order for a coffee that is not on the menu in tick `1`; in tick `3` it is
still busy with it. -/
theorem stuck_off_menu :
    ¬ OnTime (exec (oneInput "Latte") (threeLaps "Latte")).shared ∧
    ((exec (oneInput "Latte") (threeLaps "Latte")).shared.orders
      ⟨0, (oneInput "Latte").N_pos⟩).is_taken_up = 1 ∧
    (exec (oneInput "Latte") (threeLaps "Latte")).shared.ticks = 3 := by
  refine ⟨?_, ?_, ?_⟩ <;> decide +kernel

end Xv6.CafeStuck
