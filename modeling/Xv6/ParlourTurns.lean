import Xv6.Rounds
import Xv6.Turns

/-!
What a turn can do in the parlour.

The scan of an idle machine over the orders is a number of rejections, each of which touches one
order, and at most one start. The turn of a customer does one thing at most: the customer is turned
away, sits down, withdraws its orders, or leaves with them. What the input fixes no turn changes.
-/

namespace Xv6.ParlourTurns

open Xv6.Ring Xv6.Rounds Xv6.Crew Xv6.Parlour Xv6.Turns

variable {N C : ℕ}

/-! ### What the input fixes -/

/-- The part of the state that no turn changes. -/
structure Shape (N C : ℕ) where
  K : ℤ
  T : ℕ
  total_orders : ℕ
  arrival : Fin C → ℤ
  wanted : Fin C → List Icecream
  ids : Fin C → List ℕ
  opens : Fin N → ℤ
  closes : Fin N → ℤ
  icecream : ℕ → Icecream

def shape (s : St N C) : Shape N C where
  K := s.K
  T := s.T
  total_orders := s.total_orders
  arrival := fun c => (s.customers c).arrival_time
  wanted := fun c => (s.customers c).icecreams
  ids := fun c => (s.customers c).order_id_s
  opens := fun m => (s.icecream_machines m).start_time
  closes := fun m => (s.icecream_machines m).end_time
  icecream := fun i => (s.orders i).icecreams

lemma shape_orders {s : St N C} {orders : ℕ → Order}
    (h : ∀ i, (orders i).icecreams = (s.orders i).icecreams) :
    shape { s with orders := orders } = shape s := by
  simp only [shape, h]

lemma shape_setOrder {s : St N C} {i : ℕ} {o : Order}
    (h : o.icecreams = (s.orders i).icecreams) : shape (s.setOrder i o) = shape s := by
  refine shape_orders fun j => ?_
  by_cases hj : j = i
  · subst hj; simpa using h
  · rw [Function.update_of_ne hj]

lemma shape_setMachine {s : St N C} {m : Fin N} {r : Machine}
    (h1 : r.start_time = (s.icecream_machines m).start_time)
    (h2 : r.end_time = (s.icecream_machines m).end_time) : shape (s.setMachine m r) = shape s := by
  have hm : ∀ k, (Function.update s.icecream_machines m r k).start_time =
      (s.icecream_machines k).start_time ∧ (Function.update s.icecream_machines m r k).end_time =
      (s.icecream_machines k).end_time := fun k => by
    by_cases hk : k = m
    · subst hk; simpa using ⟨h1, h2⟩
    · rw [Function.update_of_ne hk]; exact ⟨rfl, rfl⟩
  simp only [shape, St.setMachine, fun k => (hm k).1, fun k => (hm k).2]

lemma shape_setCustomer {s : St N C} {c : Fin C} {r : Customer}
    (h1 : r.arrival_time = (s.customers c).arrival_time)
    (h2 : r.icecreams = (s.customers c).icecreams)
    (h3 : r.order_id_s = (s.customers c).order_id_s) : shape (s.setCustomer c r) = shape s := by
  have hc : ∀ k, (Function.update s.customers c r k).arrival_time = (s.customers k).arrival_time ∧
      (Function.update s.customers c r k).icecreams = (s.customers k).icecreams ∧
      (Function.update s.customers c r k).order_id_s = (s.customers k).order_id_s := fun k => by
    by_cases hk : k = c
    · subst hk; simpa using ⟨h1, h2, h3⟩
    · rw [Function.update_of_ne hk]; exact ⟨rfl, rfl, rfl⟩
  simp only [shape, St.setCustomer, fun k => (hc k).1, fun k => (hc k).2.1, fun k => (hc k).2.2]

/-! ### The scan of an idle machine -/

/-- The order was placed, is open and no machine has it. -/
def waiting (s : St N C) (i : ℕ) : Bool :=
  (s.orders i).is_to_considered && (s.orders i).icecream_machine_id == -1 &&
    (s.orders i).is_placed != -1

lemma waiting_iff {s : St N C} {i : ℕ} : waiting s i = true ↔
    (s.orders i).is_to_considered = true ∧ (s.orders i).icecream_machine_id = -1 ∧
      (s.orders i).is_placed ≠ -1 := by
  simp [waiting, and_assoc]

/-- The machine can start on the order. -/
def startable (m : Fin N) (s : St N C) (i : ℕ) : Bool :=
  waiting s i &&
    decide ((s.orders i).icecreams.time_to_finish s.ticks < (s.icecream_machines m).end_time) &&
    s.possible ((s.orders i).icecreams.topping.take s.T)

/-- What the scan does to an order that the machine does not start on. -/
def reject (m : Fin N) (i : ℕ) (s : St N C) : St N C :=
  if waiting s i then
    if (s.icecream_machines m).end_time ≤ (s.orders i).icecreams.time_to_finish s.ticks then
      reject_time m i s
    else if s.possible ((s.orders i).icecreams.topping.take s.T) then s
    else reject_toppings m i s
  else s

def rejects (m : Fin N) (ids : List ℕ) (s : St N C) : St N C :=
  ids.foldl (fun s i => reject m i s) s

/-- Nothing is touched but the orders of the list, the counter and the table of rejections. -/
structure Touches (ids : List ℕ) (s s' : St N C) : Prop where
  ticks : s'.ticks = s.ticks
  stopped : s'.machines_stopped_working = s.machines_stopped_working
  sitting : s'.customers_sitting_in_parlour = s.customers_sitting_in_parlour
  super : s'.super = s.super
  toppings : s'.toppings = s.toppings
  machines : s'.icecream_machines = s.icecream_machines
  customers : s'.customers = s.customers
  shape : shape s' = shape s
  others : ∀ j, j ∉ ids → s'.orders j = s.orders j

lemma Touches.refl (ids : List ℕ) (s : St N C) : Touches ids s s :=
  ⟨rfl, rfl, rfl, rfl, rfl, rfl, rfl, rfl, fun _ _ => rfl⟩

lemma Touches.set {i : ℕ} {s s1 : St N C} (h : Touches [i] s s1) {o : Order}
    (ho : o.icecreams = (s1.orders i).icecreams) (k : ℕ) (q : ℕ → ℕ → Bool) :
    Touches [i] s { s1.setOrder i o with orders_considered := k, machine_reject_which_order := q } := by
  refine ⟨h.ticks, h.stopped, h.sitting, h.super, h.toppings, h.machines, h.customers,
    (shape_setOrder ho).trans h.shape, fun j hj => ?_⟩
  simp only [St.setOrder, Function.update_of_ne (List.ne_of_not_mem_cons hj)]
  exact h.others j hj

lemma touches_reject_time (m : Fin N) (i : ℕ) (s : St N C) : Touches [i] s (reject_time m i s) := by
  have hvote : Touches [i] s (if s.machine_reject_which_order m i then s else
      { s.setOrder i { s.orders i with
          rejected_due_to_no_machines := (s.orders i).rejected_due_to_no_machines + 1 } with
        machine_reject_which_order := Function.update s.machine_reject_which_order m
          (Function.update (s.machine_reject_which_order m) i true) }) := by
    split_ifs
    · exact .refl [i] s
    · exact (Touches.refl [i] s).set (by rfl) s.orders_considered _
  unfold reject_time
  dsimp only
  generalize (if s.machine_reject_which_order m i then s else _) = s1 at hvote ⊢
  split_ifs
  · exact hvote.set (by rfl) _ s1.machine_reject_which_order
  · exact hvote

lemma touches_reject_toppings (m : Fin N) (i : ℕ) (s : St N C) :
    Touches [i] s (reject_toppings m i s) := by
  unfold reject_toppings
  split_ifs
  · exact .refl [i] s
  · exact (Touches.refl [i] s).set (by rfl) _ _

lemma touches_reject (m : Fin N) (i : ℕ) (s : St N C) : Touches [i] s (reject m i s) := by
  unfold reject
  split_ifs
  · exact touches_reject_time m i s
  · exact .refl [i] s
  · exact touches_reject_toppings m i s
  · exact .refl [i] s

lemma Touches.trans {ids ids' : List ℕ} {s s1 s2 : St N C} (h : Touches ids s s1)
    (h' : Touches ids' s1 s2) : Touches (ids ++ ids') s s2 := by
  refine ⟨h'.ticks.trans h.ticks, h'.stopped.trans h.stopped, h'.sitting.trans h.sitting,
    h'.super.trans h.super, h'.toppings.trans h.toppings, h'.machines.trans h.machines,
    h'.customers.trans h.customers, h'.shape.trans h.shape, fun j hj => ?_⟩
  rw [List.mem_append, not_or] at hj
  exact (h'.others j hj.2).trans (h.others j hj.1)

lemma touches_rejects (m : Fin N) (ids : List ℕ) (s : St N C) :
    Touches ids s (rejects m ids s) := by
  induction ids generalizing s with
  | nil => exact .refl [] s
  | cons i ids ih => exact (touches_reject m i s).trans (ih (reject m i s))

lemma Touches.startable_eq {ids : List ℕ} {j : ℕ} {s s' : St N C} (h : Touches ids s s')
    (hj : j ∉ ids) (m : Fin N) : startable m s' j = startable m s j := by
  have hT : s'.T = s.T := congrArg Shape.T h.shape
  simp only [startable, waiting, St.possible, h.others j hj, h.ticks, h.machines, h.toppings, hT]

/-- The scan: rejections up to the first order that the machine can start on. -/
lemma examine_eq (m : Fin N) (k i : ℕ) (s : St N C) : examine m k i s =
    match (List.range' i k).find? (startable m s) with
    | none => rejects m (List.range' i k) s
    | some j => start_order m j (rejects m (List.range' i (j - i)) s) := by
  induction k generalizing i s with
  | zero => rfl
  | succ k ih =>
    have hrest : (List.range' (i + 1) k).find? (startable m (reject m i s)) =
        (List.range' (i + 1) k).find? (startable m s) := by
      refine List.find?_congr fun j hj => ?_
      have := (List.mem_range'_1.mp hj).1
      exact (touches_reject m i s).startable_eq (by simp; omega) m
    -- whether the machine starts on order `i`
    cases hs : startable m s i with
    | true =>
      have hs' := hs
      simp only [startable, Bool.and_eq_true, decide_eq_true_eq] at hs'
      obtain ⟨⟨hw, ht⟩, hp⟩ := hs'
      simp only [List.range'_succ, List.find?_cons, hs, Nat.sub_self, List.range'_zero, rejects,
        List.foldl_nil]
      unfold examine
      dsimp only
      rw [if_pos (by exact hw), if_neg (by omega), if_pos hp]
    | false =>
      have hstep : examine m (k + 1) i s = examine m k (i + 1) (reject m i s) := by
        rw [examine, reject]
        by_cases hw : waiting s i = true
        · rw [if_pos (by exact hw), if_pos hw]
          by_cases ht : (s.icecream_machines m).end_time ≤
              (s.orders i).icecreams.time_to_finish s.ticks
          · rw [if_pos ht, if_pos ht]
          · rw [if_neg ht, if_neg ht]
            have hp : ¬ s.possible ((s.orders i).icecreams.topping.take s.T) = true := by
              intro hp
              simp only [startable, hw, hp, Bool.and_true, Bool.true_and,
                decide_eq_false_iff_not] at hs
              omega
            rw [if_neg hp, if_neg hp]
        · rw [if_neg (by exact hw), if_neg hw]
      rw [hstep, ih, hrest]
      simp only [List.range'_succ, List.find?_cons, hs, rejects, List.foldl_cons]
      cases hf : (List.range' (i + 1) k).find? (startable m s) with
      | none => rfl
      | some j =>
        have hj := (List.mem_range'_1.mp (List.mem_of_find?_eq_some hf)).1
        have hlen : j - i = (j - (i + 1)) + 1 := by omega
        simp only [hlen, List.range'_succ, List.foldl_cons]

/-- What a rejection writes on the order: nothing, a vote, the last vote, or that a topping is
short. -/
inductive Written (s : St N C) (i : ℕ) : Order → Prop
  | same : Written s i (s.orders i)
  | vote (v : ℕ) (hw : waiting s i = true) (hv : v ≠ N) :
      Written s i { s.orders i with rejected_due_to_no_machines := v }
  | last (v : ℕ) (hw : waiting s i = true) (hv : v = N) :
      Written s i { s.orders i with
        rejected_due_to_no_machines := v, rejected := true, is_to_considered := false }
  | short (hw : waiting s i = true) :
      Written s i { s.orders i with
        rejected_due_to_is_atpreparation := true, rejected := true, is_to_considered := false }

lemma Written.eq_of_not_waiting {s : St N C} {i : ℕ} {o : Order} (h : Written s i o)
    (hn : ¬ waiting s i = true) : o = s.orders i := by
  cases h with
  | same => rfl
  | vote v hw => exact absurd hw hn
  | last v hw => exact absurd hw hn
  | short hw => exact absurd hw hn

lemma written (m : Fin N) (s : St N C) (i : ℕ) : Written s i ((reject m i s).orders i) := by
  unfold reject
  by_cases hw : waiting s i = true
  · rw [if_pos hw]
    split_ifs with ht hp
    · unfold reject_time
      dsimp only
      by_cases hv : s.machine_reject_which_order m i = true
      · rw [if_pos hv]
        by_cases hN : (s.orders i).rejected_due_to_no_machines = N
        · rw [if_pos hN]
          simpa [St.setOrder] using Written.last _ hw hN
        · rw [if_neg hN]
          exact .same
      · rw [if_neg hv]
        simp only [St.setOrder, Function.update_self]
        by_cases hN : (s.orders i).rejected_due_to_no_machines + 1 = N
        · rw [if_pos hN]
          simpa using Written.last _ hw hN
        · rw [if_neg hN]
          simpa using Written.vote _ hw hN
    · exact .same
    · unfold reject_toppings
      split_ifs with hv
      · exact .same
      · simpa [St.setOrder] using Written.short hw
  · rw [if_neg hw]
    exact .same

/-- The order that the machine starts on in its turn: the machine is open and idle. -/
def started (m : Fin N) (s : St N C) : Option ℕ :=
  if (s.icecream_machines m).start_time ≤ s.ticks ∧ s.ticks < (s.icecream_machines m).end_time ∧
      (s.icecream_machines m).is_busy = false then
    (List.range s.total_orders).find? (startable m s)
  else none

/-- The order that the machine completes in its turn. -/
def finished (m : Fin N) (s : St N C) : Option ℕ :=
  if (s.icecream_machines m).start_time ≤ s.ticks ∧ s.ticks < (s.icecream_machines m).end_time ∧
      (s.icecream_machines m).is_busy = true then
    (s.icecream_machines m).order.filter fun i =>
      (s.orders i).icecreams.time_to_finish (s.orders i).start_time_of_order == s.ticks
  else none

/-- The machine's order is ready. -/
def complete_order (m : Fin N) (i : ℕ) (s : St N C) : St N C :=
  { (s.setOrder i { s.orders i with
      is_completed := true
      is_to_considered := false }).setMachine m
        { s.icecream_machines m with is_busy := false, order := none } with
    orders_considered := s.orders_considered + 1 }

lemma shape_start_order (m : Fin N) (i : ℕ) (s : St N C) :
    shape (start_order m i s) = shape s := by
  have h : shape ((s.setOrder i { s.orders i with
      icecream_machine_id := m + 1
      start_time_of_order := s.ticks }).setMachine m
        { s.icecream_machines m with is_busy := true, order := some i }) = shape s :=
    (shape_setMachine (by rfl) (by rfl)).trans (shape_setOrder (by rfl))
  exact h

lemma shape_complete_order (m : Fin N) (i : ℕ) (s : St N C) :
    shape (complete_order m i s) = shape s := by
  have h : shape ((s.setOrder i { s.orders i with
      is_completed := true
      is_to_considered := false }).setMachine m
        { s.icecream_machines m with is_busy := false, order := none }) = shape s :=
    (shape_setMachine (by rfl) (by rfl)).trans (shape_setOrder (by rfl))
  exact h

/-- The machine stops at the end of its time. -/
def stop (m : Fin N) (s : St N C) : St N C :=
  if (s.icecream_machines m).end_time = s.ticks then
    { s with machines_stopped_working := s.machines_stopped_working + 1 }
  else s

/-- The turn of a machine before it stops: an idle machine scans the orders, a busy one looks
whether its order is ready. -/
inductive Working (m : Fin N) (s : St N C) : St N C → Prop
  | nothing (hs : started m s = none) (hf : finished m s = none)
      (hidle : (s.icecream_machines m).start_time ≤ s.ticks →
        s.ticks < (s.icecream_machines m).end_time → (s.icecream_machines m).is_busy = true) :
      Working m s s
  | scan (h0 : (s.icecream_machines m).start_time ≤ s.ticks)
      (h1 : s.ticks < (s.icecream_machines m).end_time)
      (hb : (s.icecream_machines m).is_busy = false) (hs : started m s = none)
      (hf : finished m s = none) : Working m s (rejects m (List.range s.total_orders) s)
  | start (i : ℕ) (h0 : (s.icecream_machines m).start_time ≤ s.ticks)
      (h1 : s.ticks < (s.icecream_machines m).end_time)
      (hb : (s.icecream_machines m).is_busy = false) (hs : started m s = some i)
      (hf : finished m s = none) (hi : startable m s i = true) (hlt : i < s.total_orders) :
      Working m s (start_order m i (rejects m (List.range i) s))
  | complete (i : ℕ) (h0 : (s.icecream_machines m).start_time ≤ s.ticks)
      (h1 : s.ticks < (s.icecream_machines m).end_time)
      (hb : (s.icecream_machines m).is_busy = true)
      (ho : (s.icecream_machines m).order = some i) (hs : started m s = none)
      (hf : finished m s = some i) : Working m s (complete_order m i s)

/-- The turn of a machine before it stops. -/
def work (m : Fin N) (s : St N C) : St N C :=
  if (s.icecream_machines m).start_time ≤ s.ticks ∧ s.ticks < (s.icecream_machines m).end_time then
    if (s.icecream_machines m).is_busy then check_order m s else examine m s.total_orders 0 s
  else s

lemma working (m : Fin N) (s : St N C) : Working m s (work m s) := by
  unfold work
  by_cases hopen : (s.icecream_machines m).start_time ≤ s.ticks ∧
      s.ticks < (s.icecream_machines m).end_time
  · rw [if_pos hopen]
    obtain ⟨h0, h1⟩ := hopen
    cases hb : (s.icecream_machines m).is_busy with
    | true =>
      have hs : started m s = none := by simp [started, hb]
      rw [if_pos rfl]
      cases ho : (s.icecream_machines m).order with
      | none =>
        simp only [check_order, ho]
        exact .nothing hs (by simp [finished, ho]) fun _ _ => hb
      | some i =>
        simp only [check_order, ho]
        split_ifs with hr
        · exact .complete i h0 h1 hb ho hs (by simp [finished, h0, h1, hb, ho, hr])
        · exact .nothing hs (by simp [finished, ho, hr]) fun _ _ => hb
    | false =>
      have hf : finished m s = none := by simp [finished, hb]
      have hst : started m s = (List.range s.total_orders).find? (startable m s) :=
        if_pos ⟨h0, h1, hb⟩
      rw [if_neg (by simp), examine_eq, ← List.range_eq_range']
      cases hs : (List.range s.total_orders).find? (startable m s) with
      | none => exact .scan h0 h1 hb (hst.trans hs) hf
      | some i =>
        dsimp only
        rw [Nat.sub_zero, ← List.range_eq_range']
        exact .start i h0 h1 hb (hst.trans hs) hf (List.find?_some hs)
          (List.mem_range.mp (List.mem_of_find?_eq_some hs))
  · rw [if_neg hopen]
    refine .nothing ?_ ?_ fun h0 h1 => absurd ⟨h0, h1⟩ hopen
    · exact if_neg fun hc => hopen ⟨hc.1, hc.2.1⟩
    · exact if_neg fun hc => hopen ⟨hc.1, hc.2.1⟩

lemma machines_work (m : Fin N) (s : St N C) :
    ((work m s).icecream_machines m).end_time = (s.icecream_machines m).end_time := by
  have hw := working m s
  generalize work m s = s' at hw ⊢
  cases hw with
  | nothing => rfl
  | scan => rw [(touches_rejects m _ s).machines]
  | start i => simp [start_order, St.setMachine, (touches_rejects m (List.range i) s).machines]
  | complete i => simp [complete_order, St.setMachine]

lemma machine_turn (m : Fin N) (s : St N C) : icecream_machine_func m s = stop m (work m s) := by
  rw [stop, machines_work]
  rfl

/-! ### The turn of a customer -/

/-- Every order of the list is changed by `f`. -/
def marked (f : Order → Order) (ids : List ℕ) (orders : ℕ → Order) : ℕ → Order :=
  fun i => if i ∈ ids then f (orders i) else orders i

lemma mark_eq (f : Order → Order) {ids : List ℕ} (h : ids.Nodup) (s : St N C) :
    mark f ids s = { s with orders := marked f ids s.orders } := by
  induction ids generalizing s with
  | nil =>
    have hnil : marked f [] s.orders = s.orders := by ext1 j; simp [marked]
    rw [hnil]; rfl
  | cons i ids ih =>
    have hstep : mark f (i :: ids) s = mark f ids (s.setOrder i (f (s.orders i))) := rfl
    rw [hstep, ih (List.nodup_cons.mp h).2, St.setOrder]
    congr 1
    ext1 j
    by_cases hj : j = i
    · subst hj
      simp [marked, (List.nodup_cons.mp h).1]
    · simp [marked, hj]

/-- What becomes of an order whose customer finds no seat. -/
def noSeat (o : Order) : Order :=
  { o with rejected_due_to_no_seats := true, rejected := true, is_to_considered := false }

/-- What becomes of an order when a topping is short at placement. -/
def shortAtPlacement (o : Order) : Order :=
  { o with rejected_due_to_is_atplacement := true, rejected := true, is_to_considered := false }

def placed (t : ℤ) (o : Order) : Order := { o with is_to_considered := true, is_placed := t }

/-- What becomes of the orders of a customer who withdraws. -/
def withdrawn (N : ℕ) (no_service : Bool) (o : Order) : Order :=
  let o := { o with rejected := true, is_to_considered := false }
  if no_service then { o with rejected_due_to_no_machines := N }
  else { o with rejected_due_to_is_atpreparation := true }

/-- All machines have rejected one of the customer's orders. -/
def no_service (c : Fin C) (s : St N C) : Bool :=
  (s.customers c).order_id_s.any fun i => (s.orders i).rejected_due_to_no_machines == N

/-- A topping was short for one of the customer's orders. -/
def shortage (c : Fin C) (s : St N C) : Bool :=
  (s.customers c).order_id_s.any fun i => (s.orders i).rejected_due_to_is_atpreparation

/-- The customer and its orders are changed. -/
def St.setGuest (s : St N C) (c : Fin C) (r : Customer) (orders : ℕ → Order) : St N C :=
  { s with customers := Function.update s.customers c r, orders := orders }

/-- The turn of a customer before the clock: it is turned away, leaves because a topping is short,
sits down, withdraws its orders, leaves with them, or does nothing. -/
inductive Visited (c : Fin C) (s : St N C) : St N C → Prop
  | full (ha : (s.customers c).arrival_time = s.ticks)
      (hk : s.customers_sitting_in_parlour = s.K) :
      Visited c s { St.setGuest s c { s.customers c with
          leaving_time := s.ticks, leaves_due_to_no_seats := true, leaves := true }
          (marked noSeat (s.customers c).order_id_s s.orders) with
        orders_considered := s.orders_considered + (s.customers c).order_id_s.length }
  | short (ha : (s.customers c).arrival_time = s.ticks)
      (hk : s.customers_sitting_in_parlour ≠ s.K)
      (hp : s.possible ((s.customers c).icecreams.flatMap Icecream.topping) = false) :
      Visited c s { St.setGuest s c { s.customers c with
          leaving_time := s.ticks
          leaves_without_order_due_to_is_atplacement := true
          leaves := true }
          (marked shortAtPlacement (s.customers c).order_id_s s.orders) with
        orders_considered := s.orders_considered + (s.customers c).order_id_s.length }
  | seated (ha : (s.customers c).arrival_time = s.ticks)
      (hk : s.customers_sitting_in_parlour ≠ s.K)
      (hp : s.possible ((s.customers c).icecreams.flatMap Icecream.topping) = true) :
      Visited c s { s with
        orders := marked (placed s.ticks) (s.customers c).order_id_s s.orders
        customers_sitting_in_parlour := s.customers_sitting_in_parlour + 1 }
  | withdrawn (ha : (s.customers c).arrival_time < s.ticks)
      (hl : (s.customers c).leaves = false) (hr : (no_service c s || shortage c s) = true) :
      Visited c s { St.setGuest s c { s.customers c with
          leaves := true
          leaving_time := s.ticks
          leaves_due_to_no_machines := no_service c s || (s.customers c).leaves_due_to_no_machines
          leaves_without_order_due_to_is_atpreparation :=
            shortage c s || (s.customers c).leaves_without_order_due_to_is_atpreparation }
          (marked (withdrawn N (no_service c s)) (s.customers c).order_id_s s.orders) with
        customers_sitting_in_parlour := s.customers_sitting_in_parlour - 1 }
  | served (ha : (s.customers c).arrival_time ≠ s.ticks) (hl : (s.customers c).leaves = false)
      (hr : (s.customers c).arrival_time < s.ticks → (no_service c s || shortage c s) = false)
      (hne : (s.customers c).order_id_s ≠ [])
      (hall : ∀ i ∈ (s.customers c).order_id_s, (s.orders i).is_completed = true) :
      Visited c s { St.setGuest s c { s.customers c with
          leaves := true, leaves_with_order := true, leaving_time := s.ticks } s.orders with
        customers_sitting_in_parlour := s.customers_sitting_in_parlour - 1 }
  | nothing (ha : (s.customers c).arrival_time ≠ s.ticks)
      (hr : (s.customers c).arrival_time < s.ticks → (s.customers c).leaves = false →
        (no_service c s || shortage c s) = false)
      (hall : (s.customers c).leaves = false → (s.customers c).order_id_s ≠ [] →
        ∃ i ∈ (s.customers c).order_id_s, (s.orders i).is_completed = false) :
      Visited c s s

/-- The turn of a customer before the clock. -/
def visit (c : Fin C) (s : St N C) : St N C :=
  let s :=
    if (s.customers c).arrival_time = s.ticks then
      if s.customers_sitting_in_parlour = s.K then no_seats c s else place_orders c s
    else s
  let s :=
    if (s.customers c).arrival_time < s.ticks ∧ (s.customers c).leaves = false then
      check_rejected c s
    else s
  check_completed c s

lemma customer_turn (c : Fin C) (s : St N C) :
    customer_func c s = if c.val = 0 then tick (visit c s) else visit c s := rfl

lemma check_completed_eq {c : Fin C} {s : St N C}
    (h : (s.customers c).leaves = true ∨ (s.customers c).order_id_s = [] ∨
      ∃ i ∈ (s.customers c).order_id_s, (s.orders i).is_completed = false) :
    check_completed c s = s := by
  unfold check_completed
  dsimp only
  rw [if_neg]
  rintro ⟨hne, hall, hl⟩
  rcases h with h | h | ⟨i, hi, hc⟩
  · rw [h] at hl
    cases hl
  · exact hne h
  · rw [List.all_eq_true] at hall
    rw [hall i hi] at hc
    cases hc

lemma visit_arrival {c : Fin C} {s s' : St N C} (ha : (s.customers c).arrival_time = s.ticks)
    (hs : (if s.customers_sitting_in_parlour = s.K then no_seats c s else place_orders c s) = s')
    (ha' : (s'.customers c).arrival_time = s'.ticks)
    (hc : (s'.customers c).leaves = true ∨ (s'.customers c).order_id_s = [] ∨
      ∃ i ∈ (s'.customers c).order_id_s, (s'.orders i).is_completed = false) :
    visit c s = s' := by
  unfold visit
  dsimp only
  rw [if_pos ha, hs, if_neg (by omega), check_completed_eq hc]

lemma visited {c : Fin C} {s : St N C} (hids : (s.customers c).order_id_s.Nodup)
    (hnew : (s.customers c).arrival_time = s.ticks → ∀ i ∈ (s.customers c).order_id_s,
      (s.orders i).is_completed = false) : Visited c s (visit c s) := by
  by_cases ha : (s.customers c).arrival_time = s.ticks
  · by_cases hk : s.customers_sitting_in_parlour = s.K
    · have hv : visit c s = { St.setGuest s c { s.customers c with
          leaving_time := s.ticks, leaves_due_to_no_seats := true, leaves := true }
          (marked noSeat (s.customers c).order_id_s s.orders) with
          orders_considered := s.orders_considered + (s.customers c).order_id_s.length } := by
        refine visit_arrival ha ?_ (by simpa [St.setGuest] using ha) (by simp [St.setGuest])
        rw [if_pos hk, no_seats, mark_eq _ hids]
        rfl
      rw [hv]
      exact .full ha hk
    · cases hp : s.possible ((s.customers c).icecreams.flatMap Icecream.topping) with
      | false =>
        have hv : visit c s = { St.setGuest s c { s.customers c with
            leaving_time := s.ticks
            leaves_without_order_due_to_is_atplacement := true
            leaves := true }
            (marked shortAtPlacement (s.customers c).order_id_s s.orders) with
            orders_considered := s.orders_considered + (s.customers c).order_id_s.length } := by
          refine visit_arrival ha ?_ (by simpa [St.setGuest] using ha) (by simp [St.setGuest])
          rw [if_neg hk, place_orders]
          dsimp only
          rw [if_neg (by simp [hp]), mark_eq _ hids]
          rfl
        rw [hv]
        exact .short ha hk hp
      | true =>
        have hv : visit c s = { s with
            orders := marked (placed s.ticks) (s.customers c).order_id_s s.orders
            customers_sitting_in_parlour := s.customers_sitting_in_parlour + 1 } := by
          refine visit_arrival ha ?_ ha (Or.inr ?_)
          · rw [if_neg hk, place_orders]
            dsimp only
            rw [if_pos hp, mark_eq _ hids]
            rfl
          · cases hl : (s.customers c).order_id_s with
            | nil => exact Or.inl rfl
            | cons i l =>
              have hi : i ∈ (s.customers c).order_id_s := by rw [hl]; exact List.mem_cons_self
              refine Or.inr ⟨i, List.mem_cons_self, ?_⟩
              simpa [marked, placed] using hnew ha i hi
        rw [hv]
        exact .seated ha hk hp
  · have hv : visit c s = check_completed c
        (if (s.customers c).arrival_time < s.ticks ∧ (s.customers c).leaves = false then
          check_rejected c s else s) := by
      unfold visit
      dsimp only
      rw [if_neg ha]
    rw [hv]
    by_cases hr : (s.customers c).arrival_time < s.ticks ∧ (s.customers c).leaves = false ∧
        (no_service c s || shortage c s) = true
    · obtain ⟨hlt, hl, hr⟩ := hr
      have hw : check_rejected c s = { St.setGuest s c { s.customers c with
          leaves := true
          leaving_time := s.ticks
          leaves_due_to_no_machines := no_service c s || (s.customers c).leaves_due_to_no_machines
          leaves_without_order_due_to_is_atpreparation :=
            shortage c s || (s.customers c).leaves_without_order_due_to_is_atpreparation }
          (marked (withdrawn N (no_service c s)) (s.customers c).order_id_s s.orders) with
          customers_sitting_in_parlour := s.customers_sitting_in_parlour - 1 } := by
        rw [check_rejected]
        dsimp only
        rw [if_pos (by exact hr), mark_eq _ hids]
        rfl
      rw [if_pos ⟨hlt, hl⟩, hw, check_completed_eq (by simp [St.setGuest])]
      exact .withdrawn hlt hl hr
    · have hskip : (if (s.customers c).arrival_time < s.ticks ∧ (s.customers c).leaves = false then
          check_rejected c s else s) = s := by
        split_ifs with hc
        · rw [check_rejected]
          dsimp only
          exact if_neg fun h => hr ⟨hc.1, hc.2, h⟩
        · rfl
      have hno : (s.customers c).arrival_time < s.ticks → (s.customers c).leaves = false →
          (no_service c s || shortage c s) = false := fun h1 h2 => by
        by_contra h3
        exact hr ⟨h1, h2, (Bool.not_eq_false _).mp h3⟩
      rw [hskip]
      by_cases hc : (s.customers c).order_id_s ≠ [] ∧
          ((s.customers c).order_id_s.all fun i => (s.orders i).is_completed) = true ∧
          (s.customers c).leaves = false
      · rw [check_completed]
        dsimp only
        rw [if_pos hc]
        exact .served ha hc.2.2 (fun h => hno h hc.2.2) hc.1 (List.all_eq_true.mp hc.2.1)
      · rw [check_completed]
        dsimp only
        rw [if_neg hc]
        refine .nothing ha hno fun hl hne => ?_
        by_contra hall
        refine hc ⟨hne, List.all_eq_true.mpr fun i hi => ?_, hl⟩
        by_contra hi'
        exact hall ⟨i, hi, by simpa using hi'⟩

end Xv6.ParlourTurns
