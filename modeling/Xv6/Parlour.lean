import Xv6.CInt
import Xv6.Crew

/-!
The ice cream parlour simulator, `concurrency/2.c`.

The shared state is the program's global variables, the bodies of `icecream_machine_func` and
`customer_func` are functions on it, and the threads take turns by the ring of semaphores. The
program assumes that its customers are given with the ids `1, 2, …` in order, so customer `i` here
has the id `i + 1`; machine `m` has the id `m + 1`. Reading the input and printing are left out.
The tick in which an order is ready is a sum of the C type `int` and wraps; `ticks` and the counters
are integers.
-/

namespace Xv6.Parlour

open Xv6.Ring Xv6.Crew Xv6.CInt

/-- An ice cream: the preparation time of its flavour and its toppings, as indices into the
table of toppings and sorted. -/
structure Icecream where
  time_to_prepare : ℤ
  topping : List ℕ

/-- The tick in which the ice cream is ready if a machine starts on it at `start_time`. -/
def Icecream.time_to_finish (ic : Icecream) (start_time : ℤ) : ℤ :=
  int (start_time + ic.time_to_prepare)

lemma Icecream.time_to_finish_of {ic : Icecream} {t : ℤ} (h : InInt (t + ic.time_to_prepare)) :
    ic.time_to_finish t = t + ic.time_to_prepare := int_of h

structure Machine where
  start_time : ℤ
  end_time : ℤ
  is_busy : Bool
  order : Option ℕ

structure Customer where
  arrival_time : ℤ
  leaving_time : ℤ
  leaves : Bool
  icecreams : List Icecream
  order_id_s : List ℕ
  leaves_with_order : Bool
  leaves_without_order_due_to_is_atplacement : Bool
  leaves_without_order_due_to_is_atpreparation : Bool
  leaves_due_to_no_machines : Bool
  leaves_due_to_no_seats : Bool

structure Order where
  is_to_considered : Bool
  /-- the tick at which the order was placed, `-1` before -/
  is_placed : ℤ
  is_completed : Bool
  rejected : Bool
  rejected_due_to_is_atplacement : Bool
  rejected_due_to_is_atpreparation : Bool
  rejected_due_to_no_machines : ℕ
  rejected_due_to_no_seats : Bool
  icecream_machine_id : ℤ
  start_time_of_order : ℤ
  icecreams : Icecream

/-- What a customer orders. -/
structure Arrival where
  arrival_time : ℤ
  icecreams : List Icecream

/-- What the program reads: the machines' opening hours, the seats, the quantity of each topping
(`-1` for unlimited) and the customers. -/
structure Input where
  machines : List (ℤ × ℤ)
  K : ℤ
  toppings : List ℤ
  arrivals : List Arrival
  machines_pos : 0 < machines.length
  arrivals_pos : 0 < arrivals.length

def Input.N (inp : Input) : ℕ := inp.machines.length

def Input.total_customers (inp : Input) : ℕ := inp.arrivals.length

lemma Input.N_pos (inp : Input) : 0 < inp.N := inp.machines_pos

lemma Input.customers_pos (inp : Input) : 0 < inp.total_customers := inp.arrivals_pos

/-- The global variables; `orders` and the table of rejections are indexed from `0`. -/
structure St (N C : ℕ) where
  ticks : ℤ
  K : ℤ
  T : ℕ
  total_orders : ℕ
  orders_considered : ℕ
  machines_stopped_working : ℕ
  customers_sitting_in_parlour : ℤ
  super : Bool
  toppings : ℕ → ℤ
  orders : ℕ → Order
  icecream_machines : Fin N → Machine
  customers : Fin C → Customer
  machine_reject_which_order : ℕ → ℕ → Bool

variable {N C : ℕ}

def St.setOrder (s : St N C) (i : ℕ) (o : Order) : St N C :=
  { s with orders := Function.update s.orders i o }

def St.setMachine (s : St N C) (m : Fin N) (r : Machine) : St N C :=
  { s with icecream_machines := Function.update s.icecream_machines m r }

def St.setCustomer (s : St N C) (c : Fin C) (r : Customer) : St N C :=
  { s with customers := Function.update s.customers c r }

/-! ### Toppings -/

/-- There is enough of every limited topping for the given list of toppings. -/
def St.possible (s : St N C) (ts : List ℕ) : Bool :=
  (List.range s.T).all fun j => s.toppings j == -1 || decide ((ts.count j : ℤ) ≤ s.toppings j)

/-- One unit of each of the toppings is used, limited ones only. -/
def use_toppings (ts : List ℕ) (q : ℕ → ℤ) : ℕ → ℤ :=
  ts.foldl (fun q j => if q j = -1 then q else Function.update q j (q j - 1)) q

/-! ### The body of `icecream_machine_func` -/

/-- The order is too long for what is left of the machine's time. -/
def reject_time (m : Fin N) (i : ℕ) (s : St N C) : St N C :=
  let s :=
    if s.machine_reject_which_order m i then s
    else
      { s.setOrder i { s.orders i with
          rejected_due_to_no_machines := (s.orders i).rejected_due_to_no_machines + 1 } with
        machine_reject_which_order := Function.update s.machine_reject_which_order m
          (Function.update (s.machine_reject_which_order m) i true) }
  if (s.orders i).rejected_due_to_no_machines = N then
    { s.setOrder i { s.orders i with rejected := true, is_to_considered := false } with
      orders_considered := s.orders_considered + 1 }
  else s

/-- A topping is short. The table is entered at the row of the machine's id, not of its index. -/
def reject_toppings (m : Fin N) (i : ℕ) (s : St N C) : St N C :=
  if s.machine_reject_which_order (m + 1) i then s
  else
    { s.setOrder i { s.orders i with
        rejected_due_to_is_atpreparation := true
        rejected := true
        is_to_considered := false } with
      orders_considered := s.orders_considered + 1
      machine_reject_which_order := Function.update s.machine_reject_which_order (m + 1)
        (Function.update (s.machine_reject_which_order (m + 1)) i true) }

/-- The machine starts on the order and takes its toppings. -/
def start_order (m : Fin N) (i : ℕ) (s : St N C) : St N C :=
  { (s.setOrder i { s.orders i with
      icecream_machine_id := m + 1
      start_time_of_order := s.ticks }).setMachine m
        { s.icecream_machines m with is_busy := true, order := some i } with
    toppings := use_toppings (s.orders i).icecreams.topping s.toppings }

/-- An idle machine goes through the orders from `i` on, `k` of them, until it starts one. The
check counts the first `T` toppings of the order only. -/
def examine (m : Fin N) : ℕ → ℕ → St N C → St N C
  | 0, _, s => s
  | k + 1, i, s =>
    let o := s.orders i
    if o.is_to_considered && o.icecream_machine_id == -1 && o.is_placed != -1 then
      if (s.icecream_machines m).end_time ≤ o.icecreams.time_to_finish s.ticks then
        examine m k (i + 1) (reject_time m i s)
      else if s.possible (o.icecreams.topping.take s.T) then start_order m i s
      else examine m k (i + 1) (reject_toppings m i s)
    else examine m k (i + 1) s

/-- A busy machine looks whether its order is ready. -/
def check_order (m : Fin N) (s : St N C) : St N C :=
  match (s.icecream_machines m).order with
  | none => s
  | some i =>
    if (s.orders i).icecreams.time_to_finish (s.orders i).start_time_of_order = s.ticks then
      { (s.setOrder i { s.orders i with
          is_completed := true
          is_to_considered := false }).setMachine m
            { s.icecream_machines m with is_busy := false, order := none } with
        orders_considered := s.orders_considered + 1 }
    else s

def icecream_machine_func (m : Fin N) (s : St N C) : St N C :=
  let r := s.icecream_machines m
  let s :=
    if r.start_time ≤ s.ticks ∧ s.ticks < r.end_time then
      if r.is_busy then check_order m s else examine m s.total_orders 0 s
    else s
  if r.end_time = s.ticks then
    { s with machines_stopped_working := s.machines_stopped_working + 1 }
  else s

/-! ### The body of `customer_func` -/

/-- Every order of the list is changed by `f`. -/
def mark (f : Order → Order) (ids : List ℕ) (s : St N C) : St N C :=
  ids.foldl (fun s i => s.setOrder i (f (s.orders i))) s

/-- The customer finds all seats taken. -/
def no_seats (c : Fin C) (s : St N C) : St N C :=
  let r := s.customers c
  let s := s.setCustomer c { r with
    leaving_time := s.ticks
    leaves_due_to_no_seats := true
    leaves := true }
  { mark (fun o => { o with
      rejected_due_to_no_seats := true
      rejected := true
      is_to_considered := false }) r.order_id_s s with
    orders_considered := s.orders_considered + r.order_id_s.length }

/-- The customer sits down and orders, or leaves again if a topping is short. -/
def place_orders (c : Fin C) (s : St N C) : St N C :=
  let r := s.customers c
  if s.possible (r.icecreams.flatMap Icecream.topping) then
    let s := { s with customers_sitting_in_parlour := s.customers_sitting_in_parlour + 1 }
    mark (fun o => { o with is_to_considered := true, is_placed := s.ticks }) r.order_id_s s
  else
    let s := s.setCustomer c { r with
      leaving_time := s.ticks
      leaves_without_order_due_to_is_atplacement := true
      leaves := true }
    { mark (fun o => { o with
        rejected_due_to_is_atplacement := true
        rejected := true
        is_to_considered := false }) r.order_id_s s with
      orders_considered := s.orders_considered + r.order_id_s.length }

/-- A customer one of whose orders was rejected withdraws the others and leaves. -/
def check_rejected (c : Fin C) (s : St N C) : St N C :=
  let r := s.customers c
  let no_service := r.order_id_s.any fun i => (s.orders i).rejected_due_to_no_machines == N
  let shortage := r.order_id_s.any fun i => (s.orders i).rejected_due_to_is_atpreparation
  if no_service || shortage then
    let s := s.setCustomer c { r with
      leaves := true
      leaving_time := s.ticks
      leaves_due_to_no_machines := no_service || r.leaves_due_to_no_machines
      leaves_without_order_due_to_is_atpreparation :=
        shortage || r.leaves_without_order_due_to_is_atpreparation }
    { mark (fun o =>
        let o := { o with rejected := true, is_to_considered := false }
        if no_service then { o with rejected_due_to_no_machines := N }
        else { o with rejected_due_to_is_atpreparation := true }) r.order_id_s s with
      customers_sitting_in_parlour := s.customers_sitting_in_parlour - 1 }
  else s

/-- A customer all of whose orders are ready leaves with them. -/
def check_completed (c : Fin C) (s : St N C) : St N C :=
  let r := s.customers c
  if r.order_id_s ≠ [] ∧ (r.order_id_s.all fun i => (s.orders i).is_completed) = true ∧
      r.leaves = false then
    { s.setCustomer c { r with
        leaves := true
        leaves_with_order := true
        leaving_time := s.ticks } with
      customers_sitting_in_parlour := s.customers_sitting_in_parlour - 1 }
  else s

/-- Customer `0` keeps the time and closes the parlour when no limited topping is left. -/
def tick (s : St N C) : St N C :=
  { s with
    ticks := s.ticks + 1
    super := s.super || (List.range s.T).all fun j => s.toppings j == -1 || s.toppings j == 0 }

def customer_func (c : Fin C) (s : St N C) : St N C :=
  let s :=
    if (s.customers c).arrival_time = s.ticks then
      if s.customers_sitting_in_parlour = s.K then no_seats c s else place_orders c s
    else s
  let s :=
    if (s.customers c).arrival_time < s.ticks ∧ (s.customers c).leaves = false then
      check_rejected c s
    else s
  let s := check_completed c s
  if c.val = 0 then tick s else s

/-! ### The program -/

def newOrder (ic : Icecream) : Order where
  is_to_considered := true
  is_placed := -1
  is_completed := false
  rejected := false
  rejected_due_to_is_atplacement := false
  rejected_due_to_is_atpreparation := false
  rejected_due_to_no_machines := 0
  rejected_due_to_no_seats := false
  icecream_machine_id := -1
  start_time_of_order := -1
  icecreams := ic

/-- All ice creams in the order they are read; order `i` is for the `i`-th. -/
def Input.icecreams (inp : Input) : List Icecream := inp.arrivals.flatMap Arrival.icecreams

/-- The index of the first order of customer `c`. -/
def Input.firstOrder (inp : Input) (c : ℕ) : ℕ :=
  ((inp.arrivals.take c).flatMap Arrival.icecreams).length

def Input.customer (inp : Input) (c : ℕ) (a : Arrival) : Customer where
  arrival_time := a.arrival_time
  leaving_time := -1
  leaves := false
  icecreams := a.icecreams
  order_id_s := (List.range a.icecreams.length).map (inp.firstOrder c + ·)
  leaves_with_order := false
  leaves_without_order_due_to_is_atplacement := false
  leaves_without_order_due_to_is_atpreparation := false
  leaves_due_to_no_machines := false
  leaves_due_to_no_seats := false

/-- The global variables when the threads are created. -/
def start (inp : Input) : St inp.N inp.total_customers where
  ticks := 0
  K := inp.K
  T := inp.toppings.length
  total_orders := inp.icecreams.length
  orders_considered := 0
  machines_stopped_working := 0
  customers_sitting_in_parlour := 0
  super := false
  toppings := fun j => inp.toppings.getD j 0
  orders := fun i => newOrder (inp.icecreams.getD i ⟨0, []⟩)
  icecream_machines := fun m =>
    ⟨(inp.machines.get m).1, (inp.machines.get m).2, false, none⟩
  customers := fun c => inp.customer c (inp.arrivals.get c)
  machine_reject_which_order := fun _ _ => false

/-- How far the loop-exit test
`orders_considered == total_orders && machines_stopped_working == N || super == 1` has got. -/
inductive Test where
  | orders
  | machines
  | super
deriving DecidableEq

def look (l : Test) (s : St N C) : Test ⊕ Bool :=
  match l with
  | .orders => if s.orders_considered = s.total_orders then .inl .machines else .inl .super
  | .machines => if s.machines_stopped_working = N then .inr true else .inl .super
  | .super => .inr s.super

/-- The threads of the program. -/
def prog (inp : Input) :
    Prog (Thread inp.N inp.total_customers) (St inp.N inp.total_customers) Test where
  prev := before inp.N_pos inp.customers_pos
  first := .customer ⟨0, inp.customers_pos⟩
  start := .orders
  probe := look
  body := fun
    | .worker m => icecream_machine_func m
    | .customer c => customer_func c

/-- The state of the program after a schedule of its threads. -/
def exec (inp : Input) (sched : List (Option (Thread inp.N inp.total_customers))) :
    State (Thread inp.N inp.total_customers) (St inp.N inp.total_customers) Test :=
  run (prog inp) (init (prog inp) (start inp)) sched

/-! ### The clock -/

lemma ticks_reject_time (m : Fin N) (i : ℕ) (s : St N C) : (reject_time m i s).ticks = s.ticks := by
  unfold reject_time
  dsimp only
  split_ifs <;> rfl

lemma ticks_reject_toppings (m : Fin N) (i : ℕ) (s : St N C) :
    (reject_toppings m i s).ticks = s.ticks := by
  unfold reject_toppings
  split_ifs <;> rfl

lemma ticks_examine (m : Fin N) (k i : ℕ) (s : St N C) : (examine m k i s).ticks = s.ticks := by
  induction k generalizing i s with
  | zero => rfl
  | succ k ih =>
    unfold examine
    dsimp only
    split_ifs
    · rw [ih, ticks_reject_time]
    · rfl
    · rw [ih, ticks_reject_toppings]
    · exact ih _ _

lemma ticks_icecream_machine_func (m : Fin N) (s : St N C) :
    (icecream_machine_func m s).ticks = s.ticks := by
  have hcheck : (check_order m s).ticks = s.ticks := by
    unfold check_order
    split
    · rfl
    · split_ifs <;> rfl
  unfold icecream_machine_func
  dsimp only
  split_ifs <;> simp [hcheck, ticks_examine]

lemma ticks_mark (f : Order → Order) (ids : List ℕ) (s : St N C) :
    (mark f ids s).ticks = s.ticks := by
  unfold mark
  induction ids generalizing s with
  | nil => rfl
  | cons i ids ih => rw [List.foldl_cons, ih]; rfl

lemma ticks_no_seats (c : Fin C) (s : St N C) : (no_seats c s).ticks = s.ticks := by
  unfold no_seats
  dsimp only
  rw [ticks_mark]; rfl

lemma ticks_place_orders (c : Fin C) (s : St N C) : (place_orders c s).ticks = s.ticks := by
  unfold place_orders
  dsimp only
  split_ifs
  · rw [ticks_mark]
  · dsimp only
    rw [ticks_mark]; rfl

lemma ticks_check_rejected (c : Fin C) (s : St N C) : (check_rejected c s).ticks = s.ticks := by
  unfold check_rejected
  dsimp only
  split
  · dsimp only
    rw [ticks_mark]; rfl
  · rfl

lemma ticks_check_completed (c : Fin C) (s : St N C) : (check_completed c s).ticks = s.ticks := by
  unfold check_completed
  dsimp only
  split_ifs <;> rfl

lemma ticks_customer_func (c : Fin C) (s : St N C) :
    (customer_func c s).ticks = s.ticks + if c.val = 0 then 1 else 0 := by
  unfold customer_func
  dsimp only
  set s1 := if (s.customers c).arrival_time = s.ticks then
      if s.customers_sitting_in_parlour = s.K then no_seats c s else place_orders c s
    else s with hs1
  have h1 : s1.ticks = s.ticks := by
    rw [hs1]
    split_ifs
    · exact ticks_no_seats c s
    · exact ticks_place_orders c s
    · rfl
  set s2 := if (s1.customers c).arrival_time < s1.ticks ∧ (s1.customers c).leaves = false then
      check_rejected c s1 else s1 with hs2
  have h2 : s2.ticks = s1.ticks := by
    rw [hs2]
    split_ifs
    · exact ticks_check_rejected c s1
    · rfl
  split_ifs
  · unfold tick
    dsimp only
    rw [ticks_check_completed, h2, h1]
  · rw [ticks_check_completed, h2, h1, add_zero]

end Xv6.Parlour
