import Xv6.Crew

/-!
The cafe simulator, `concurrency/1.c`.

The shared state is the program's global variables, the bodies of `barista_func` and
`customer_func` are functions on it, and the threads take turns by the ring of semaphores. What
is printed is left out.
-/

namespace Xv6.Cafe

open Xv6.Ring Xv6.Crew

structure Coffee where
  coffee_name : String
  time_to_make : ℤ
deriving DecidableEq

/-- The part of `customer_s` that is read in. -/
structure Arrival where
  coffee_name : String
  arrival_time : ℤ
  tolerance_time : ℤ

/-- What the program reads: the number of baristas, the menu and the customers. -/
structure Input where
  B : ℕ
  menu : List Coffee
  arrivals : List Arrival
  B_pos : 0 < B
  arrivals_pos : 0 < arrivals.length

/-- The number of customers. -/
def Input.N (inp : Input) : ℕ := inp.arrivals.length

lemma Input.N_pos (inp : Input) : 0 < inp.N := inp.arrivals_pos

structure Customer where
  order_id : ℕ
  customer_id : ℕ
  arrival_time : ℤ
  departure_time : ℤ
  tolerance_time : ℤ
  coffee : Coffee
deriving DecidableEq

structure Order where
  order_id : ℕ
  /-- `-1` while no barista has taken the order -/
  barista_id : ℤ
  customer : Customer
  is_taken_up : ℤ
  is_completed : Bool
  is_customer_present : Bool
  is_given_to_customer : Bool
  is_to_be_considered : Bool
  order_printed : Bool
deriving DecidableEq

structure Barista (N : ℕ) where
  coffee_wasted : ℕ
  is_free : Bool
  order : Option (Fin N)
deriving DecidableEq

/-- The global variables. -/
structure St (B N : ℕ) where
  ticks : ℤ
  is_to_be_considered_counter : ℕ
  customers : Fin N → Customer
  orders : Fin N → Order
  baristas : Fin B → Barista N

variable {B N : ℕ}

def St.setOrder (s : St B N) (i : Fin N) (o : Order) : St B N :=
  { s with orders := Function.update s.orders i o }

def St.setBarista (s : St B N) (b : Fin B) (r : Barista N) : St B N :=
  { s with baristas := Function.update s.baristas b r }

/-! ### The bodies of the threads -/

/-- The test a free barista makes on each order. -/
def St.waiting (s : St B N) (i : Fin N) : Bool :=
  (s.orders i).is_to_be_considered && (s.orders i).barista_id == -1 &&
    decide ((s.orders i).customer.arrival_time + 1 ≤ s.ticks)

/-- A free barista takes the first order that waits. -/
def take_order (b : Fin B) (s : St B N) : St B N :=
  match (List.finRange N).find? s.waiting with
  | none => s
  | some i =>
    (s.setOrder i { s.orders i with barista_id := b, is_taken_up := s.ticks }).setBarista b
      { s.baristas b with order := some i, is_free := false }

/-- The order is done: it is handed over if the customer is still there, else it is wasted. -/
def finish_order (b : Fin B) (i : Fin N) (s : St B N) : St B N :=
  let o := s.orders i
  let r := s.baristas b
  let o := { o with is_completed := true }
  let s := { s with is_to_be_considered_counter := s.is_to_be_considered_counter + 1 }
  if o.is_customer_present then
    (s.setOrder i { o with
      is_given_to_customer := true
      is_customer_present := false
      is_to_be_considered := false }).setBarista b { r with is_free := true, order := none }
  else
    (s.setOrder i { o with is_to_be_considered := false }).setBarista b
      { r with is_free := true, order := none, coffee_wasted := r.coffee_wasted + 1 }

/-- The body of `barista_func`. A barista that is not free has an order. -/
def barista_func (b : Fin B) (s : St B N) : St B N :=
  if (s.baristas b).is_free then take_order b s
  else
    match (s.baristas b).order with
    | none => s
    | some i =>
      if (s.orders i).is_completed then
        s.setBarista b { s.baristas b with is_free := true, order := none }
      else if s.ticks - (s.orders i).is_taken_up = (s.orders i).customer.coffee.time_to_make then
        finish_order b i s
      else s

/-- The customer runs out of patience. -/
def leave (i : Fin N) (s : St B N) : St B N :=
  let o := { s.orders i with is_customer_present := false }
  if o.is_completed then s.setOrder i o
  else
    let o := { o with customer := { o.customer with departure_time := s.ticks } }
    if o.barista_id = -1 then
      { s.setOrder i { o with is_to_be_considered := false } with
        is_to_be_considered_counter := s.is_to_be_considered_counter + 1 }
    else s.setOrder i o

/-- The customer finds the order handed over. -/
def receive (i : Fin N) (s : St B N) : St B N :=
  let o := s.orders i
  if o.is_given_to_customer && !o.order_printed then
    s.setOrder i { o with
      customer := { o.customer with
        departure_time := o.is_taken_up + o.customer.coffee.time_to_make }
      order_printed := true }
  else s

/-- The body of `customer_func`; customer `i` has order `i`, and customer `0` keeps the time. -/
def customer_func (i : Fin N) (s : St B N) : St B N :=
  let c := s.customers i
  let s := if s.ticks = c.arrival_time + c.tolerance_time + 1 then leave i s else s
  let s := receive i s
  if i.val = 0 then { s with ticks := s.ticks + 1 } else s

/-! ### The program -/

/-- The preparation time of a coffee: that of the first entry of the menu of that name, and `0`,
the value of a fresh global, where there is none. -/
def time_to_make (menu : List Coffee) (name : String) : ℤ :=
  match menu.find? fun c => c.coffee_name == name with
  | some c => c.time_to_make
  | none => 0

def newCustomer (menu : List Coffee) (i : ℕ) (a : Arrival) : Customer where
  order_id := i
  customer_id := i
  arrival_time := a.arrival_time
  departure_time := a.arrival_time + a.tolerance_time
  tolerance_time := a.tolerance_time
  coffee := ⟨a.coffee_name, time_to_make menu a.coffee_name⟩

def newOrder (i : ℕ) (c : Customer) : Order where
  order_id := i
  barista_id := -1
  customer := c
  is_taken_up := -1
  is_completed := false
  is_customer_present := true
  is_given_to_customer := false
  is_to_be_considered := true
  order_printed := false

/-- The global variables when the threads are created. -/
def start (inp : Input) : St inp.B inp.N where
  ticks := 0
  is_to_be_considered_counter := 0
  customers := fun i => newCustomer inp.menu i (inp.arrivals.get i)
  orders := fun i => newOrder i (newCustomer inp.menu i (inp.arrivals.get i))
  baristas := fun _ => ⟨0, true, none⟩

/-- The loop-exit test `is_to_be_considered_counter == N`. -/
def all_considered (s : St B N) : Bool := s.is_to_be_considered_counter == N

/-- The threads of the program. -/
def prog (inp : Input) : Prog (Thread inp.B inp.N) (St inp.B inp.N) Unit where
  prev := before inp.B_pos inp.N_pos
  first := .customer ⟨0, inp.N_pos⟩
  start := ()
  probe := fun _ s => .inr (all_considered s)
  body := fun
    | .worker b => barista_func b
    | .customer i => customer_func i

/-- The state of the program after a schedule of its threads. -/
def exec (inp : Input) (sched : List (Option (Thread inp.B inp.N))) :
    State (Thread inp.B inp.N) (St inp.B inp.N) Unit :=
  run (prog inp) (init (prog inp) (start inp)) sched

/-! ### The clock -/

@[simp] lemma ticks_setOrder (s : St B N) (i : Fin N) (o : Order) :
    (s.setOrder i o).ticks = s.ticks := rfl

@[simp] lemma ticks_setBarista (s : St B N) (b : Fin B) (r : Barista N) :
    (s.setBarista b r).ticks = s.ticks := rfl

lemma ticks_barista_func (b : Fin B) (s : St B N) : (barista_func b s).ticks = s.ticks := by
  unfold barista_func take_order finish_order
  dsimp only
  split
  · split <;> simp
  · split
    · rfl
    · split_ifs <;> simp

lemma ticks_leave (i : Fin N) (s : St B N) : (leave i s).ticks = s.ticks := by
  unfold leave
  dsimp only
  split_ifs <;> simp

lemma ticks_receive (i : Fin N) (s : St B N) : (receive i s).ticks = s.ticks := by
  unfold receive
  dsimp only
  split_ifs <;> simp

lemma ticks_customer_func (i : Fin N) (s : St B N) :
    (customer_func i s).ticks = s.ticks + if i.val = 0 then 1 else 0 := by
  unfold customer_func
  dsimp only
  by_cases h : i.val = 0
  · rw [if_pos h, if_pos h]
    dsimp only
    rw [ticks_receive]
    split_ifs <;> simp [ticks_leave]
  · rw [if_neg h, if_neg h, ticks_receive]
    split_ifs <;> simp [ticks_leave]

end Xv6.Cafe
