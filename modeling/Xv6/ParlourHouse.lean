import Xv6.ParlourTurns

/-!
The state of the parlour: every customer is expected, was turned away, sits, has withdrawn its
orders or has left with them, and its orders are accordingly; every order that a machine started
is in that machine's hands until it is completed, at the tick that its preparation time gives.
-/

namespace Xv6.ParlourHouse

open Xv6.Ring Xv6.Rounds Xv6.Crew Xv6.Parlour Xv6.Turns Xv6.ParlourTurns

/-! ### Whose order is it -/

section Owners

variable (inp : Input)

/-- The tick in which the customer comes. -/
def arrival (c : Fin inp.total_customers) : ℤ := (inp.arrivals.get c).arrival_time

/-- The orders of the customer. -/
def ids (c : Fin inp.total_customers) : List ℕ :=
  (List.range (inp.arrivals.get c).icecreams.length).map (inp.firstOrder c + ·)

lemma ids_nodup (c : Fin inp.total_customers) : (ids inp c).Nodup :=
  List.nodup_range.map fun a b h => by simpa using h

lemma mem_ids {c : Fin inp.total_customers} {i : ℕ} : i ∈ ids inp c ↔
    inp.firstOrder c ≤ i ∧ i < inp.firstOrder c + (inp.arrivals.get c).icecreams.length := by
  simp only [ids, List.mem_map, List.mem_range]
  constructor
  · rintro ⟨a, ha, rfl⟩
    omega
  · rintro ⟨h1, h2⟩
    exact ⟨i - inp.firstOrder c, by omega, by omega⟩

lemma firstOrder_succ (c : Fin inp.total_customers) :
    inp.firstOrder (c + 1) = inp.firstOrder c + (inp.arrivals.get c).icecreams.length := by
  have hc : (c : ℕ) < inp.arrivals.length := c.isLt
  simp only [Input.firstOrder, List.take_add_one, List.getElem?_eq_getElem hc, Option.toList_some,
    List.flatMap_append, List.flatMap_singleton, List.length_append]
  rfl

lemma firstOrder_total : inp.firstOrder inp.total_customers = inp.icecreams.length := by
  simp [Input.firstOrder, Input.total_customers, Input.icecreams]

lemma firstOrder_mono {a b : ℕ} (h : a ≤ b) : inp.firstOrder a ≤ inp.firstOrder b := by
  have hp : inp.arrivals.take a <+: inp.arrivals.take b := List.take_prefix_take_left h
  obtain ⟨l, hl⟩ := hp
  simp only [Input.firstOrder, ← hl, List.flatMap_append, List.length_append]
  omega

lemma ids_disjoint {c d : Fin inp.total_customers} (h : c ≠ d) {i : ℕ} (hc : i ∈ ids inp c) :
    i ∉ ids inp d := by
  intro hd
  rw [mem_ids, ← firstOrder_succ] at hc hd
  rcases Nat.lt_or_gt_of_ne (fun he => h (Fin.ext he)) with h1 | h1
  · have := firstOrder_mono inp (show (c : ℕ) + 1 ≤ d from h1)
    omega
  · have := firstOrder_mono inp (show (d : ℕ) + 1 ≤ c from h1)
    omega

lemma lt_of_mem_ids {c : Fin inp.total_customers} {i : ℕ} (h : i ∈ ids inp c) :
    i < inp.icecreams.length := by
  rw [mem_ids, ← firstOrder_succ] at h
  have := firstOrder_mono inp (show (c : ℕ) + 1 ≤ inp.total_customers from c.isLt)
  rw [firstOrder_total] at this
  omega

end Owners

/-! ### The state of a customer -/

/-- The five reasons to leave: with the order, a topping short at placement, at preparation, no
machines, no seats. -/
def flags (r : Customer) : Bool × Bool × Bool × Bool × Bool :=
  (r.leaves_with_order, r.leaves_without_order_due_to_is_atplacement,
    r.leaves_without_order_due_to_is_atpreparation, r.leaves_due_to_no_machines,
    r.leaves_due_to_no_seats)

/-- An order of a customer who was turned away. -/
structure Refused (o : Order) : Prop where
  placed : o.is_placed = -1
  rejected : o.rejected = true
  considered : o.is_to_considered = false
  id : o.icecream_machine_id = -1

/-- An order of a customer who sits: it is rejected when all machines or a missing topping reject
it, and open until it is completed or rejected; what a machine has started is not rejected. -/
structure Standing (N : ℕ) (o : Order) : Prop where
  placed : o.is_placed ≠ -1
  rejected : o.rejected = true ↔
    o.rejected_due_to_no_machines = N ∨ o.rejected_due_to_is_atpreparation = true
  considered : o.is_to_considered = true ↔ o.is_completed = false ∧ o.rejected = false
  unassigned : o.rejected = true → o.icecream_machine_id = -1

/-- An order of a customer who has withdrawn. -/
structure Withdrawn (o : Order) : Prop where
  placed : o.is_placed ≠ -1
  rejected : o.rejected = true
  considered : o.is_to_considered = false

/-- An order of a customer who has left with it. -/
structure Served (o : Order) : Prop where
  placed : o.is_placed ≠ -1
  completed : o.is_completed = true
  rejected : o.rejected = false
  considered : o.is_to_considered = false

variable {inp : Input} {tr tr' : List (Thread inp.N inp.total_customers ×
    St inp.N inp.total_customers)} {s s' : St inp.N inp.total_customers}
  {m : Fin inp.N} {c d : Fin inp.total_customers} {i j : ℕ}

/-- Among the turns taken is the one of `u` at tick `t`. -/
def Had (inp : Input)
    (tr : List (Thread inp.N inp.total_customers × St inp.N inp.total_customers))
    (u : Thread inp.N inp.total_customers) (t : ℤ) : Prop :=
  Turned pos (round (W := inp.N) inp.customers_pos).length tr.length u t

instance (tr : List (Thread inp.N inp.total_customers × St inp.N inp.total_customers))
    (u : Thread inp.N inp.total_customers) (t : ℤ) : Decidable (Had inp tr u t) :=
  inferInstanceAs (Decidable (Turned _ _ _ _ _))

/-- The turn of `t` is due. -/
abbrev Next (tr : List (Thread inp.N inp.total_customers × St inp.N inp.total_customers))
    (s : St inp.N inp.total_customers) (t : Thread inp.N inp.total_customers) : Prop :=
  Due pos (round (W := inp.N) inp.customers_pos).length St.ticks tr s t

lemma had_succ {t u : Thread inp.N inp.total_customers} {k : ℤ} (h : Next tr s t) :
    Had inp (tr ++ [(t, s)]) u k ↔ Had inp tr u k ∨ (u = t ∧ k = s.ticks) :=
  h.turned_succ (numbered_parlour inp) _

lemma had_other {t u : Thread inp.N inp.total_customers} {k : ℤ} (h : Next tr s t) (hu : u ≠ t) :
    Had inp (tr ++ [(t, s)]) u k ↔ Had inp tr u k :=
  h.turned_other (numbered_parlour inp) _ hu

lemma had_self {t : Thread inp.N inp.total_customers} {k : ℤ} (h : Next tr s t) :
    Had inp tr t k ↔ 0 ≤ k ∧ k < s.ticks :=
  h.turned_self (numbered_parlour inp)

/-- The state of a customer and of its orders. -/
inductive Guest (inp : Input)
    (tr : List (Thread inp.N inp.total_customers × St inp.N inp.total_customers))
    (s : St inp.N inp.total_customers) (c : Fin inp.total_customers) : Prop
  | expected (h : ¬ Had inp tr (.customer c) (arrival inp c))
      (hr : s.customers c = (start inp).customers c)
      (ho : ∀ i ∈ ids inp c, s.orders i = (start inp).orders i)
  | away (h : Had inp tr (.customer c) (arrival inp c)) (hl : (s.customers c).leaves = true)
      (hf : flags (s.customers c) = (false, true, false, false, false) ∨
        flags (s.customers c) = (false, false, false, false, true))
      (ho : ∀ i ∈ ids inp c, Refused (s.orders i))
  | seated (h : Had inp tr (.customer c) (arrival inp c)) (hl : (s.customers c).leaves = false)
      (hf : flags (s.customers c) = (false, false, false, false, false))
      (ho : ∀ i ∈ ids inp c, Standing inp.N (s.orders i))
  | left (h : Had inp tr (.customer c) (arrival inp c)) (hl : (s.customers c).leaves = true)
      (p q : Bool) (hpq : (p || q) = true)
      (hf : flags (s.customers c) = (false, false, p, q, false))
      (ho : ∀ i ∈ ids inp c, Withdrawn (s.orders i))
  | served (h : Had inp tr (.customer c) (arrival inp c)) (hl : (s.customers c).leaves = true)
      (hf : flags (s.customers c) = (true, false, false, false, false))
      (ho : ∀ i ∈ ids inp c, Served (s.orders i))

/-- What a machine may do to an order that it works on. -/
structure Progress (N : ℕ) (o o' : Order) : Prop where
  placed : o.is_placed ≠ -1
  open_ : o.is_completed = false
  standing : Standing N o → Standing N o'
  withdrawn : Withdrawn o → Withdrawn o'

lemma Guest.congr (h : Guest inp tr s c) (hr : s'.customers c = s.customers c)
    (ho : ∀ i ∈ ids inp c, s'.orders i = s.orders i)
    (hh : Had inp tr' (.customer c) (arrival inp c) ↔ Had inp tr (.customer c) (arrival inp c)) :
    Guest inp tr' s' c := by
  cases h with
  | expected h1 h2 h3 =>
    exact .expected (by rwa [hh]) (hr.trans h2) fun i hi => (ho i hi).trans (h3 i hi)
  | away h1 h2 h3 h4 =>
    exact .away (by rwa [hh]) (by rwa [hr]) (by rwa [hr]) fun i hi => by
      rw [ho i hi]; exact h4 i hi
  | seated h1 h2 h3 h4 =>
    exact .seated (by rwa [hh]) (by rwa [hr]) (by rwa [hr]) fun i hi => by
      rw [ho i hi]; exact h4 i hi
  | left h1 h2 p q hpq h3 h4 =>
    exact .left (by rwa [hh]) (by rwa [hr]) p q hpq (by rwa [hr]) fun i hi => by
      rw [ho i hi]; exact h4 i hi
  | served h1 h2 h3 h4 =>
    exact .served (by rwa [hh]) (by rwa [hr]) (by rwa [hr]) fun i hi => by
      rw [ho i hi]; exact h4 i hi

lemma Guest.progress (h : Guest inp tr s c) (hr : s'.customers c = s.customers c)
    (ho : ∀ j, j ≠ i → s'.orders j = s.orders j)
    (hp : Progress inp.N (s.orders i) (s'.orders i))
    (hh : Had inp tr' (.customer c) (arrival inp c) ↔ Had inp tr (.customer c) (arrival inp c)) :
    Guest inp tr' s' c := by
  by_cases hi : i ∈ ids inp c
  · cases h with
    | expected h1 h2 h3 => exact absurd (by rw [h3 i hi]; rfl) hp.placed
    | away h1 h2 h3 h4 => exact absurd (h4 i hi).placed hp.placed
    | seated h1 h2 h3 h4 =>
      refine .seated (by rwa [hh]) (by rwa [hr]) (by rwa [hr]) fun j hj => ?_
      by_cases hji : j = i
      · subst hji; exact hp.standing (h4 j hj)
      · rw [ho j hji]; exact h4 j hj
    | left h1 h2 p q hpq h3 h4 =>
      refine .left (by rwa [hh]) (by rwa [hr]) p q hpq (by rwa [hr]) fun j hj => ?_
      by_cases hji : j = i
      · subst hji; exact hp.withdrawn (h4 j hj)
      · rw [ho j hji]; exact h4 j hj
    | served h1 h2 h3 h4 =>
      have h5 := (h4 i hi).completed
      rw [hp.open_] at h5
      cases h5
  · exact h.congr hr (fun j hj => ho j (by rintro rfl; exact hi hj)) hh

/-! ### The state of an order -/

/-- The tick in which an order that was started is ready. -/
def ready (o : Order) : ℤ := o.icecreams.time_to_finish o.start_time_of_order

/-- No machine has started on the order. -/
structure Unassigned (o : Order) : Prop where
  id : o.icecream_machine_id = -1
  completed : o.is_completed = false

/-- Machine `m` started on the order in a turn of its, within its hours; it is completed in the
turn of `m` in which it is ready, if that one is to come, and until then in the machine's hands. -/
structure Started (inp : Input)
    (tr : List (Thread inp.N inp.total_customers × St inp.N inp.total_customers))
    (s : St inp.N inp.total_customers) (i : ℕ) (m : Fin inp.N) : Prop where
  id : (s.orders i).icecream_machine_id = (m : ℕ) + 1
  bound : i < inp.icecreams.length
  placed : (s.orders i).is_placed ≠ -1
  since : Had inp tr (.worker m) (s.orders i).start_time_of_order
  opened : (s.icecream_machines m).start_time ≤ (s.orders i).start_time_of_order
  fits : ready (s.orders i) < (s.icecream_machines m).end_time
  completed : (s.orders i).is_completed = true ↔
    (s.orders i).start_time_of_order < ready (s.orders i) ∧
      Had inp tr (.worker m) (ready (s.orders i))
  held : (s.orders i).is_completed = false →
    (s.icecream_machines m).is_busy = true ∧ (s.icecream_machines m).order = some i

/-- What is known of an order. -/
def Known (inp : Input)
    (tr : List (Thread inp.N inp.total_customers × St inp.N inp.total_customers))
    (s : St inp.N inp.total_customers) (i : ℕ) : Prop :=
  Unassigned (s.orders i) ∨ ∃ m, Started inp tr s i m

/-- What the machines wrote on an order. -/
def core (o : Order) : ℤ × ℤ × Bool × Icecream :=
  (o.icecream_machine_id, o.start_time_of_order, o.is_completed, o.icecreams)

lemma core_eq {o o' : Order} (h : core o' = core o) :
    o'.icecream_machine_id = o.icecream_machine_id ∧
      o'.start_time_of_order = o.start_time_of_order ∧ o'.is_completed = o.is_completed ∧
      o'.icecreams = o.icecreams := by
  simpa [core] using h

lemma Known.congr (h : Known inp tr s i) (hc : core (s'.orders i) = core (s.orders i))
    (hp : (s'.orders i).is_placed = -1 → (s.orders i).is_placed = -1)
    (hm : s'.icecream_machines = s.icecream_machines)
    (hh : ∀ m k, Had inp tr' (.worker m) k ↔ Had inp tr (.worker m) k) : Known inp tr' s' i := by
  obtain ⟨h1, h2, h3, h4⟩ := core_eq hc
  rcases h with h | ⟨m, h⟩
  · exact Or.inl ⟨h1.trans h.id, h3.trans h.completed⟩
  · refine Or.inr ⟨m, ?_, h.bound, fun hn => h.placed (hp hn), ?_, ?_, ?_, ?_, ?_⟩ <;>
      simp only [ready, h1, h2, h3, h4, hm, hh]
    exacts [h.id, h.since, h.opened, h.fits, h.completed, h.held]

lemma Known.extend (h : Known inp tr s i) (hd : Next tr s (.worker m))
    (hf : Started inp tr s i m → (s.orders i).is_completed = false →
      ready (s.orders i) ≠ s.ticks) : Known inp (tr ++ [(Thread.worker m, s)]) s i := by
  rcases h with h | ⟨k, h⟩
  · exact Or.inl h
  · refine Or.inr ⟨k, h.id, h.bound, h.placed, ?_, h.opened, h.fits, ?_, h.held⟩
    · rw [had_succ hd]; exact Or.inl h.since
    · rw [had_succ hd, h.completed]
      constructor
      · exact fun ⟨h1, h2⟩ => ⟨h1, Or.inl h2⟩
      · rintro ⟨h1, h2 | ⟨h2, h3⟩⟩
        · exact ⟨h1, h2⟩
        · obtain rfl : k = m := by simpa using h2
          by_cases hcp : (s.orders i).is_completed = true
          · exact h.completed.mp hcp
          · exact absurd h3 (hf h (by simpa using hcp))

lemma Known.keep (h : Known inp tr s i) (hs : s'.orders i = s.orders i) (hsh : shape s' = shape s)
    (hm : ∀ k, k ≠ m → s'.icecream_machines k = s.icecream_machines k)
    (hf : Started inp tr s i m → (s.orders i).is_completed = true) : Known inp tr s' i := by
  rcases h with h | ⟨k, h⟩
  · exact Or.inl (hs.symm ▸ h)
  · have h1 : (s'.icecream_machines k).start_time = (s.icecream_machines k).start_time :=
      congrFun (congrArg Shape.opens hsh) k
    have h2 : (s'.icecream_machines k).end_time = (s.icecream_machines k).end_time :=
      congrFun (congrArg Shape.closes hsh) k
    refine Or.inr ⟨k, ?_, h.bound, ?_, ?_, ?_, ?_, ?_, ?_⟩
    · rw [hs]; exact h.id
    · rw [hs]; exact h.placed
    · rw [hs]; exact h.since
    · rw [hs, h1]; exact h.opened
    · rw [hs, h2]; exact h.fits
    · rw [hs]; exact h.completed
    · rw [hs]
      intro hcp
      have hkm : k ≠ m := by
        rintro rfl
        rw [hf h] at hcp
        cases hcp
      rw [hm k hkm]
      exact h.held hcp

/-- An idle machine has no order, a busy one has one that it started and not completed. -/
structure Hands (s : St inp.N inp.total_customers) : Prop where
  idle : ∀ m, (s.icecream_machines m).is_busy = false → (s.icecream_machines m).order = none
  busy : ∀ m, (s.icecream_machines m).is_busy = true →
    ∃ i, (s.icecream_machines m).order = some i ∧
      (s.orders i).icecream_machine_id = (m : ℕ) + 1 ∧ (s.orders i).is_completed = false

lemma Hands.congr (h : Hands s) (hc : ∀ i, core (s'.orders i) = core (s.orders i))
    (hm : s'.icecream_machines = s.icecream_machines) : Hands s' := by
  refine ⟨fun m hb => ?_, fun m hb => ?_⟩
  · rw [hm] at hb ⊢
    exact h.idle m hb
  · rw [hm] at hb ⊢
    obtain ⟨i, hi, hid, hcp⟩ := h.busy m hb
    obtain ⟨h1, -, h3, -⟩ := core_eq (hc i)
    exact ⟨i, hi, h1.trans hid, h3.trans hcp⟩

/-! ### The whole state -/

/-- The customers who have come, were not turned away for lack of seats and have not left. -/
def sitting (inp : Input)
    (tr : List (Thread inp.N inp.total_customers × St inp.N inp.total_customers))
    (s : St inp.N inp.total_customers) : Finset (Fin inp.total_customers) :=
  Finset.univ.filter fun c => Had inp tr (.customer c) (arrival inp c) ∧
    (s.customers c).leaves_due_to_no_seats = false ∧ (s.customers c).leaves = false

lemma sitting_congr (hh : ∀ c, Had inp tr' (.customer c) (arrival inp c) ↔
      Had inp tr (.customer c) (arrival inp c)) (hc : s'.customers = s.customers) :
    sitting inp tr' s' = sitting inp tr s :=
  Finset.filter_congr fun c _ => by rw [hh, hc]

structure House (inp : Input)
    (tr : List (Thread inp.N inp.total_customers × St inp.N inp.total_customers))
    (s : St inp.N inp.total_customers) : Prop where
  shape : shape s = shape (start inp)
  guest : ∀ c, Guest inp tr s c
  known : ∀ i, Known inp tr s i
  hands : Hands s
  seats : s.customers_sitting_in_parlour = (sitting inp tr s).card

lemma House.arrival_eq (h : House inp tr s) (c : Fin inp.total_customers) :
    (s.customers c).arrival_time = arrival inp c :=
  congrFun (congrArg Shape.arrival h.shape) c

lemma House.ids_eq (h : House inp tr s) (c : Fin inp.total_customers) :
    (s.customers c).order_id_s = ids inp c :=
  congrFun (congrArg Shape.ids h.shape) c

lemma House.total_eq (h : House inp tr s) : s.total_orders = inp.icecreams.length :=
  congrArg Shape.total_orders h.shape

lemma house_start (inp : Input) : House inp [] (start inp) := by
  refine ⟨rfl, fun c => .expected not_turned_zero rfl fun _ _ => rfl,
    fun i => Or.inl ⟨rfl, rfl⟩, ⟨fun m _ => rfl, fun m hb => ?_⟩, ?_⟩
  · simp [start] at hb
  · have hno : sitting inp [] (start inp) = ∅ :=
      Finset.filter_false_of_mem fun c _ hc => not_turned_zero hc.1
    rw [hno]; rfl

lemma House.holds (h : House inp tr s) (hb : (s.icecream_machines m).is_busy = true)
    (ho : (s.icecream_machines m).order = some i) :
    Started inp tr s i m ∧ (s.orders i).is_completed = false := by
  obtain ⟨j, hj, hid, hc⟩ := h.hands.busy m hb
  obtain rfl : j = i := by simpa [hj] using ho
  refine ⟨?_, hc⟩
  rcases h.known j with h1 | ⟨k, h1⟩
  · have h2 := h1.id
    omega
  · obtain rfl : k = m := by
      have h2 := h1.id
      rw [hid] at h2
      exact Fin.ext (by omega)
    exact h1

/-! ### The turn of a machine -/

lemma written_core {o : Order} (h : Written s i o) : core o = core (s.orders i) := by
  cases h <;> rfl

lemma written_placed {o : Order} (h : Written s i o) : o.is_placed = (s.orders i).is_placed := by
  cases h <;> rfl

lemma written_progress {o : Order} (h : Written s i o) (hc : (s.orders i).is_completed = false) :
    o = s.orders i ∨ Progress inp.N (s.orders i) o := by
  have hno : ∀ {o' : Order}, waiting s i = true → Withdrawn (s.orders i) → Withdrawn o' := by
    intro o' hw hwd
    have h1 := (waiting_iff.mp hw).1
    rw [hwd.considered] at h1
    cases h1
  cases h with
  | same => exact Or.inl rfl
  | vote v hw hv =>
    obtain ⟨hcons, hid, hpl⟩ := waiting_iff.mp hw
    refine Or.inr ⟨hpl, hc, fun hst => ?_, hno hw⟩
    obtain ⟨h1, h2⟩ := hst.considered.mp hcons
    have h3 : (s.orders i).rejected_due_to_is_atpreparation = false := by
      by_contra hn
      rw [hst.rejected.mpr (Or.inr (by simpa using hn))] at h2
      cases h2
    exact ⟨hpl, by simp [h2, h3, hv], hst.considered, hst.unassigned⟩
  | last v hw hv =>
    obtain ⟨hcons, hid, hpl⟩ := waiting_iff.mp hw
    exact Or.inr ⟨hpl, hc, fun hst => ⟨hpl, by simp [hv], by simp, fun _ => hid⟩, hno hw⟩
  | short hw =>
    obtain ⟨hcons, hid, hpl⟩ := waiting_iff.mp hw
    exact Or.inr ⟨hpl, hc, fun hst => ⟨hpl, by simp, by simp, fun _ => hid⟩, hno hw⟩

lemma House.reject (h : House inp tr s) (m : Fin inp.N) (i : ℕ) :
    House inp tr (reject m i s) := by
  have ht := touches_reject m i s
  have hw := written m s i
  generalize ParlourTurns.reject m i s = s' at ht hw ⊢
  have hcore : ∀ j, core (s'.orders j) = core (s.orders j) := fun j => by
    by_cases hji : j = i
    · subst hji; exact written_core hw
    · rw [ht.others j (by simpa using hji)]
  refine ⟨ht.shape.trans h.shape, fun c => ?_, fun j => ?_, h.hands.congr hcore ht.machines, ?_⟩
  · have hprog : s'.orders i = s.orders i ∨ Progress inp.N (s.orders i) (s'.orders i) := by
      rcases h.known i with h1 | ⟨k, h1⟩
      · exact written_progress hw h1.completed
      · -- an order that was started does not wait
        have h2 := h1.id
        refine Or.inl (hw.eq_of_not_waiting fun hwt => ?_)
        have h3 := (waiting_iff.mp hwt).2.1
        omega
    rcases hprog with hsame | hprog
    · refine (h.guest c).congr (congrFun ht.customers c) (fun j _ => ?_) Iff.rfl
      by_cases hji : j = i
      · subst hji; exact hsame
      · exact ht.others j (by simpa using hji)
    · exact (h.guest c).progress (congrFun ht.customers c)
        (fun j hj => ht.others j (by simpa using hj)) hprog Iff.rfl
  · refine (h.known j).congr (hcore j) (fun hp => ?_) ht.machines fun _ _ => Iff.rfl
    by_cases hji : j = i
    · subst hji
      rwa [written_placed hw] at hp
    · rwa [ht.others j (by simpa using hji)] at hp
  · rw [ht.sitting, sitting_congr (fun _ => Iff.rfl) ht.customers]; exact h.seats

lemma House.rejects (h : House inp tr s) (m : Fin inp.N) (l : List ℕ) :
    House inp tr (rejects m l s) := by
  induction l generalizing s with
  | nil => exact h
  | cons i l ih => exact ih (h.reject m i)

lemma House.idle_turn (h : House inp tr s) (hd : Next tr s (.worker m))
    (hf : ∀ i, Started inp tr s i m → (s.orders i).is_completed = false →
      ready (s.orders i) ≠ s.ticks) : House inp (tr ++ [(Thread.worker m, s)]) s := by
  refine ⟨h.shape, fun c => ?_, fun i => ?_, h.hands, ?_⟩
  · exact (h.guest c).congr rfl (fun _ _ => rfl) (had_other hd (by simp))
  · exact (h.known i).extend hd (hf i)
  · rw [sitting_congr (fun c => had_other hd (by simp)) rfl]; exact h.seats

/-- An idle machine starts on an order. -/
lemma House.takes_up (h : House inp (tr ++ [(Thread.worker m, s)]) s') (hd : Next tr s (.worker m))
    (ht : s'.ticks = s.ticks) (h0 : (s'.icecream_machines m).start_time ≤ s.ticks)
    (hb : (s'.icecream_machines m).is_busy = false) (hi : startable m s' i = true)
    (hlt : i < inp.icecreams.length) :
    House inp (tr ++ [(Thread.worker m, s)]) (start_order m i s') := by
  simp only [startable, Bool.and_eq_true, decide_eq_true_eq] at hi
  obtain ⟨⟨hw, hfit⟩, -⟩ := hi
  obtain ⟨hcons, hid, hpl⟩ := waiting_iff.mp hw
  have hun : Unassigned (s'.orders i) := by
    rcases h.known i with h1 | ⟨k, h1⟩
    · exact h1
    · have h2 := h1.id
      omega
  have hself : (start_order m i s').orders i = { s'.orders i with
      icecream_machine_id := m + 1, start_time_of_order := s'.ticks } := by
    simp [start_order, St.setMachine, St.setOrder]
  have hoth : ∀ j, j ≠ i → (start_order m i s').orders j = s'.orders j := fun j hj => by
    simp [start_order, St.setMachine, St.setOrder, Function.update_of_ne hj]
  have hmach : (start_order m i s').icecream_machines m =
      { s'.icecream_machines m with is_busy := true, order := some i } := by
    simp [start_order, St.setMachine]
  have hmoth : ∀ k, k ≠ m → (start_order m i s').icecream_machines k = s'.icecream_machines k :=
    fun k hk => by simp [start_order, St.setMachine, St.setOrder, Function.update_of_ne hk]
  have hsh := shape_start_order m i s'
  refine ⟨hsh.trans h.shape, fun c => ?_, fun j => ?_, ⟨fun k hk => ?_, fun k hk => ?_⟩, h.seats⟩
  · refine (h.guest c).progress rfl hoth ⟨hpl, hun.completed, fun hst => ?_, fun hwd => ?_⟩ Iff.rfl
    · have hrej := (hst.considered.mp hcons).2
      rw [hself]
      exact ⟨hpl, hst.rejected, hst.considered, fun hr => by rw [hrej] at hr; cases hr⟩
    · rw [hwd.considered] at hcons
      cases hcons
  · by_cases hji : j = i
    · subst hji
      refine Or.inr ⟨m, ?_, hlt, ?_, ?_, ?_, ?_, ?_, ?_⟩
      · rw [hself]
      · rw [hself]; exact hpl
      · rw [hself, had_succ hd]; exact Or.inr ⟨rfl, ht⟩
      · rw [hself, hmach]; exact h0.trans_eq ht.symm
      · rw [hself, hmach]; exact hfit
      · rw [hself, had_succ hd, had_self hd]
        simp only [ready, hun.completed, ht]
        constructor
        · exact fun hc => by cases hc
        · rintro ⟨h1, ⟨-, h2⟩ | ⟨-, h2⟩⟩ <;> omega
      · intro _
        rw [hmach]
        exact ⟨rfl, rfl⟩
    · refine (h.known j).keep (hoth j hji) hsh hmoth fun h1 => ?_
      by_contra hc
      have h2 := (h1.held (by simpa using hc)).1
      rw [hb] at h2
      cases h2
  · by_cases hkm : k = m
    · rw [hkm, hmach] at hk
      cases hk
    · rw [hmoth k hkm] at hk ⊢
      exact h.hands.idle k hk
  · by_cases hkm : k = m
    · subst hkm
      refine ⟨i, by rw [hmach], ?_⟩
      rw [hself]
      exact ⟨rfl, hun.completed⟩
    · rw [hmoth k hkm] at hk ⊢
      obtain ⟨j, hj, hjid, hjc⟩ := h.hands.busy k hk
      have hji : j ≠ i := by
        rintro rfl
        omega
      refine ⟨j, hj, ?_⟩
      rw [hoth j hji]
      exact ⟨hjid, hjc⟩

/-- A busy machine completes its order. -/
lemma House.complete (h : House inp tr s) (hd : Next tr s (.worker m))
    (hb : (s.icecream_machines m).is_busy = true) (ho : (s.icecream_machines m).order = some i)
    (hr : ready (s.orders i) = s.ticks) :
    House inp (tr ++ [(Thread.worker m, s)]) (complete_order m i s) := by
  obtain ⟨hst, hopen⟩ := h.holds hb ho
  have hself : (complete_order m i s).orders i = { s.orders i with
      is_completed := true, is_to_considered := false } := by
    simp [complete_order, St.setMachine, St.setOrder]
  have hoth : ∀ j, j ≠ i → (complete_order m i s).orders j = s.orders j := fun j hj => by
    simp [complete_order, St.setMachine, St.setOrder, Function.update_of_ne hj]
  have hmach : (complete_order m i s).icecream_machines m =
      { s.icecream_machines m with is_busy := false, order := none } := by
    simp [complete_order, St.setMachine]
  have hmoth : ∀ k, k ≠ m → (complete_order m i s).icecream_machines k = s.icecream_machines k :=
    fun k hk => by simp [complete_order, St.setMachine, St.setOrder, Function.update_of_ne hk]
  have hsh := shape_complete_order m i s
  -- the other orders that `m` started are completed
  have hdone : ∀ j, j ≠ i → Started inp tr s j m → (s.orders j).is_completed = true := by
    intro j hji h1
    by_contra hc
    have h2 := (h1.held (by simpa using hc)).2
    rw [ho] at h2
    exact hji (Option.some.inj h2).symm
  refine ⟨hsh.trans h.shape, fun c => ?_, fun j => ?_, ⟨fun k hk => ?_, fun k hk => ?_⟩, ?_⟩
  · refine (h.guest c).progress rfl hoth ⟨hst.placed, hopen, fun hs => ?_, fun hwd => ?_⟩
      (had_other hd (by simp))
    · have hrej : (s.orders i).rejected = false := by
        by_contra hn
        have h1 := hs.unassigned (by simpa using hn)
        have h2 := hst.id
        omega
      rw [hself]
      exact ⟨hst.placed, hs.rejected, by simp, fun hn => by rw [hrej] at hn; cases hn⟩
    · rw [hself]
      exact ⟨hst.placed, hwd.rejected, rfl⟩
  · by_cases hji : j = i
    · subst hji
      have hlater : (s.orders j).start_time_of_order < ready (s.orders j) := by
        rw [hr]
        exact ((had_self hd).mp hst.since).2
      refine Or.inr ⟨m, ?_, hst.bound, ?_, ?_, ?_, ?_, ?_, ?_⟩
      · rw [hself]; exact hst.id
      · rw [hself]; exact hst.placed
      · rw [hself, had_succ hd]; exact Or.inl hst.since
      · rw [hself, hmach]; exact hst.opened
      · rw [hself, hmach]; exact hst.fits
      · rw [hself, had_succ hd]
        exact ⟨fun _ => ⟨hlater, Or.inr ⟨rfl, hr⟩⟩, fun _ => rfl⟩
      · rw [hself]
        exact fun hc => by cases hc
    · refine ((h.known j).extend hd fun h1 h2 => ?_).keep (hoth j hji) hsh hmoth fun h1 => ?_
      · rw [hdone j hji h1] at h2
        cases h2
      · by_contra hc
        have h2 := (h1.held (by simpa using hc)).2
        rw [ho] at h2
        exact hji (Option.some.inj h2).symm
  · by_cases hkm : k = m
    · rw [hkm, hmach]
    · rw [hmoth k hkm] at hk ⊢
      exact h.hands.idle k hk
  · have hkm : k ≠ m := by
      rintro rfl
      rw [hmach] at hk
      cases hk
    rw [hmoth k hkm] at hk ⊢
    obtain ⟨j, hj, hjid, hjc⟩ := h.hands.busy k hk
    have hji : j ≠ i := by
      rintro rfl
      have h2 := hst.id
      rw [hjid] at h2
      exact hkm (Fin.ext (by omega))
    refine ⟨j, hj, ?_⟩
    rw [hoth j hji]
    exact ⟨hjid, hjc⟩
  · rw [sitting_congr (fun c => had_other hd (by simp)) rfl]; exact h.seats

lemma House.stop (h : House inp tr s) (m : Fin inp.N) : House inp tr (stop m s) := by
  unfold ParlourTurns.stop
  split_ifs
  · exact ⟨h.shape, fun c => (h.guest c).congr rfl (fun _ _ => rfl) Iff.rfl,
      fun i => (h.known i).congr rfl (fun hp => hp) rfl fun _ _ => Iff.rfl,
      h.hands.congr (fun _ => rfl) rfl, h.seats⟩
  · exact h

lemma House.worker (h : House inp tr s) (hd : Next tr s (.worker m)) :
    House inp (tr ++ [(Thread.worker m, s)]) (icecream_machine_func m s) := by
  rw [machine_turn]
  refine House.stop ?_ m
  have hidle : (s.icecream_machines m).is_busy = false →
      House inp (tr ++ [(Thread.worker m, s)]) s := fun hb => by
    refine h.idle_turn hd fun i h1 h2 => ?_
    rw [(h1.held h2).1] at hb
    cases hb
  have hw := working m s
  generalize work m s = s' at hw ⊢
  cases hw with
  | nothing hs hf hbusy =>
    refine h.idle_turn hd fun i h1 h2 hr => ?_
    obtain ⟨hb, ho⟩ := h1.held h2
    have h3 := ((had_self hd).mp h1.since).2
    have h4 := h1.opened
    have h5 := h1.fits
    -- it would be open and find the order ready
    simp only [finished, hb, ho] at hf
    rw [if_pos ⟨by omega, by omega, trivial⟩] at hf
    simp only [Option.filter_some, beq_iff_eq] at hf
    rw [if_pos (by exact hr)] at hf
    cases hf
  | scan h0 h1 hb hs hf => exact (hidle hb).rejects m _
  | start i h0 h1 hb hs hf hi hlt =>
    have ht := touches_rejects m (List.range i) s
    refine House.takes_up ((hidle hb).rejects m _) hd ht.ticks ?_ ?_ ?_ (h.total_eq ▸ hlt)
    · rw [ht.machines]; exact h0
    · rw [ht.machines]; exact hb
    · rw [ht.startable_eq (by simp) m]; exact hi
  | complete i h0 h1 hb ho hs hf =>
    refine h.complete hd hb ho ?_
    simp only [finished, ho] at hf
    rw [if_pos ⟨h0, h1, hb⟩] at hf
    have h2 := (Option.filter_eq_some_iff.mp hf).2
    rwa [beq_iff_eq] at h2

/-! ### The turn of a customer -/

lemma House.own_turn (h : House inp tr s) (hd : Next tr s (.customer c))
    (hsh : ParlourTurns.shape s' = ParlourTurns.shape s)
    (hm : s'.icecream_machines = s.icecream_machines)
    (ho : ∀ i, i ∉ ids inp c → s'.orders i = s.orders i)
    (hcore : ∀ i, core (s'.orders i) = core (s.orders i))
    (hp : ∀ i, (s'.orders i).is_placed = -1 → (s.orders i).is_placed = -1)
    (hc : ∀ d, d ≠ c → s'.customers d = s.customers d)
    (hg : Guest inp (tr ++ [(Thread.customer c, s)]) s' c)
    (hseats : s'.customers_sitting_in_parlour =
      (sitting inp (tr ++ [(Thread.customer c, s)]) s').card) :
    House inp (tr ++ [(Thread.customer c, s)]) s' := by
  refine ⟨hsh.trans h.shape, fun d => ?_, fun i => ?_, h.hands.congr hcore hm, hseats⟩
  · by_cases hdc : d = c
    · subst hdc; exact hg
    · exact (h.guest d).congr (hc d hdc) (fun i hi => ho i (ids_disjoint inp hdc hi))
        (had_other hd (by simpa using hdc))
  · exact (h.known i).congr (hcore i) (hp i) hm fun m k => had_other hd (by simp)

lemma mem_sitting : d ∈ sitting inp tr s ↔ Had inp tr (.customer d) (arrival inp d) ∧
    (s.customers d).leaves_due_to_no_seats = false ∧ (s.customers d).leaves = false := by
  simp [sitting]

lemma sitting_other (hd : Next tr s (.customer c)) (hc : ∀ d, d ≠ c → s'.customers d = s.customers d)
    (hdc : d ≠ c) :
    d ∈ sitting inp (tr ++ [(Thread.customer c, s)]) s' ↔ d ∈ sitting inp tr s := by
  rw [mem_sitting, mem_sitting, hc d hdc, had_other hd (by simpa using hdc)]

lemma sitting_keep (hd : Next tr s (.customer c)) (hc : ∀ d, d ≠ c → s'.customers d = s.customers d)
    (h : c ∈ sitting inp (tr ++ [(Thread.customer c, s)]) s' ↔ c ∈ sitting inp tr s) :
    sitting inp (tr ++ [(Thread.customer c, s)]) s' = sitting inp tr s := by
  ext d
  by_cases hdc : d = c
  · subst hdc; exact h
  · exact sitting_other hd hc hdc

lemma sitting_insert (hd : Next tr s (.customer c))
    (hc : ∀ d, d ≠ c → s'.customers d = s.customers d)
    (h : c ∈ sitting inp (tr ++ [(Thread.customer c, s)]) s') (h' : c ∉ sitting inp tr s) :
    (sitting inp (tr ++ [(Thread.customer c, s)]) s').card = (sitting inp tr s).card + 1 := by
  rw [← Finset.card_insert_of_notMem h']
  congr 1
  ext d
  by_cases hdc : d = c
  · subst hdc; simpa using h
  · rw [Finset.mem_insert, sitting_other hd hc hdc]
    simp [hdc]

lemma sitting_erase (hd : Next tr s (.customer c))
    (hc : ∀ d, d ≠ c → s'.customers d = s.customers d)
    (h : c ∉ sitting inp (tr ++ [(Thread.customer c, s)]) s') (h' : c ∈ sitting inp tr s) :
    (sitting inp (tr ++ [(Thread.customer c, s)]) s').card + 1 = (sitting inp tr s).card := by
  rw [← Finset.card_erase_add_one h']
  congr 2
  ext d
  by_cases hdc : d = c
  · subst hdc; simpa using h
  · rw [Finset.mem_erase, sitting_other hd hc hdc]
    simp [hdc]

lemma House.arriving (h : House inp tr s) (hd : Next tr s (.customer c))
    (ha : (s.customers c).arrival_time = s.ticks) :
    s.customers c = (start inp).customers c ∧ ∀ i ∈ ids inp c, s.orders i = (start inp).orders i := by
  have hno : ¬ Had inp tr (.customer c) (arrival inp c) := by
    rw [had_self hd, ← h.arrival_eq c]
    omega
  cases h.guest c with
  | expected h1 h2 h3 => exact ⟨h2, h3⟩
  | away h1 => exact absurd h1 hno
  | seated h1 => exact absurd h1 hno
  | left h1 => exact absurd h1 hno
  | served h1 => exact absurd h1 hno

lemma marked_core {f : Order → Order} (hf : ∀ o, core (f o) = core o) (l : List ℕ)
    (orders : ℕ → Order) (i : ℕ) : core (marked f l orders i) = core (orders i) := by
  unfold marked
  split_ifs
  · exact hf _
  · rfl

lemma shape_setGuest {s : St inp.N inp.total_customers} {r : Customer} {orders : ℕ → Order}
    (h1 : r.arrival_time = (s.customers c).arrival_time)
    (h2 : r.icecreams = (s.customers c).icecreams)
    (h3 : r.order_id_s = (s.customers c).order_id_s)
    (h4 : ∀ i, core (orders i) = core (s.orders i)) :
    ParlourTurns.shape (ParlourTurns.St.setGuest s c r orders) = ParlourTurns.shape s :=
  (shape_orders (s := s.setCustomer c r) fun i => (core_eq (h4 i)).2.2.2).trans
    (shape_setCustomer h1 h2 h3)

/-- The customer is turned away: no seats, or a topping is short. -/
lemma House.turned_away (h : House inp tr s) (hd : Next tr s (.customer c))
    (ha : (s.customers c).arrival_time = s.ticks) {r : Customer} {f : Order → Order}
    (h1 : r.arrival_time = (s.customers c).arrival_time)
    (h2 : r.icecreams = (s.customers c).icecreams)
    (h3 : r.order_id_s = (s.customers c).order_id_s) (hl : r.leaves = true)
    (hf : flags r = (false, true, false, false, false) ∨
      flags r = (false, false, false, false, true))
    (hcore : ∀ o, core (f o) = core o) (hpl : ∀ o, (f o).is_placed = o.is_placed)
    (hrej : ∀ o, (f o).rejected = true ∧ (f o).is_to_considered = false) (k : ℕ) :
    House inp (tr ++ [(Thread.customer c, s)])
      { ParlourTurns.St.setGuest s c r (marked f (ids inp c) s.orders) with
        orders_considered := k } := by
  obtain ⟨hcus, hord⟩ := h.arriving hd ha
  have hhad : Had inp (tr ++ [(Thread.customer c, s)]) (.customer c) (arrival inp c) := by
    rw [had_succ hd, ← h.arrival_eq c]
    exact Or.inr ⟨rfl, ha⟩
  have hoth : ∀ d, d ≠ c → Function.update s.customers c r d = s.customers d :=
    fun d hdc => Function.update_of_ne hdc _ _
  refine h.own_turn hd (shape_setGuest h1 h2 h3 fun i => marked_core hcore _ _ i) rfl
    (fun i hi => if_neg hi) (fun i => marked_core hcore _ _ i) (fun i hi => ?_) hoth ?_ ?_
  · simp only [ParlourTurns.St.setGuest, marked] at hi
    split_ifs at hi
    · rwa [hpl] at hi
    · exact hi
  · refine .away hhad ?_ ?_ fun i hi => ?_
    · simpa [ParlourTurns.St.setGuest] using hl
    · simpa [ParlourTurns.St.setGuest] using hf
    · have ho : marked f (ids inp c) s.orders i = f (s.orders i) := if_pos hi
      simp only [ParlourTurns.St.setGuest]
      rw [ho]
      refine ⟨?_, (hrej _).1, (hrej _).2, ?_⟩
      · rw [hpl, hord i hi]; rfl
      · rw [(core_eq (hcore _)).1, hord i hi]; rfl
  · have hsit : sitting inp (tr ++ [(Thread.customer c, s)]) { ParlourTurns.St.setGuest s c r
        (marked f (ids inp c) s.orders) with orders_considered := k } = sitting inp tr s := by
      refine sitting_keep hd hoth ?_
      rw [mem_sitting, mem_sitting, had_self hd, ← h.arrival_eq c]
      simp only [ParlourTurns.St.setGuest, Function.update_self, hl]
      constructor
      · rintro ⟨-, -, h4⟩
        cases h4
      · rintro ⟨h4, -⟩
        omega
    rw [hsit]
    exact h.seats

/-- The customer sits down. -/
lemma House.sits_down (h : House inp tr s) (hd : Next tr s (.customer c))
    (ha : (s.customers c).arrival_time = s.ticks) :
    House inp (tr ++ [(Thread.customer c, s)]) { s with
      orders := marked (placed s.ticks) (ids inp c) s.orders
      customers_sitting_in_parlour := s.customers_sitting_in_parlour + 1 } := by
  obtain ⟨hcus, hord⟩ := h.arriving hd ha
  have hticks := hd.nonneg
  have hhad : Had inp (tr ++ [(Thread.customer c, s)]) (.customer c) (arrival inp c) := by
    rw [had_succ hd, ← h.arrival_eq c]
    exact Or.inr ⟨rfl, ha⟩
  have hcore : ∀ i, core (marked (placed s.ticks) (ids inp c) s.orders i) = core (s.orders i) :=
    fun i => marked_core (f := placed s.ticks) (fun _ => rfl) _ _ i
  refine h.own_turn hd (shape_orders fun i => (core_eq (hcore i)).2.2.2) rfl (fun i hi => if_neg hi)
    hcore (fun i hi => ?_) (fun _ _ => rfl) ?_ ?_
  · simp only [marked, placed] at hi
    split_ifs at hi
    · dsimp only at hi
      omega
    · exact hi
  · refine .seated hhad ?_ ?_ fun i hi => ?_
    · rw [hcus]; rfl
    · rw [hcus]; rfl
    · have ho : marked (placed s.ticks) (ids inp c) s.orders i = placed s.ticks (s.orders i) :=
        if_pos hi
      have hN := inp.N_pos
      dsimp only
      rw [ho, hord i hi]
      refine ⟨by simp only [placed]; omega, ?_, ?_, ?_⟩
      · simp only [placed, start, newOrder, Bool.false_eq_true, or_false, false_iff]
        omega
      · simp [placed, start, newOrder]
      · simp [placed, start, newOrder]
  · have hsit : (sitting inp (tr ++ [(Thread.customer c, s)]) { s with
        orders := marked (placed s.ticks) (ids inp c) s.orders
        customers_sitting_in_parlour := s.customers_sitting_in_parlour + 1 }).card =
        (sitting inp tr s).card + 1 := sitting_insert hd (fun _ _ => rfl) ?_ ?_
    · rw [hsit]
      simp only [h.seats]
      push_cast
      rfl
    · rw [mem_sitting]
      refine ⟨hhad, ?_, ?_⟩
      · rw [hcus]; rfl
      · rw [hcus]; rfl
    · rw [mem_sitting, had_self hd, ← h.arrival_eq c]
      rintro ⟨h1, -⟩
      omega

lemma House.seated_of (h : House inp tr s) (hl : (s.customers c).leaves = false) (hi : i ∈ ids inp c)
    (ho : s.orders i ≠ (start inp).orders i) :
    Had inp tr (.customer c) (arrival inp c) ∧
      flags (s.customers c) = (false, false, false, false, false) ∧
      ∀ i ∈ ids inp c, Standing inp.N (s.orders i) := by
  cases h.guest c with
  | expected h1 h2 h3 => exact absurd (h3 i hi) ho
  | seated h1 h2 h3 h4 => exact ⟨h1, h3, h4⟩
  | away h1 h2 => rw [hl] at h2; cases h2
  | left h1 h2 => rw [hl] at h2; cases h2
  | served h1 h2 => rw [hl] at h2; cases h2

/-- The customer withdraws or is served: it leaves its seat. -/
lemma House.gets_up (h : House inp tr s) (hd : Next tr s (.customer c))
    (hl : (s.customers c).leaves = false)
    (hhad : Had inp tr (.customer c) (arrival inp c))
    (hseat : flags (s.customers c) = (false, false, false, false, false)) {r : Customer}
    {orders : ℕ → Order} (h1 : r.arrival_time = (s.customers c).arrival_time)
    (h2 : r.icecreams = (s.customers c).icecreams)
    (h3 : r.order_id_s = (s.customers c).order_id_s) (hr : r.leaves = true)
    (hcore : ∀ i, core (orders i) = core (s.orders i))
    (hp : ∀ i, (orders i).is_placed = (s.orders i).is_placed)
    (ho : ∀ i, i ∉ ids inp c → orders i = s.orders i)
    (hg : Guest inp (tr ++ [(Thread.customer c, s)]) { ParlourTurns.St.setGuest s c r orders with
      customers_sitting_in_parlour := s.customers_sitting_in_parlour - 1 } c) :
    House inp (tr ++ [(Thread.customer c, s)]) { ParlourTurns.St.setGuest s c r orders with
      customers_sitting_in_parlour := s.customers_sitting_in_parlour - 1 } := by
  have hoth : ∀ d, d ≠ c → Function.update s.customers c r d = s.customers d :=
    fun d hdc => Function.update_of_ne hdc _ _
  refine h.own_turn hd (shape_setGuest h1 h2 h3 hcore) rfl ho hcore
    (fun i hi => (hp i).symm.trans hi) hoth hg ?_
  have hsit : (sitting inp (tr ++ [(Thread.customer c, s)])
      { ParlourTurns.St.setGuest s c r orders with
        customers_sitting_in_parlour := s.customers_sitting_in_parlour - 1 }).card + 1 =
      (sitting inp tr s).card := sitting_erase hd hoth ?_ ?_
  · have h4 := h.seats
    change s.customers_sitting_in_parlour - 1 = _
    omega
  · rw [mem_sitting]
    simp [ParlourTurns.St.setGuest, hr]
  · rw [mem_sitting]
    refine ⟨hhad, ?_, hl⟩
    simp only [flags, Prod.mk.injEq] at hseat
    exact hseat.2.2.2.2

lemma House.tick (h : House inp tr s) : House inp tr (tick s) :=
  ⟨h.shape, fun c => (h.guest c).congr rfl (fun _ _ => rfl) Iff.rfl,
    fun i => (h.known i).congr rfl (fun hp => hp) rfl fun _ _ => Iff.rfl,
    h.hands.congr (fun _ => rfl) rfl, h.seats⟩

lemma House.visited (h : House inp tr s) (hd : Next tr s (.customer c)) :
    Visited c s (visit c s) := by
  refine ParlourTurns.visited ?_ fun ha i hi => ?_
  · rw [h.ids_eq c]; exact ids_nodup inp c
  · rw [h.ids_eq c] at hi
    rw [(h.arriving hd ha).2 i hi]; rfl

lemma withdrawn_core (N : ℕ) (p : Bool) (o : Order) : core (withdrawn N p o) = core o := by
  unfold withdrawn
  dsimp only
  split_ifs <;> rfl

lemma withdrawn_placed (N : ℕ) (p : Bool) (o : Order) :
    (withdrawn N p o).is_placed = o.is_placed ∧ (withdrawn N p o).rejected = true ∧
      (withdrawn N p o).is_to_considered = false := by
  unfold withdrawn
  dsimp only
  split_ifs <;> exact ⟨rfl, rfl, rfl⟩

lemma House.customer (h : House inp tr s) (hd : Next tr s (.customer c)) :
    House inp (tr ++ [(Thread.customer c, s)]) (customer_func c s) := by
  have hbody : House inp (tr ++ [(Thread.customer c, s)]) (ParlourTurns.visit c s) := by
    have hv := h.visited hd
    generalize ParlourTurns.visit c s = s' at hv ⊢
    cases hv with
    | full ha hk =>
      rw [h.ids_eq c]
      refine h.turned_away (f := noSeat) hd ha (by rfl) (by rfl) (by rfl) rfl (Or.inr ?_)
        (fun _ => rfl) (fun _ => rfl) (fun _ => ⟨rfl, rfl⟩) _
      rw [(h.arriving hd ha).1]; rfl
    | short ha hk hp =>
      rw [h.ids_eq c]
      refine h.turned_away (f := shortAtPlacement) hd ha (by rfl) (by rfl) (by rfl) rfl
        (Or.inl ?_) (fun _ => rfl) (fun _ => rfl) (fun _ => ⟨rfl, rfl⟩) _
      rw [(h.arriving hd ha).1]; rfl
    | seated ha hk hp =>
      rw [h.ids_eq c]
      exact h.sits_down hd ha
    | withdrawn ha hl hr =>
      -- an order that was voted on or short is not as it was
      obtain ⟨i, hi, ho⟩ : ∃ i ∈ ids inp c, s.orders i ≠ (start inp).orders i := by
        have hN := inp.N_pos
        rw [Bool.or_eq_true] at hr
        rcases hr with hr | hr
        · obtain ⟨i, hi, hv⟩ := List.any_eq_true.mp hr
          rw [h.ids_eq c] at hi
          refine ⟨i, hi, fun heq => ?_⟩
          simp [heq, start, newOrder] at hv
          omega
        · obtain ⟨i, hi, hv⟩ := List.any_eq_true.mp hr
          rw [h.ids_eq c] at hi
          refine ⟨i, hi, fun heq => ?_⟩
          simp [heq, start, newOrder] at hv
      obtain ⟨hhad, hseat, hst⟩ := h.seated_of hl hi ho
      rw [h.ids_eq c]
      refine h.gets_up hd hl hhad hseat (by rfl) (by rfl) (by rfl) rfl
        (fun i => marked_core (withdrawn_core _ _) _ _ i) (fun i => ?_) (fun i hi => if_neg hi) ?_
      · unfold marked
        split_ifs
        · exact (withdrawn_placed _ _ _).1
        · rfl
      · simp only [flags, Prod.mk.injEq] at hseat
        refine .left (by rw [had_succ hd]; exact Or.inl hhad) ?_ (shortage c s) (no_service c s)
          (by rw [Bool.or_comm]; exact hr) ?_ fun i hi => ?_
        · simp [ParlourTurns.St.setGuest]
        · simp [ParlourTurns.St.setGuest, flags, hseat]
        · obtain ⟨h1, h2, h3⟩ := withdrawn_placed inp.N (no_service c s) (s.orders i)
          have hm : marked (withdrawn inp.N (no_service c s)) (ids inp c) s.orders i =
            withdrawn inp.N (no_service c s) (s.orders i) := if_pos hi
          simp only [ParlourTurns.St.setGuest]
          rw [hm]
          exact ⟨by rw [h1]; exact (hst i hi).placed, h2, h3⟩
    | served ha hl hr hne hall =>
      rw [h.ids_eq c] at hne hall
      obtain ⟨i, hi⟩ := List.exists_mem_of_ne_nil _ hne
      obtain ⟨hhad, hseat, hst⟩ := h.seated_of hl hi (fun heq => by
        have h1 := hall i hi
        rw [heq] at h1
        cases h1)
      refine h.gets_up hd hl hhad hseat (by rfl) (by rfl) (by rfl) rfl (fun _ => rfl) (fun _ => rfl)
        (fun _ _ => rfl) ?_
      simp only [flags, Prod.mk.injEq] at hseat
      refine .served (by rw [had_succ hd]; exact Or.inl hhad) ?_ ?_ fun i hi => ?_
      · simp [ParlourTurns.St.setGuest]
      · simp [ParlourTurns.St.setGuest, flags, hseat]
      · have hc := hall i hi
        have hrej : (s.orders i).rejected = false := by
          by_contra hn
          have h1 := (hst i hi).unassigned (by simpa using hn)
          rcases h.known i with h2 | ⟨m, h2⟩
          · rw [h2.completed] at hc
            cases hc
          · have h3 := h2.id
            omega
        refine ⟨(hst i hi).placed, hc, hrej, ?_⟩
        by_contra hn
        have h1 := ((hst i hi).considered.mp (by simpa [ParlourTurns.St.setGuest] using hn)).1
        rw [hc] at h1
        cases h1
    | nothing ha hr hall =>
      have hhad : Had inp (tr ++ [(Thread.customer c, s)]) (.customer c) (arrival inp c) ↔
          Had inp tr (.customer c) (arrival inp c) := by
        rw [had_succ hd, ← h.arrival_eq c]
        exact or_iff_left fun hc => ha hc.2
      refine h.own_turn hd rfl rfl (fun _ _ => rfl) (fun _ => rfl) (fun _ hp => hp) (fun _ _ => rfl)
        ((h.guest c).congr rfl (fun _ _ => rfl) hhad) ?_
      rw [sitting_keep hd (fun _ _ => rfl) (by rw [mem_sitting, mem_sitting, hhad])]
      exact h.seats
  rw [customer_turn]
  split_ifs
  · exact hbody.tick
  · exact hbody

lemma house_keeps (inp : Input)
    (C : Thread inp.N inp.total_customers → St inp.N inp.total_customers → Prop) :
    Keeps (prog inp) pos (round (W := inp.N) inp.customers_pos).length St.ticks C (House inp) := by
  intro tr s t hd _ h
  cases t with
  | worker m => exact h.worker hd
  | customer c => exact h.customer hd

end Xv6.ParlourHouse
