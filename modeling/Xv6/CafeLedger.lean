import Xv6.Rounds
import Xv6.CafeClose

/-!
The orders of the cafe from taking to closing.

A turn of a barista or of a customer can do few things to an order; they are listed once. From
them follows, for every order and after any number of turns, who took it and when, whether it is
completed, closed and handed over, and whether its customer is still there, each of these in terms
of which turns have been taken.
-/

namespace Xv6.CafeLedger

open Xv6.Ring Xv6.Rounds Xv6.Crew Xv6.Cafe Xv6.CafeClose Xv6.Turns

variable {B N : ℕ}

/-! ### What a turn can do -/

/-- The tick in which the customer leaves if nothing has come. -/
def leaving (c : Customer) : ℤ := c.arrival_time + c.tolerance_time + 1

/-- The order that the barista takes in its turn. -/
def taken (b : Fin B) (s : St B N) : Option (Fin N) :=
  if (s.baristas b).is_free then (List.finRange N).find? s.waiting else none

/-- The order that the barista finishes in its turn. -/
def finished (b : Fin B) (s : St B N) : Option (Fin N) :=
  (s.baristas b).order.filter fun i =>
    s.ticks == (s.orders i).is_taken_up + (s.orders i).customer.coffee.time_to_make

/-- The baristas that took order `i`, in turn. -/
def takers (tr : List (Thread B N × St B N)) (i : Fin N) : List (Fin B) :=
  tr.filterMap fun e =>
    match e.1 with
    | .worker b => if taken b e.2 = some i then some b else none
    | .customer _ => none

/-- A free barista has no order, a busy one has one of its own that is neither completed nor
closed. -/
structure Hands (s : St B N) : Prop where
  idle : ∀ b, (s.baristas b).is_free = true → (s.baristas b).order = none
  busy : ∀ b, (s.baristas b).is_free = false → ∃ i, (s.baristas b).order = some i ∧
    (s.orders i).barista_id = (b : ℕ) ∧ (s.orders i).is_completed = false

/-- The turn of a barista: nothing, an order taken or an order finished. -/
inductive Serving (b : Fin B) (s : St B N) : St B N → Prop
  | nothing (ht : taken b s = none) (hf : finished b s = none) : Serving b s s
  | take (i : Fin N) (hi : taken b s = some i) (hw : s.waiting i = true)
      (hb : (s.baristas b).is_free = true) :
      Serving b s ((s.setOrder i { s.orders i with
        barista_id := b, is_taken_up := s.ticks }).setBarista b
          { s.baristas b with order := some i, is_free := false })
  | finish (i : Fin N) (ht : taken b s = none) (hf : finished b s = some i)
      (hb : (s.baristas b).is_free = false) (ho : (s.baristas b).order = some i) :
      Serving b s (finish_order b i s)

lemma serving {s : St B N} (h : Hands s) (b : Fin B) : Serving b s (barista_func b s) := by
  cases hb : (s.baristas b).is_free with
  | true =>
    have hf : finished b s = none := by simp [finished, h.idle b hb]
    simp only [barista_func, hb, if_true, take_order]
    cases hw : (List.finRange N).find? s.waiting with
    | none => exact .nothing (by simp [taken, hb, hw]) hf
    | some i => exact .take i (by simp [taken, hb, hw]) (List.find?_some hw) hb
  | false =>
    obtain ⟨i, hi, hid, hc⟩ := h.busy b hb
    have ht : taken b s = none := by simp [taken, hb]
    simp only [barista_func, hb, hi, hc]
    by_cases hd : s.ticks - (s.orders i).is_taken_up = (s.orders i).customer.coffee.time_to_make
    · have hf : finished b s = some i := by
        simp only [finished, hi, Option.filter_some, beq_iff_eq]
        rw [if_pos (by omega)]
      simpa [hd] using Serving.finish i ht hf hb hi
    · have hf : finished b s = none := by
        simp only [finished, hi, Option.filter_some, beq_iff_eq]
        rw [if_neg (by omega)]
      simpa [hd] using Serving.nothing ht hf

/-- The turn of a customer: the order keeps what the baristas wrote; if it is the tick to leave the
customer is gone, and an order that nobody took is closed. -/
structure Visit (i : Fin N) (s s' : St B N) : Prop where
  baristas : s'.baristas = s.baristas
  customers : s'.customers = s.customers
  others : ∀ j, j ≠ i → s'.orders j = s.orders j
  barista_id : (s'.orders i).barista_id = (s.orders i).barista_id
  is_taken_up : (s'.orders i).is_taken_up = (s.orders i).is_taken_up
  is_completed : (s'.orders i).is_completed = (s.orders i).is_completed
  is_given : (s'.orders i).is_given_to_customer = (s.orders i).is_given_to_customer
  arrival_time : (s'.orders i).customer.arrival_time = (s.orders i).customer.arrival_time
  coffee : (s'.orders i).customer.coffee = (s.orders i).customer.coffee
  present : (s'.orders i).is_customer_present =
    ((s.orders i).is_customer_present && !decide (s.ticks = leaving (s.customers i)))
  considered : (s'.orders i).is_to_be_considered =
    ((s.orders i).is_to_be_considered && !(decide (s.ticks = leaving (s.customers i)) &&
      !(s.orders i).is_completed && (s.orders i).barista_id == -1))
  departure : (s.orders i).is_given_to_customer = false →
    (s'.orders i).customer.departure_time =
      if s.ticks = leaving (s.customers i) ∧ (s.orders i).is_completed = false then s.ticks
      else (s.orders i).customer.departure_time

lemma visit (i : Fin N) (s : St B N) : Visit i s (customer_func i s) := by
  have hleave : Visit i s (if s.ticks = leaving (s.customers i) then leave i s else s) := by
    by_cases ht : s.ticks = leaving (s.customers i)
    · rw [if_pos ht]
      unfold leave
      dsimp only
      by_cases hc : (s.orders i).is_completed = true
      · rw [if_pos hc]
        refine ⟨rfl, rfl, fun j hj => ?_, ?_, ?_, ?_, ?_, ?_, ?_, ?_, ?_, ?_⟩ <;>
          simp [St.setOrder, *]
      · rw [if_neg hc]
        by_cases hb : (s.orders i).barista_id = -1
        · rw [if_pos hb]
          refine ⟨rfl, rfl, fun j hj => ?_, ?_, ?_, ?_, ?_, ?_, ?_, ?_, ?_, ?_⟩ <;>
            simp [St.setOrder, *]
        · rw [if_neg hb]
          refine ⟨rfl, rfl, fun j hj => ?_, ?_, ?_, ?_, ?_, ?_, ?_, ?_, ?_, ?_⟩ <;>
            simp [St.setOrder, *]
    · rw [if_neg ht]
      refine ⟨rfl, rfl, fun j hj => rfl, rfl, rfl, rfl, rfl, rfl, rfl, ?_, ?_, ?_⟩ <;> simp [ht]
  have hrec : ∀ s1, Visit i s s1 → Visit i s (receive i s1) := by
    intro s1 h
    unfold receive
    dsimp only
    split_ifs with hg
    · refine ⟨h.baristas, h.customers, fun j hj => ?_, ?_, ?_, ?_, ?_, ?_, ?_, ?_, ?_, fun h0 => ?_⟩
      · simp [St.setOrder, Function.update_of_ne hj, h.others j hj]
      · simpa [St.setOrder] using h.barista_id
      · simpa [St.setOrder] using h.is_taken_up
      · simpa [St.setOrder] using h.is_completed
      · simpa [St.setOrder] using h.is_given
      · simpa [St.setOrder] using h.arrival_time
      · simpa [St.setOrder] using h.coffee
      · simpa [St.setOrder] using h.present
      · simpa [St.setOrder] using h.considered
      · rw [h.is_given, h0] at hg
        simp at hg
    · exact h
  have hall := hrec _ hleave
  unfold customer_func
  dsimp only
  by_cases h0 : i.val = 0
  · rw [if_pos h0]
    exact ⟨hall.baristas, hall.customers, hall.others, hall.barista_id, hall.is_taken_up,
      hall.is_completed, hall.is_given, hall.arrival_time, hall.coffee, hall.present,
      hall.considered, hall.departure⟩
  · rw [if_neg h0]
    exact hall

/-! ### One order -/

/-- Among the turns taken is the one of `u` at tick `c`. -/
def Had (inp : Input) (tr : List (Thread inp.B inp.N × St inp.B inp.N))
    (u : Thread inp.B inp.N) (c : ℤ) : Prop :=
  Turned pos (round (W := inp.B) inp.N_pos).length tr.length u c

/-- Customer `i` leaves before barista `b` has its turn of tick `d`. -/
def LeftBy (inp : Input) (s : St inp.B inp.N) (i : Fin inp.N) (b : Fin inp.B) (d : ℤ) : Prop :=
  Before pos (round (W := inp.B) inp.N_pos).length (.customer i) (leaving (s.customers i))
    (.worker b) d

/-- The tick in which an order that was taken is ready. -/
def ready (o : Order) : ℤ := o.is_taken_up + o.customer.coffee.time_to_make

variable {inp : Input} {tr : List (Thread inp.B inp.N × St inp.B inp.N)}
  {s s' : St inp.B inp.N} {b : Fin inp.B} {i j : Fin inp.N}

/-- Nobody has taken the order; it is closed when its customer has left. -/
structure Untaken (tr : List (Thread inp.B inp.N × St inp.B inp.N)) (s : St inp.B inp.N)
    (i : Fin inp.N) : Prop where
  id : (s.orders i).barista_id = -1
  takers : takers tr i = []
  since : (s.orders i).is_taken_up = -1
  completed : (s.orders i).is_completed = false
  given : (s.orders i).is_given_to_customer = false
  present : (s.orders i).is_customer_present = true ↔
    ¬ Had inp tr (.customer i) (leaving (s.customers i))
  considered : (s.orders i).is_to_be_considered = true ↔
    ¬ Had inp tr (.customer i) (leaving (s.customers i))
  departed : Had inp tr (.customer i) (leaving (s.customers i)) →
    (s.orders i).customer.departure_time = leaving (s.customers i)

/-- Barista `b` took the order while its customer was there; it is completed in the turn of `b` in
which it is ready, and handed over if the customer has not left before that turn. -/
structure Taken (tr : List (Thread inp.B inp.N × St inp.B inp.N)) (s : St inp.B inp.N)
    (i : Fin inp.N) (b : Fin inp.B) : Prop where
  id : (s.orders i).barista_id = (b : ℕ)
  takers : takers tr i = [b]
  since : Had inp tr (.worker b) (s.orders i).is_taken_up
  arrived : (s.orders i).customer.arrival_time + 1 ≤ (s.orders i).is_taken_up
  stayed : ¬ LeftBy inp s i b (s.orders i).is_taken_up
  completed : (s.orders i).is_completed = true ↔
    1 ≤ (s.orders i).customer.coffee.time_to_make ∧ Had inp tr (.worker b) (ready (s.orders i))
  given : (s.orders i).is_given_to_customer = true ↔
    (s.orders i).is_completed = true ∧ ¬ LeftBy inp s i b (ready (s.orders i))
  present : (s.orders i).is_customer_present = true ↔
    (s.orders i).is_given_to_customer = false ∧
      ¬ Had inp tr (.customer i) (leaving (s.customers i))
  considered : (s.orders i).is_to_be_considered = true ↔ (s.orders i).is_completed = false
  held : (s.orders i).is_completed = false →
    (s.baristas b).is_free = false ∧ (s.baristas b).order = some i

/-- The state of one order. -/
def Entry (tr : List (Thread inp.B inp.N × St inp.B inp.N)) (s : St inp.B inp.N)
    (i : Fin inp.N) : Prop :=
  Untaken tr s i ∨ ∃ b, Taken tr s i b

lemma takers_worker (tr : List (Thread inp.B inp.N × St inp.B inp.N)) (b : Fin inp.B)
    (s : St inp.B inp.N) (i : Fin inp.N) :
    takers (tr ++ [(Thread.worker b, s)]) i =
      takers tr i ++ if taken b s = some i then [b] else [] := by
  by_cases h : taken b s = some i <;> simp [CafeLedger.takers, List.filterMap_append, h]

lemma takers_customer (tr : List (Thread inp.B inp.N × St inp.B inp.N)) (j : Fin inp.N)
    (s : St inp.B inp.N) (i : Fin inp.N) :
    takers (tr ++ [(Thread.customer j, s)]) i = takers tr i := by
  simp [CafeLedger.takers, List.filterMap_append]

/-- The turn of `t` is due. -/
abbrev Next (tr : List (Thread inp.B inp.N × St inp.B inp.N)) (s : St inp.B inp.N)
    (t : Thread inp.B inp.N) : Prop :=
  Due pos (round (W := inp.B) inp.N_pos).length St.ticks tr s t

lemma had_succ {t u : Thread inp.B inp.N} {c : ℤ} (h : Next tr s t) :
    Had inp (tr ++ [(t, s)]) u c ↔ Had inp tr u c ∨ (u = t ∧ c = s.ticks) :=
  h.turned_succ (numbered_cafe inp) _

lemma had_other {t u : Thread inp.B inp.N} {c : ℤ} (h : Next tr s t) (hu : u ≠ t) :
    Had inp (tr ++ [(t, s)]) u c ↔ Had inp tr u c :=
  h.turned_other (numbered_cafe inp) _ hu

lemma had_self {t : Thread inp.B inp.N} {c : ℤ} (h : Next tr s t) :
    Had inp tr t c ↔ 0 ≤ c ∧ c < s.ticks :=
  h.turned_self (numbered_cafe inp)

lemma leftBy_now (h : Next tr s (.worker b)) :
    LeftBy inp s i b s.ticks ↔ Had inp tr (.customer i) (leaving (s.customers i)) :=
  h.before_iff

lemma Untaken.worker (h : Untaken tr s i) (hd : Next tr s (.worker b))
    (hs : s'.orders i = s.orders i) (hc : s'.customers = s.customers)
    (ht : taken b s ≠ some i) : Untaken (tr ++ [(Thread.worker b, s)]) s' i := by
  have hhad : ∀ c, Had inp (tr ++ [(Thread.worker b, s)]) (.customer i) c ↔
      Had inp tr (.customer i) c :=
    fun c => had_other hd (by simp)
  refine ⟨?_, ?_, ?_, ?_, ?_, ?_, ?_, ?_⟩
  · rw [hs]; exact h.id
  · rw [takers_worker, if_neg ht, h.takers]; rfl
  · rw [hs]; exact h.since
  · rw [hs]; exact h.completed
  · rw [hs]; exact h.given
  · rw [hs, hc, hhad]; exact h.present
  · rw [hs, hc, hhad]; exact h.considered
  · rw [hs, hc, hhad]; exact h.departed

/-- So does one that was taken and is not finished in this turn. -/
lemma Taken.worker {b' : Fin inp.B} (h : Taken tr s i b') (hd : Next tr s (.worker b))
    (hs : s'.orders i = s.orders i) (hc : s'.customers = s.customers)
    (hb : b' ≠ b → s'.baristas b' = s.baristas b') (ht : taken b s ≠ some i)
    (hf : b' = b → (s.orders i).is_completed = false →
      s'.baristas b' = s.baristas b' ∧ ready (s.orders i) ≠ s.ticks) :
    Taken (tr ++ [(Thread.worker b, s)]) s' i b' := by
  have hhad : ∀ c, Had inp (tr ++ [(Thread.worker b, s)]) (.customer i) c ↔
      Had inp tr (.customer i) c :=
    fun c => had_other hd (by simp)
  have hleft : ∀ d, LeftBy inp s' i b' d ↔ LeftBy inp s i b' d := fun d => by
    rw [LeftBy, LeftBy, hc]
  refine ⟨?_, ?_, ?_, ?_, ?_, ?_, ?_, ?_, ?_, ?_⟩
  · rw [hs]; exact h.id
  · rw [takers_worker, if_neg ht, h.takers]; rfl
  · rw [hs, had_succ hd]; exact Or.inl h.since
  · rw [hs]; exact h.arrived
  · rw [hs, hleft]; exact h.stayed
  · rw [hs, had_succ hd, h.completed]
    constructor
    · exact fun ⟨h1, h2⟩ => ⟨h1, Or.inl h2⟩
    · rintro ⟨h1, h2 | ⟨h2, h3⟩⟩
      · exact ⟨h1, h2⟩
      · obtain rfl : b' = b := by simpa using h2
        by_cases hcp : (s.orders i).is_completed = true
        · exact h.completed.mp hcp
        · exact absurd h3 (hf rfl (by simpa using hcp)).2
  · rw [hs, hleft]; exact h.given
  · rw [hs, hc, hhad]; exact h.present
  · rw [hs]; exact h.considered
  · rw [hs]
    intro hcp
    have hbar : s'.baristas b' = s.baristas b' := by
      by_cases hbb : b' = b
      · exact (hf hbb hcp).1
      · exact hb hbb
    rw [hbar]
    exact h.held hcp

/-- The barista takes the order. -/
lemma Untaken.take (h : Untaken tr s i) (hd : Next tr s (.worker b)) (hi : taken b s = some i)
    (hw : s.waiting i = true) :
    Taken (tr ++ [(Thread.worker b, s)]) ((s.setOrder i { s.orders i with
      barista_id := b, is_taken_up := s.ticks }).setBarista b
        { s.baristas b with order := some i, is_free := false }) i b := by
  simp only [St.waiting, Bool.and_eq_true, decide_eq_true_eq] at hw
  obtain ⟨⟨hcons, -⟩, harr⟩ := hw
  have hstay : ¬ Had inp tr (.customer i) (leaving (s.customers i)) := h.considered.mp hcons
  refine ⟨by simp [St.setOrder, St.setBarista], ?_, ?_, ?_, ?_, ?_, ?_, ?_, ?_, ?_⟩
  · rw [takers_worker, if_pos hi, h.takers]; rfl
  · simp only [St.setOrder, St.setBarista, Function.update_self]
    rw [had_succ hd]
    exact Or.inr ⟨rfl, rfl⟩
  · simpa [St.setOrder, St.setBarista] using harr
  · simp only [St.setOrder, St.setBarista, Function.update_self]
    exact fun hc => hstay ((leftBy_now hd).mp hc)
  · simp only [St.setOrder, St.setBarista, Function.update_self, ready, h.completed]
    rw [had_succ hd, had_self hd]
    constructor
    · exact fun hc => by cases hc
    · rintro ⟨h1, ⟨-, h2⟩ | ⟨-, h2⟩⟩ <;> omega
  · simp [St.setOrder, St.setBarista, h.completed, h.given]
  · simp only [St.setOrder, St.setBarista, Function.update_self]
    rw [had_other hd (by simp), h.present, h.given]
    simp
  · simp [St.setOrder, St.setBarista, h.completed, hcons]
  · simp [St.setOrder, St.setBarista]

/-- The barista finishes its order. -/
lemma Taken.finish (h : Taken tr s i b) (hd : Next tr s (.worker b))
    (hc : (s.orders i).is_completed = false) (ht : taken b s = none)
    (hr : ready (s.orders i) = s.ticks) :
    Taken (tr ++ [(Thread.worker b, s)]) (finish_order b i s) i b := by
  have hone : 1 ≤ (s.orders i).customer.coffee.time_to_make := by
    have h1 := ((had_self hd).mp h.since).2
    unfold ready at hr
    omega
  have hgiven : (s.orders i).is_given_to_customer = false := by
    by_contra hg
    have h1 := (h.given.mp (by simpa using hg)).1
    rw [hc] at h1
    cases h1
  have hhad : ∀ c, Had inp (tr ++ [(Thread.worker b, s)]) (.customer i) c ↔
      Had inp tr (.customer i) c :=
    fun c => had_other hd (by simp)
  have hready : Had inp (tr ++ [(Thread.worker b, s)]) (.worker b) s.ticks := by
    rw [had_succ hd]; exact Or.inr ⟨rfl, rfl⟩
  have htakers : CafeLedger.takers (tr ++ [(Thread.worker b, s)]) i = [b] := by
    rw [takers_worker, ht, if_neg (by simp), h.takers]; rfl
  have hsince : Had inp (tr ++ [(Thread.worker b, s)]) (.worker b) (s.orders i).is_taken_up := by
    rw [had_succ hd]; exact Or.inl h.since
  have hleft := leftBy_now (i := i) hd
  have hnow : (s.orders i).is_taken_up + (s.orders i).customer.coffee.time_to_make = s.ticks := hr
  unfold finish_order
  dsimp only
  by_cases hp : (s.orders i).is_customer_present = true
  · have hstay : ¬ Had inp tr (.customer i) (leaving (s.customers i)) := (h.present.mp hp).2
    rw [if_pos hp]
    refine ⟨?_, htakers, ?_, ?_, ?_, ?_, ?_, ?_, ?_, ?_⟩ <;>
      simp only [St.setOrder, St.setBarista, Function.update_self, ready, hnow]
    · exact h.id
    · exact hsince
    · exact h.arrived
    · exact h.stayed
    · simp [hone, hready]
    · exact ⟨fun _ => ⟨trivial, fun hl => hstay (hleft.mp hl)⟩, fun _ => trivial⟩
    · simp
    · simp
    · exact fun hf => by cases hf
  · have hgone : Had inp tr (.customer i) (leaving (s.customers i)) := by
      by_contra hn
      exact hp (h.present.mpr ⟨hgiven, hn⟩)
    rw [if_neg hp]
    refine ⟨?_, htakers, ?_, ?_, ?_, ?_, ?_, ?_, ?_, ?_⟩ <;>
      simp only [St.setOrder, St.setBarista, Function.update_self, ready, hnow]
    · exact h.id
    · exact hsince
    · exact h.arrived
    · exact h.stayed
    · simp [hone, hready]
    · exact ⟨fun hg => absurd hg (by simp [hgiven]), fun hn => absurd (hleft.mpr hgone) hn.2⟩
    · rw [hhad]
      simpa [hgiven, hgone] using hp
    · simp
    · exact fun hf => by cases hf

lemma Entry.others (h : Entry tr s i) (hd : Next tr s (.customer j)) (hv : Visit j s s')
    (hij : i ≠ j) : Entry (tr ++ [(Thread.customer j, s)]) s' i := by
  have ho := hv.others i hij
  have hhad : ∀ c, Had inp (tr ++ [(Thread.customer j, s)]) (.customer i) c ↔
      Had inp tr (.customer i) c := fun c => had_other hd (by simpa using hij)
  have hwork : ∀ b c, Had inp (tr ++ [(Thread.customer j, s)]) (.worker b) c ↔
      Had inp tr (.worker b) c := fun b c => had_other hd (by simp)
  rcases h with h | ⟨b, h⟩
  · left
    refine ⟨?_, ?_, ?_, ?_, ?_, ?_, ?_, ?_⟩ <;>
      simp only [ho, hv.customers, hhad, takers_customer]
    exacts [h.id, h.takers, h.since, h.completed, h.given, h.present, h.considered, h.departed]
  · right
    refine ⟨b, ?_, ?_, ?_, ?_, ?_, ?_, ?_, ?_, ?_, ?_⟩ <;>
      simp only [LeftBy, ho, hv.customers, hv.baristas, hhad, hwork, takers_customer]
    exacts [h.id, h.takers, h.since, h.arrived, h.stayed, h.completed, h.given, h.present,
      h.considered, h.held]

/-- In its own turn the customer may leave. -/
lemma Entry.visit (h : Entry tr s i) (hd : Next tr s (.customer i)) (hv : Visit i s s') :
    Entry (tr ++ [(Thread.customer i, s)]) s' i := by
  have hhad : Had inp (tr ++ [(Thread.customer i, s)]) (.customer i) (leaving (s.customers i)) ↔
      Had inp tr (.customer i) (leaving (s.customers i)) ∨ s.ticks = leaving (s.customers i) := by
    rw [had_succ hd]
    simp [eq_comm]
  have hnot : s.ticks = leaving (s.customers i) →
      ¬ Had inp tr (.customer i) (leaving (s.customers i)) := by
    intro ht hc
    rw [had_self hd] at hc
    omega
  have hwork : ∀ b c, Had inp (tr ++ [(Thread.customer i, s)]) (.worker b) c ↔
      Had inp tr (.worker b) c := fun b c => had_other hd (by simp)
  rcases h with h | ⟨b, h⟩
  · left
    refine ⟨hv.barista_id.trans h.id, ?_, hv.is_taken_up.trans h.since,
      hv.is_completed.trans h.completed, hv.is_given.trans h.given, ?_, ?_, ?_⟩
    · rw [takers_customer]; exact h.takers
    · rw [hv.present, hv.customers, hhad, Bool.and_eq_true, h.present]
      simp
    · rw [hv.considered, hv.customers, hhad, Bool.and_eq_true, h.considered]
      simp [h.completed, h.id]
    · rw [hv.departure h.given, hv.customers, hhad]
      by_cases ht : s.ticks = leaving (s.customers i)
      · rw [if_pos ⟨ht, h.completed⟩]
        exact fun _ => ht
      · rw [if_neg (fun hc => ht hc.1)]
        exact fun hc => h.departed (hc.resolve_right ht)
  · right
    have hready : ready (s'.orders i) = ready (s.orders i) := by
      simp only [ready, hv.is_taken_up, hv.coffee]
    have hleft : ∀ d, LeftBy inp s' i b d ↔ LeftBy inp s i b d := fun d => by
      simp only [LeftBy, hv.customers]
    have hb : (s.orders i).barista_id ≠ -1 := by
      rw [h.id]; omega
    refine ⟨b, hv.barista_id.trans h.id, ?_, ?_, ?_, ?_, ?_, ?_, ?_, ?_, ?_⟩
    · rw [takers_customer]; exact h.takers
    · rw [hv.is_taken_up, hwork]; exact h.since
    · rw [hv.is_taken_up, hv.arrival_time]; exact h.arrived
    · rw [hv.is_taken_up, hleft]; exact h.stayed
    · rw [hv.is_completed, hv.coffee, hready, hwork]; exact h.completed
    · rw [hv.is_given, hv.is_completed, hready, hleft]; exact h.given
    · rw [hv.present, hv.is_given, hv.customers, hhad, Bool.and_eq_true, h.present]
      simp [and_assoc]
    · rw [hv.considered, hv.is_completed, Bool.and_eq_true, h.considered]
      simp [hb]
    · rw [hv.is_completed, hv.baristas]; exact h.held

/-! ### All orders -/

/-- The number of orders with the property. -/
def tally (p : Order → Bool) (orders : Fin N → Order) : ℕ :=
  (Finset.univ.filter fun i => p (orders i) = true).card

lemma tally_keep {p : Order → Bool} {orders : Fin N → Order} {i : Fin N} {o : Order}
    (h : p o = p (orders i)) : tally p (Function.update orders i o) = tally p orders := by
  unfold tally
  congr 1
  ext j
  by_cases hj : j = i
  · subst hj; simp [h]
  · simp [Function.update_of_ne hj]

lemma tally_add {p : Order → Bool} {orders : Fin N → Order} {i : Fin N} {o : Order}
    (h : p (orders i) = false) (ho : p o = true) :
    tally p (Function.update orders i o) = tally p orders + 1 := by
  unfold tally
  rw [← Finset.card_insert_of_notMem (a := i) (by simp [h])]
  congr 1
  ext j
  by_cases hj : j = i
  · subst hj; simp [ho]
  · simp [hj]

/-- The sum of `coffee_wasted` that is printed at the end. -/
def coffee_wasted (s : St B N) : ℕ := ∑ b, (s.baristas b).coffee_wasted

lemma wasted_update (rs : Fin B → Barista N) (b : Fin B) (r : Barista N) :
    ∑ c, (Function.update rs b r c).coffee_wasted + (rs b).coffee_wasted =
      ∑ c, (rs c).coffee_wasted + r.coffee_wasted := by
  have hrest : ∑ c ∈ Finset.univ.erase b, (Function.update rs b r c).coffee_wasted =
      ∑ c ∈ Finset.univ.erase b, (rs c).coffee_wasted :=
    Finset.sum_congr rfl fun c hc => by rw [Function.update_of_ne (Finset.ne_of_mem_erase hc)]
  rw [← Finset.add_sum_erase _ _ (Finset.mem_univ b), hrest,
    ← Finset.add_sum_erase Finset.univ (fun c => (rs c).coffee_wasted) (Finset.mem_univ b),
    Function.update_self]
  omega

/-- The books of the cafe: the counter, who holds what, the state of every order, and every
completed coffee was handed over or wasted. -/
structure Ledger (inp : Input) (tr : List (Thread inp.B inp.N × St inp.B inp.N))
    (s : St inp.B inp.N) : Prop where
  accounts : Accounts inp tr s
  arrivals : ∀ i, (s.orders i).customer.arrival_time = (s.customers i).arrival_time
  coffees : ∀ i, (s.orders i).customer.coffee = (s.customers i).coffee
  hands : Hands s
  entry : ∀ i, Entry tr s i
  wasted : tally Order.is_completed s.orders =
    tally Order.is_given_to_customer s.orders + coffee_wasted s

lemma ledger_start (inp : Input) : Ledger inp [] (start inp) := by
  have hno : ∀ i c, ¬ Had inp [] (.customer i) c := fun i c => not_turned_zero
  refine ⟨accounts_start inp, fun i => rfl, fun i => rfl, ⟨fun b _ => rfl, fun b h => ?_⟩,
    fun i => Or.inl ⟨rfl, rfl, rfl, rfl, rfl, ?_, ?_, fun h => absurd h (hno i _)⟩, ?_⟩
  · simp [start] at h
  · simp [start, newOrder, hno]
  · simp [start, newOrder, hno]
  · simp [start, newOrder, tally, coffee_wasted]

lemma Ledger.holds (h : Ledger inp tr s) (hb : (s.baristas b).is_free = false)
    (ho : (s.baristas b).order = some i) :
    Taken tr s i b ∧ (s.orders i).is_completed = false := by
  obtain ⟨j, hj, hid, hc⟩ := h.hands.busy b hb
  obtain rfl : j = i := by simpa [hj] using ho
  refine ⟨?_, hc⟩
  rcases h.entry j with h1 | ⟨b', h1⟩
  · have h2 := h1.id
    omega
  · obtain rfl : b' = b := by
      have h2 := h1.id
      rw [hid] at h2
      exact Fin.ext (by exact_mod_cast h2.symm)
    exact h1

lemma finished_ready (hf : finished b s = some i) : ready (s.orders i) = s.ticks := by
  unfold finished at hf
  have h1 := (Option.filter_eq_some_iff.mp hf).2
  rw [beq_iff_eq] at h1
  exact h1.symm

lemma not_ready (h : Taken tr s i b) (hc : (s.orders i).is_completed = false)
    (hf : finished b s ≠ some i) : ready (s.orders i) ≠ s.ticks := by
  intro hr
  refine hf ?_
  simp only [finished, (h.held hc).2, Option.filter_some, beq_iff_eq]
  exact if_pos hr.symm

lemma finish_orders (b : Fin B) (s : St B N) {i j : Fin N} (h : i ≠ j) :
    (finish_order b j s).orders i = s.orders i := by
  unfold finish_order
  dsimp only
  split_ifs <;> simp [St.setOrder, St.setBarista, Function.update_of_ne h]

lemma finish_baristas {b c : Fin B} (j : Fin N) (s : St B N) (h : c ≠ b) :
    (finish_order b j s).baristas c = s.baristas c := by
  unfold finish_order
  dsimp only
  split_ifs <;> simp [St.setOrder, St.setBarista, Function.update_of_ne h]

lemma finish_customers (b : Fin B) (j : Fin N) (s : St B N) :
    (finish_order b j s).customers = s.customers := by
  unfold finish_order
  dsimp only
  split_ifs <;> rfl

lemma finish_same (b : Fin B) (j : Fin N) (s : St B N) (i : Fin N) :
    ((finish_order b j s).orders i).customer = (s.orders i).customer ∧
      ((finish_order b j s).orders i).is_taken_up = (s.orders i).is_taken_up ∧
      ((finish_order b j s).orders i).barista_id = (s.orders i).barista_id := by
  by_cases hij : i = j
  · subst hij
    unfold finish_order
    dsimp only
    split_ifs <;> simp [St.setOrder, St.setBarista]
  · rw [finish_orders b s hij]
    exact ⟨rfl, rfl, rfl⟩

lemma Ledger.worker_entry (h : Ledger inp tr s) (hd : Next tr s (.worker b)) (i : Fin inp.N) :
    Entry (tr ++ [(Thread.worker b, s)]) (barista_func b s) i := by
  have hserv := serving h.hands b
  generalize barista_func b s = s' at hserv ⊢
  cases hserv with
  | nothing ht hf =>
    have hne : taken b s ≠ some i := by simp [ht]
    rcases h.entry i with h1 | ⟨b', h1⟩
    · exact Or.inl (h1.worker hd rfl rfl hne)
    · refine Or.inr ⟨b', h1.worker hd rfl rfl (fun _ => rfl) hne fun hb hc => ⟨rfl, ?_⟩⟩
      subst hb
      exact not_ready h1 hc (by simp [hf])
  | take j hj hw hb =>
    by_cases hij : i = j
    · subst hij
      rcases h.entry i with h1 | ⟨b', h1⟩
      · exact Or.inr ⟨b, h1.take hd hj hw⟩
      · have h2 := h1.id
        simp only [St.waiting, Bool.and_eq_true, beq_iff_eq] at hw
        omega
    · have hne : taken b s ≠ some i := by simpa [hj] using Ne.symm hij
      rcases h.entry i with h1 | ⟨b', h1⟩
      · refine Or.inl (h1.worker hd ?_ rfl hne)
        simp [St.setOrder, St.setBarista, Function.update_of_ne hij]
      · refine Or.inr ⟨b', h1.worker hd ?_ rfl (fun hbb => ?_) hne fun hbb hc => ?_⟩
        · simp [St.setOrder, St.setBarista, Function.update_of_ne hij]
        · simp [St.setOrder, St.setBarista, Function.update_of_ne hbb]
        · subst hbb
          have h2 := (h1.held hc).1
          rw [hb] at h2
          cases h2
  | finish j ht hf hb ho =>
    obtain ⟨hj, hc⟩ := h.holds hb ho
    by_cases hij : i = j
    · subst hij
      exact Or.inr ⟨b, hj.finish hd hc ht (finished_ready hf)⟩
    · have hne : taken b s ≠ some i := by simp [ht]
      have hord := finish_orders b s hij
      have hcus := finish_customers b j s
      rcases h.entry i with h1 | ⟨b', h1⟩
      · exact Or.inl (h1.worker hd hord hcus hne)
      · refine Or.inr ⟨b', h1.worker hd hord hcus (fun hbb => ?_) hne fun hbb hcp => ?_⟩
        · exact finish_baristas j s hbb
        · subst hbb
          have h2 := (h1.held hcp).2
          rw [ho] at h2
          exact absurd (Option.some.inj h2).symm hij

lemma Hands.worker (h : Ledger inp tr s) : Hands (barista_func b s) := by
  have hserv := serving h.hands b
  generalize barista_func b s = s' at hserv ⊢
  cases hserv with
  | nothing ht hf => exact h.hands
  | take j hj hw hb =>
    simp only [St.waiting, Bool.and_eq_true, beq_iff_eq] at hw
    have hcomp : (s.orders j).is_completed = false := by
      rcases h.entry j with h1 | ⟨b', h1⟩
      · exact h1.completed
      · have h2 := h1.id
        omega
    refine ⟨fun c hc => ?_, fun c hc => ?_⟩
    · by_cases hcb : c = b
      · subst hcb; simp [St.setBarista] at hc
      · simp only [St.setBarista, Function.update_of_ne hcb] at hc ⊢
        exact h.hands.idle c hc
    · by_cases hcb : c = b
      · subst hcb
        exact ⟨j, by simp [St.setBarista], by simp [St.setBarista, St.setOrder],
          by simpa [St.setBarista, St.setOrder] using hcomp⟩
      · simp only [St.setBarista, Function.update_of_ne hcb] at hc ⊢
        obtain ⟨i, hi, hid, hcp⟩ := h.hands.busy c hc
        have hij : i ≠ j := by
          rintro rfl
          omega
        exact ⟨i, hi, by simpa [St.setOrder, Function.update_of_ne hij] using ⟨hid, hcp⟩⟩
  | finish j ht hf hb ho =>
    obtain ⟨hj, -⟩ := h.holds hb ho
    have hbar : ((finish_order b j s).baristas b).is_free = true ∧
        ((finish_order b j s).baristas b).order = none := by
      unfold finish_order
      dsimp only
      split_ifs <;> simp [St.setBarista]
    refine ⟨fun c hc => ?_, fun c hc => ?_⟩
    · by_cases hcb : c = b
      · rw [hcb]; exact hbar.2
      · rw [finish_baristas j s hcb] at hc ⊢
        exact h.hands.idle c hc
    · have hcb : c ≠ b := by
        rintro rfl
        rw [hbar.1] at hc
        cases hc
      rw [finish_baristas j s hcb] at hc ⊢
      obtain ⟨i, hi, hid, hcp⟩ := h.hands.busy c hc
      have hij : i ≠ j := by
        rintro rfl
        have h2 := hj.id
        rw [hid] at h2
        exact hcb (Fin.ext (by exact_mod_cast h2))
      refine ⟨i, hi, ?_⟩
      rw [finish_orders b s hij]
      exact ⟨hid, hcp⟩

lemma Ledger.worker_wasted (h : Ledger inp tr s) :
    tally Order.is_completed (barista_func b s).orders =
      tally Order.is_given_to_customer (barista_func b s).orders +
        coffee_wasted (barista_func b s) := by
  have hw0 := h.wasted
  have hserv := serving h.hands b
  generalize barista_func b s = s' at hserv ⊢
  cases hserv with
  | nothing ht hf => exact hw0
  | take j hj hw hb =>
    have h1 := wasted_update s.baristas b { s.baristas b with order := some j, is_free := false }
    simp only [St.setOrder, St.setBarista, coffee_wasted] at h1 hw0 ⊢
    rw [tally_keep (p := Order.is_completed) (by rfl),
      tally_keep (p := Order.is_given_to_customer) (by rfl)]
    omega
  | finish j ht hf hb ho =>
    obtain ⟨hj, hc⟩ := h.holds hb ho
    have hg : (s.orders j).is_given_to_customer = false := by
      by_contra hg
      have h1 := (hj.given.mp (by simpa using hg)).1
      rw [hc] at h1
      cases h1
    unfold finish_order
    dsimp only
    split_ifs with hp
    · have h1 := wasted_update s.baristas b { s.baristas b with is_free := true, order := none }
      simp only [St.setOrder, St.setBarista, coffee_wasted] at h1 hw0 ⊢
      rw [tally_add (p := Order.is_completed) hc rfl,
        tally_add (p := Order.is_given_to_customer) hg rfl]
      omega
    · have h1 := wasted_update s.baristas b { s.baristas b with
        is_free := true, order := none, coffee_wasted := (s.baristas b).coffee_wasted + 1 }
      simp only [St.setOrder, St.setBarista, coffee_wasted] at h1 hw0 ⊢
      rw [tally_add (p := Order.is_completed) hc rfl,
        tally_keep (p := Order.is_given_to_customer) (by rfl)]
      omega

lemma Ledger.worker (h : Ledger inp tr s) (hd : Next tr s (.worker b)) :
    Ledger inp (tr ++ [(Thread.worker b, s)]) (barista_func b s) := by
  have hcus : ∀ i, ((barista_func b s).orders i).customer = (s.orders i).customer := by
    intro i
    have hserv := serving h.hands b
    generalize barista_func b s = s' at hserv ⊢
    cases hserv with
    | nothing ht hf => rfl
    | take j hj hw hb =>
      by_cases hij : i = j
      · subst hij; simp [St.setOrder, St.setBarista]
      · simp [St.setOrder, St.setBarista, Function.update_of_ne hij]
    | finish j ht hf hb ho => exact (finish_same b j s i).1
  have hacc := (h.accounts.mono (.worker b, s)).barista_func (b := b)
  have hsame : (barista_func b s).customers = s.customers :=
    hacc.customers.trans h.accounts.customers.symm
  refine ⟨hacc, fun i => ?_, fun i => ?_, Hands.worker h, h.worker_entry hd, h.worker_wasted⟩
  · rw [hcus, hsame]; exact h.arrivals i
  · rw [hcus, hsame]; exact h.coffees i

lemma Visit.tally_eq (hv : Visit j s s') {p : Order → Bool}
    (hp : p (s'.orders j) = p (s.orders j)) : tally p s'.orders = tally p s.orders := by
  unfold tally
  congr 1
  ext i
  by_cases hij : i = j
  · subst hij; simp [hp]
  · simp [hv.others i hij]

lemma Ledger.customer (h : Ledger inp tr s) (hd : Next tr s (.customer j)) :
    Ledger inp (tr ++ [(Thread.customer j, s)]) (customer_func j s) := by
  have hv := visit j s
  refine ⟨h.accounts.customer_func hd.fresh, fun i => ?_, fun i => ?_, ⟨fun b hb => ?_, fun b hb => ?_⟩,
    fun i => ?_, ?_⟩
  · rw [hv.customers]
    by_cases hij : i = j
    · subst hij; rw [hv.arrival_time]; exact h.arrivals i
    · rw [hv.others i hij]; exact h.arrivals i
  · rw [hv.customers]
    by_cases hij : i = j
    · subst hij; rw [hv.coffee]; exact h.coffees i
    · rw [hv.others i hij]; exact h.coffees i
  · rw [hv.baristas] at hb ⊢
    exact h.hands.idle b hb
  · rw [hv.baristas] at hb ⊢
    obtain ⟨i, hi, hid, hc⟩ := h.hands.busy b hb
    refine ⟨i, hi, ?_⟩
    by_cases hij : i = j
    · subst hij; exact ⟨hv.barista_id.trans hid, hv.is_completed.trans hc⟩
    · rw [hv.others i hij]; exact ⟨hid, hc⟩
  · by_cases hij : i = j
    · subst hij; exact (h.entry i).visit hd hv
    · exact (h.entry i).others hd hv hij
  · rw [hv.tally_eq hv.is_completed, hv.tally_eq hv.is_given]
    simp only [coffee_wasted, hv.baristas]
    exact h.wasted

lemma ledger_keeps (inp : Input) (C : Thread inp.B inp.N → St inp.B inp.N → Prop) :
    Keeps (prog inp) pos (round (W := inp.B) inp.N_pos).length St.ticks C (Ledger inp) := by
  intro tr s t hd _ h
  cases t with
  | worker b => exact h.worker hd
  | customer j => exact h.customer hd

lemma ledger_exec (inp : Input) (sched : List (Option (Thread inp.B inp.N))) :
    Ledger inp (exec inp sched).trace (exec inp sched).shared :=
  (holds (numbered_cafe inp) (ticks_cafe inp) (ledger_keeps inp _) rfl (ledger_start inp)
    sched).holds

lemma tally_not (p : Order → Bool) (orders : Fin N → Order) :
    tally p orders + tally (fun o => !p o) orders = N := by
  unfold tally
  have h := Finset.card_filter_add_card_filter_not (s := (Finset.univ : Finset (Fin N)))
    (fun i => p (orders i) = true)
  simpa using h

lemma Ledger.counter_eq (h : Ledger inp tr s) :
    s.is_to_be_considered_counter = tally (fun o => !o.is_to_be_considered) s.orders := by
  rw [h.accounts.counter]
  simp [settled, tally]

lemma Ledger.closed (h : Ledger inp tr s) (hN : s.is_to_be_considered_counter = inp.N)
    (i : Fin inp.N) : (s.orders i).is_to_be_considered = false := by
  have h0 := h.counter_eq
  have h1 := tally_not (fun o => !o.is_to_be_considered) s.orders
  have h2 : tally (fun o => !!o.is_to_be_considered) s.orders = 0 := by omega
  have h3 := Finset.filter_eq_empty_iff.mp (Finset.card_eq_zero.mp h2) (Finset.mem_univ i)
  simpa using h3

lemma Taken.completed_of_closed (h : Taken tr s i b)
    (hc : (s.orders i).is_to_be_considered = false) : (s.orders i).is_completed = true := by
  by_contra hn
  have h1 := h.considered.mpr (by simpa using hn)
  rw [hc] at h1
  cases h1

/-- **Orders are accounted for exactly once**: in every state of every run the counter is the
number of closed orders; an order has a barista iff exactly one turn took it, that of this
barista; a busy barista's order is its own, incomplete and in nobody else's hands; what was handed
over is completed; the completed orders are those handed over and those wasted; and when the
counter is `N`, orders handed over, wasted and never taken make up all `N`. -/
theorem orders_accounted_once (inp : Input) (sched : List (Option (Thread inp.B inp.N))) :
    let s := (exec inp sched).shared
    let tr := (exec inp sched).trace
    s.is_to_be_considered_counter = tally (fun o => !o.is_to_be_considered) s.orders ∧
    s.is_to_be_considered_counter ≤ inp.N ∧
    (∀ i, ((s.orders i).barista_id ≠ -1 ↔ (takers tr i).length = 1) ∧
      ∀ b ∈ takers tr i, (s.orders i).barista_id = (b : ℕ)) ∧
    (∀ b, (s.baristas b).is_free = false → ∃ i, (s.baristas b).order = some i ∧
      (s.orders i).barista_id = (b : ℕ) ∧ (s.orders i).is_completed = false ∧
      ∀ c, c ≠ b → (s.baristas c).order ≠ some i) ∧
    (∀ i, (s.orders i).is_given_to_customer = true → (s.orders i).is_completed = true) ∧
    tally Order.is_completed s.orders =
      tally Order.is_given_to_customer s.orders + coffee_wasted s ∧
    (s.is_to_be_considered_counter = inp.N →
      tally Order.is_given_to_customer s.orders + coffee_wasted s +
        tally (fun o => o.barista_id == -1) s.orders = inp.N) := by
  intro s tr
  have h : Ledger inp tr s := ledger_exec inp sched
  refine ⟨h.counter_eq, ?_, fun i => ?_, fun b hb => ?_, fun i hg => ?_, h.wasted, fun hN => ?_⟩
  · rw [h.accounts.counter]; exact settled_le _
  · rcases h.entry i with h1 | ⟨b, h1⟩
    · simp [h1.id, h1.takers]
    · rw [h1.takers, h1.id]
      refine ⟨⟨fun _ => rfl, fun _ => by omega⟩, fun c hc => ?_⟩
      rw [List.mem_singleton.mp hc]
  · obtain ⟨i, hi, hid, hc⟩ := h.hands.busy b hb
    refine ⟨i, hi, hid, hc, fun c hcb hci => ?_⟩
    have hfree : (s.baristas c).is_free = false := by
      by_contra hf
      rw [h.hands.idle c (by simpa using hf)] at hci
      cases hci
    have h2 := (h.holds hfree hci).1.id
    rw [hid] at h2
    exact hcb (Fin.ext (by exact_mod_cast h2.symm))
  · rcases h.entry i with h1 | ⟨b, h1⟩
    · rw [h1.given] at hg
      cases hg
    · exact (h1.given.mp hg).1
  · have hnot : tally (fun o => o.barista_id == -1) s.orders =
        tally (fun o => !o.is_completed) s.orders := by
      unfold tally
      congr 1
      ext i
      simp only [Finset.mem_filter, Finset.mem_univ, true_and, beq_iff_eq]
      rcases h.entry i with h1 | ⟨b, h1⟩
      · simp [h1.id, h1.completed]
      · have h2 := h1.id
        have h3 : (s.orders i).barista_id ≠ -1 := by omega
        simp [h3, h1.completed_of_closed (h.closed hN i)]
    rw [hnot, ← h.wasted]
    exact tally_not Order.is_completed s.orders

end Xv6.CafeLedger
