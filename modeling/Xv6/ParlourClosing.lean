import Xv6.ParlourService

/-!
What is left undecided when the last machine closes.

A machine rejects an order only in a turn in which it is open and idle, so an order can stay
undecided: because no machine has such a turn any more, or because the last one that has does not
complete the votes. As long as that does not happen, every customer who came has left and every one
of its orders is completed or rejected once all machines have closed.
-/

namespace Xv6.ParlourClosing

open Xv6.Ring Xv6.Rounds Xv6.Crew Xv6.Parlour Xv6.Turns Xv6.ParlourTurns Xv6.ParlourHouse
open Xv6.ParlourService

/-! ### What a scan decides -/

section Scan

variable {N C : ℕ} {m : Fin N} {s s' : St N C} {i j : ℕ}

/-- A scan of the machine in this state rejects the order: its vote is the last that was missing, or
a topping is short and the row of rejections that it looks at is free. -/
def rejectable (m : Fin N) (s : St N C) (j : ℕ) : Bool :=
  waiting s j &&
    if (s.icecream_machines m).end_time ≤ (s.orders j).icecreams.time_to_finish s.ticks then
      (s.orders j).rejected_due_to_no_machines +
        (if s.machine_reject_which_order m j then 0 else 1) == N
    else !s.possible ((s.orders j).icecreams.topping.take s.T) &&
      !s.machine_reject_which_order (m + 1) j

lemma rejected_of_rejectable (h : rejectable m s j = true) :
    ((reject m j s).orders j).rejected = true := by
  rw [rejectable, Bool.and_eq_true] at h
  obtain ⟨hw, h⟩ := h
  rw [reject, if_pos hw]
  split_ifs at h with ht hv
  · rw [if_pos ht, reject_time]
    rw [if_pos hv, if_pos (by simpa using h)]
    simp [St.setOrder]
  · rw [if_pos ht, reject_time]
    rw [if_neg hv, if_pos (by simpa [St.setOrder] using h)]
    simp [St.setOrder]
  · simp only [Bool.and_eq_true, Bool.not_eq_true'] at h
    rw [if_neg ht, if_neg (by simp [h.1]), reject_toppings, if_neg (by simp [h.2])]
    simp [St.setOrder]

lemma table_reject (m : Fin N) (s : St N C) (h : j ≠ i) (k : ℕ) :
    (reject m i s).machine_reject_which_order k j = s.machine_reject_which_order k j := by
  have hcol : ∀ r, Function.update s.machine_reject_which_order r
      (Function.update (s.machine_reject_which_order r) i true) k j =
        s.machine_reject_which_order k j := fun r => by
    by_cases hk : k = r
    · subst hk; simp [Function.update_of_ne h]
    · rw [Function.update_of_ne hk]
  unfold reject reject_time reject_toppings
  dsimp only
  split_ifs <;> first | rfl | exact hcol _

lemma table_rejects (m : Fin N) (s : St N C) {l : List ℕ} (h : j ∉ l) (k : ℕ) :
    (rejects m l s).machine_reject_which_order k j = s.machine_reject_which_order k j := by
  induction l generalizing s with
  | nil => rfl
  | cons i l ih =>
    rw [List.mem_cons, not_or] at h
    exact (ih (reject m i s) h.2).trans (table_reject m s h.1 k)

lemma rejects_orders (m : Fin N) (s : St N C) {l : List ℕ} (hl : l.Nodup) (hj : j ∈ l) :
    ∃ l1, j ∉ l1 ∧ (rejects m l s).orders j = (reject m j (rejects m l1 s)).orders j := by
  obtain ⟨l1, l2, rfl⟩ := List.append_of_mem hj
  have hno := List.nodup_append.mp hl
  have h1 : j ∉ l1 := fun hm => hno.2.2 j hm j List.mem_cons_self rfl
  have h2 : j ∉ l2 := (List.nodup_cons.mp hno.2.1).1
  have hsplit : rejects m (l1 ++ j :: l2) s = rejects m l2 (reject m j (rejects m l1 s)) := by
    simp [rejects]
  refine ⟨l1, h1, ?_⟩
  rw [hsplit]
  exact (touches_rejects m l2 _).others j h2

lemma rejects_of_rejectable {l : List ℕ} (hl : l.Nodup) (hj : j ∈ l)
    (h : rejectable m s j = true) : ((rejects m l s).orders j).rejected = true := by
  obtain ⟨l1, h1, hsplit⟩ := rejects_orders m s hl hj
  have ht := touches_rejects m l1 s
  have hT : (rejects m l1 s).T = s.T := congrArg Shape.T ht.shape
  have hthere : rejectable m (rejects m l1 s) j = true := by
    rw [← h]
    simp only [rejectable, waiting, St.possible, ht.others j h1, ht.ticks, ht.machines, ht.toppings,
      hT, table_rejects m s h1]
  rw [hsplit]
  exact rejected_of_rejectable hthere

lemma rejects_rejected (m : Fin N) (l : List ℕ) (h : (s.orders j).rejected = true) :
    ((rejects m l s).orders j).rejected = true := by
  induction l generalizing s with
  | nil => exact h
  | cons i l ih =>
    refine ih ?_
    by_cases hji : j = i
    · subst hji
      have hw := written m s j
      generalize (reject m j s).orders j = o at hw ⊢
      cases hw with
      | same => exact h
      | vote => exact h
      | last => rfl
      | short => rfl
    · rw [(touches_reject m i s).others j (by simpa using hji)]
      exact h

lemma waiting_of_rejects (m : Fin N) (l : List ℕ) (h : waiting (rejects m l s) j = true) :
    waiting s j = true := by
  induction l generalizing s with
  | nil => exact h
  | cons i l ih =>
    have h1 := ih h
    by_cases hji : j = i
    · subst hji
      by_contra hn
      have hsame := (written m s j).eq_of_not_waiting hn
      rw [waiting, hsame] at h1
      exact hn h1
    · have hsame := (touches_reject m i s).others j (by simpa using hji)
      rw [waiting, hsame] at h1
      exact h1

end Scan

/-! ### The turns that are left -/

variable {inp : Input} {tr : List (Thread inp.N inp.total_customers ×
    St inp.N inp.total_customers)} {s s' : St inp.N inp.total_customers}
  {m k : Fin inp.N} {c d : Fin inp.total_customers} {i j : ℕ}

/-- After the turn of `t`, machine `k` has a turn to come within its hours. -/
def OpenAfter (t : Thread inp.N inp.total_customers) (s : St inp.N inp.total_customers)
    (k : Fin inp.N) : Prop :=
  (s.icecream_machines k).start_time < (s.icecream_machines k).end_time ∧
    s.ticks + (if pos (.worker k : Thread inp.N inp.total_customers) ≤ pos t then 1 else 0) <
      (s.icecream_machines k).end_time

instance (t : Thread inp.N inp.total_customers) (s : St inp.N inp.total_customers)
    (k : Fin inp.N) : Decidable (OpenAfter t s k) :=
  inferInstanceAs (Decidable (_ ∧ _))

/-- The machine is open. -/
def Opened (m : Fin inp.N) (s : St inp.N inp.total_customers) : Prop :=
  (s.icecream_machines m).start_time ≤ s.ticks ∧ s.ticks < (s.icecream_machines m).end_time

instance (m : Fin inp.N) (s : St inp.N inp.total_customers) : Decidable (Opened m s) :=
  inferInstanceAs (Decidable (_ ∧ _))

/-- A turn after which nothing is left undecided. A customer who sits down has ordered something and
comes while some machine has a turn to come; what a machine starts on takes time, and not so much
that the sum wraps; and in the last turn in which a machine is open, a customer with an order that
waits has one that is rejected, or that this turn rejects. -/
def Decisive : Thread inp.N inp.total_customers → St inp.N inp.total_customers → Prop
  | .customer c, s =>
    (s.customers c).arrival_time = s.ticks → s.customers_sitting_in_parlour ≠ s.K →
      s.possible ((s.customers c).icecreams.flatMap Icecream.topping) = true →
      (s.customers c).order_id_s ≠ [] ∧ ∃ k, OpenAfter (.customer c) s k
  | .worker m, s =>
    (∀ i ∈ started m s, 1 ≤ (s.orders i).icecreams.time_to_prepare ∧
      s.ticks + (s.orders i).icecreams.time_to_prepare < 2 ^ 31) ∧
    (Opened m s → (∀ k, ¬ OpenAfter (.worker m) s k) →
      ∀ c, (∃ i ∈ (s.customers c).order_id_s, waiting s i = true) →
        ∃ j ∈ (s.customers c).order_id_s, (s.orders j).rejected = true ∨
          ((s.icecream_machines m).is_busy = false ∧ rejectable m s j = true))

instance (t : Thread inp.N inp.total_customers) (s : St inp.N inp.total_customers) :
    Decidable (Decisive t s) :=
  match t with
  | .customer c => inferInstanceAs (Decidable ((s.customers c).arrival_time = s.ticks →
      s.customers_sitting_in_parlour ≠ s.K →
      s.possible ((s.customers c).icecreams.flatMap Icecream.topping) = true →
      (s.customers c).order_id_s ≠ [] ∧ ∃ k, OpenAfter (.customer c) s k))
  | .worker m => inferInstanceAs (Decidable (
      (∀ i ∈ started m s, 1 ≤ (s.orders i).icecreams.time_to_prepare ∧
        s.ticks + (s.orders i).icecreams.time_to_prepare < 2 ^ 31) ∧
      (Opened m s → (∀ k, ¬ OpenAfter (.worker m) s k) →
        ∀ c, (∃ i ∈ (s.customers c).order_id_s, waiting s i = true) →
          ∃ j ∈ (s.customers c).order_id_s, (s.orders j).rejected = true ∨
            ((s.icecream_machines m).is_busy = false ∧ rejectable m s j = true))))

lemma Decisive.later (hdec : Decisive (.worker m) s) (hd : Next tr s (.worker m))
    (hi : i ∈ started m s) : s.ticks < (s.orders i).icecreams.time_to_finish s.ticks := by
  obtain ⟨h1, h2⟩ := hdec.1 i hi
  have hnow := hd.nonneg
  rw [Icecream.time_to_finish_of ⟨by omega, h2⟩]
  omega

def opens (inp : Input) (k : Fin inp.N) : ℤ := (inp.machines.get k).1

def closes (inp : Input) (k : Fin inp.N) : ℤ := (inp.machines.get k).2

lemma opens_eq (h : House inp tr s) (k : Fin inp.N) :
    (s.icecream_machines k).start_time = opens inp k :=
  congrFun (congrArg Shape.opens h.shape) k

lemma closes_eq (h : House inp tr s) (k : Fin inp.N) :
    (s.icecream_machines k).end_time = closes inp k :=
  congrFun (congrArg Shape.closes h.shape) k

/-- No machine has a turn to come within its hours. -/
def Over (inp : Input)
    (tr : List (Thread inp.N inp.total_customers × St inp.N inp.total_customers)) : Prop :=
  ∀ k t, 0 ≤ t → opens inp k ≤ t → t < closes inp k → Had inp tr (.worker k) t

lemma over_iff (h : House inp tr s) {t : Thread inp.N inp.total_customers} (hd : Next tr s t) :
    Over inp (tr ++ [(t, s)]) ↔ ∀ k, ¬ OpenAfter t s k := by
  have hnow := hd.nonneg
  have hhad : ∀ k x, Had inp (tr ++ [(t, s)]) (.worker k) x ↔ 0 ≤ x ∧ x < s.ticks +
      (if pos (.worker k : Thread inp.N inp.total_customers) ≤ pos t then 1 else 0) := by
    intro k x
    have hinj : pos (.worker k : Thread inp.N inp.total_customers) = pos t ↔ .worker k = t :=
      (pos_inj inp.customers_pos).eq_iff
    rw [had_succ hd, Had, hd.turned_iff (numbered_parlour inp), ← hinj]
    split_ifs <;> omega
  simp only [Over, OpenAfter, hhad, opens_eq h, closes_eq h, not_and, not_lt]
  constructor
  · intro hall k hk
    by_contra hn
    have h1 := (hall k (max (opens inp k) (s.ticks + if pos (.worker k :
      Thread inp.N inp.total_customers) ≤ pos t then 1 else 0)) (by split_ifs <;> omega)
      (by omega) (by omega)).2
    omega
  · intro hall k x h0 h1 h2
    have h3 := hall k (by omega)
    omega

lemma over_succ {t : Thread inp.N inp.total_customers} (hd : Next tr s t)
    (h : Over inp (tr ++ [(t, s)])) (hno : ∀ k, t = .worker k → opens inp k ≤ s.ticks →
      ¬ s.ticks < closes inp k) : Over inp tr := by
  intro k x h0 h1 h2
  rcases (had_succ hd).mp (h k x h0 h1 h2) with h3 | ⟨h3, rfl⟩
  · exact h3
  · exact absurd h2 (hno k h3.symm h1)

/-! ### The turn of a machine -/

/-- What the turn of a machine leaves: rejected orders stay rejected, no order starts to wait, and
only the order that it starts on gets a machine. -/
structure Onward (m : Fin inp.N) (s s' : St inp.N inp.total_customers) : Prop where
  customers : s'.customers = s.customers
  rejected : ∀ j, (s.orders j).rejected = true → (s'.orders j).rejected = true
  waits : ∀ j, waiting s' j = true → waiting s j = true
  id : ∀ j, (s'.orders j).icecream_machine_id ≠ -1 →
    ((s.orders j).icecream_machine_id ≠ -1 ∧
      (s'.orders j).start_time_of_order = (s.orders j).start_time_of_order) ∨
    (j ∈ started m s ∧ (s'.orders j).start_time_of_order = s.ticks)

lemma onward_rejects (m : Fin inp.N) (l : List ℕ) (s : St inp.N inp.total_customers) :
    Onward m s (rejects m l s) := by
  refine ⟨(touches_rejects m l s).customers, fun j hj => rejects_rejected m l hj,
    fun j hj => waiting_of_rejects m l hj, fun j hj => Or.inl ?_⟩
  obtain ⟨h1, h2, -⟩ := core_eq (rejects_core m l s j)
  rw [h1] at hj
  exact ⟨hj, h2⟩

lemma onward (m : Fin inp.N) (s : St inp.N inp.total_customers) :
    Onward m s (icecream_machine_func m s) := by
  have hstop : ∀ s' : St inp.N inp.total_customers, Onward m s s' → Onward m s (stop m s') := by
    intro s' h'
    unfold stop
    split_ifs
    · exact ⟨h'.customers, h'.rejected, h'.waits, h'.id⟩
    · exact h'
  rw [machine_turn]
  refine hstop _ ?_
  have hw := working m s
  generalize work m s = s' at hw ⊢
  cases hw with
  | nothing => exact onward_rejects m [] s
  | scan => exact onward_rejects m _ s
  | start i h0 h1 hb hs hf hi hlt =>
    have h := onward_rejects m (List.range i) s
    have hnow := (touches_rejects m (List.range i) s).ticks
    generalize rejects m (List.range i) s = s1 at h hnow ⊢
    have hoth : ∀ j, j ≠ i → (start_order m i s1).orders j = s1.orders j := fun j hj => by
      simp [start_order, St.setMachine, St.setOrder, Function.update_of_ne hj]
    refine ⟨h.customers, fun j hj => ?_, fun j hj => ?_, fun j hj => ?_⟩
    · by_cases hji : j = i
      · subst hji
        simpa [start_order, St.setMachine, St.setOrder] using h.rejected j hj
      · rw [hoth j hji]
        exact h.rejected j hj
    · by_cases hji : j = i
      · subst hji
        have h2 := (waiting_iff.mp hj).2.1
        simp only [start_order, St.setMachine, St.setOrder, Function.update_self] at h2
        omega
      · rw [waiting, hoth j hji] at hj
        exact h.waits j hj
    · by_cases hji : j = i
      · subst hji
        refine Or.inr ⟨hs, ?_⟩
        simpa [start_order, St.setMachine, St.setOrder] using hnow
      · rw [hoth j hji] at hj ⊢
        exact h.id j hj
  | complete i h0 h1 hb ho hs hf =>
    have hoth : ∀ j, j ≠ i → (complete_order m i s).orders j = s.orders j := fun j hj => by
      simp [complete_order, St.setMachine, St.setOrder, Function.update_of_ne hj]
    refine ⟨rfl, fun j hj => ?_, fun j hj => ?_, fun j hj => Or.inl ?_⟩
    · by_cases hji : j = i
      · subst hji
        simpa [complete_order, St.setMachine, St.setOrder] using hj
      · rwa [hoth j hji]
    · by_cases hji : j = i
      · subst hji
        have h2 := (waiting_iff.mp hj).1
        simp [complete_order, St.setMachine, St.setOrder] at h2
      · rwa [waiting, hoth j hji] at hj
    · by_cases hji : j = i
      · subst hji
        simpa [complete_order, St.setMachine, St.setOrder] using hj
      · rw [hoth j hji] at hj ⊢
        exact ⟨hj, rfl⟩

/-- In the last turn of all the machine starts on nothing: an idle one rejects what it can. -/
lemma last_turn (h : House inp tr s) (hopen : Opened m s)
    (hlast : ¬ OpenAfter (.worker m) s m) (hb : (s.icecream_machines m).is_busy = false)
    (htime : ∀ i ∈ started m s, s.ticks < (s.orders i).icecreams.time_to_finish s.ticks)
    (hj : j < inp.icecreams.length) (hr : rejectable m s j = true) :
    ((icecream_machine_func m s).orders j).rejected = true := by
  have hend : (s.icecream_machines m).end_time ≤ s.ticks + 1 := by
    by_contra hn
    refine hlast ⟨by have := hopen.1; have := hopen.2; omega, ?_⟩
    rw [if_pos le_rfl]
    omega
  have hstop : ∀ s' : St inp.N inp.total_customers, (stop m s').orders = s'.orders := fun s' => by
    unfold stop
    split_ifs <;> rfl
  rw [machine_turn, hstop]
  have hw := working m s
  generalize work m s = s' at hw ⊢
  cases hw with
  | nothing hs hf hidle =>
    rw [hidle hopen.1 hopen.2] at hb
    cases hb
  | scan h0 h1 hb hs hf =>
    refine rejects_of_rejectable List.nodup_range ?_ hr
    rw [List.mem_range, h.total_eq]
    exact hj
  | start i h0 h1 hb hs hf hi hlt =>
    have h2 := htime i hs
    simp only [startable, Bool.and_eq_true, decide_eq_true_eq] at hi
    omega
  | complete i h0 h1 hb' =>
    rw [hb] at hb'
    cases hb'

/-! ### The invariant -/

/-- What machines started on takes time; who sits has ordered something; when no machine has a turn
to come within its hours, a customer with an order that waits has one that is rejected; and after a
turn at a tick at which all machines have closed, a customer who came has left. -/
structure Tidy (inp : Input)
    (tr : List (Thread inp.N inp.total_customers × St inp.N inp.total_customers))
    (s : St inp.N inp.total_customers) : Prop where
  timed : ∀ i, (s.orders i).icecream_machine_id ≠ -1 →
    (s.orders i).start_time_of_order < ready (s.orders i)
  wants : ∀ c, Had inp tr (.customer c) (arrival inp c) → (s.customers c).leaves = false →
    ids inp c ≠ []
  decided : Over inp tr → ∀ c, (s.customers c).leaves = false →
    (∃ i ∈ ids inp c, waiting s i = true) → ∃ j ∈ ids inp c, (s.orders j).rejected = true
  gone : ∀ c t, Had inp tr (.customer c) t → (∀ k, closes inp k ≤ t) →
    Had inp tr (.customer c) (arrival inp c) → (s.customers c).leaves = true

lemma Tidy.worker (hh : House inp tr s) (h : Tidy inp tr s) (hd : Next tr s (.worker m))
    (hdec : Decisive (.worker m) s) :
    Tidy inp (tr ++ [(Thread.worker m, s)]) (icecream_machine_func m s) := by
  have ho := onward m s
  have hsame : ∀ d t, Had inp (tr ++ [(Thread.worker m, s)]) (.customer d) t ↔
      Had inp tr (.customer d) t := fun d t => had_other hd (by simp)
  have hice : ∀ i, ((icecream_machine_func m s).orders i).icecreams = (s.orders i).icecreams :=
    fun i => congrFun (congrArg Shape.icecream ((hh.worker hd).shape.trans hh.shape.symm)) i
  refine ⟨fun i hi => ?_, fun c hc hl => ?_, fun hover c hl hwait => ?_, fun c t ht hall hc => ?_⟩
  · unfold ready
    rw [hice]
    rcases ho.id i hi with ⟨h1, h2⟩ | ⟨h1, h2⟩
    · rw [h2]
      exact h.timed i h1
    · rw [h2]
      exact hdec.later hd h1
  · rw [ho.customers] at hl
    exact h.wants c ((hsame c _).mp hc) hl
  · rw [ho.customers] at hl
    obtain ⟨i, hi, hw⟩ := hwait
    have hwas : ∃ i ∈ ids inp c, waiting s i = true := ⟨i, hi, ho.waits i hw⟩
    by_cases hopen : Opened m s
    · -- the last turn of all
      have hlast := (over_iff hh hd).mp hover
      rw [← hh.ids_eq c] at hwas
      obtain ⟨j, hj, hr⟩ := hdec.2 hopen hlast c hwas
      rw [hh.ids_eq c] at hj
      refine ⟨j, hj, ?_⟩
      rcases hr with hr | ⟨hb, hr⟩
      · exact ho.rejected j hr
      · exact last_turn hh hopen (hlast m) hb (fun _ hi => hdec.later hd hi) (lt_of_mem_ids inp hj) hr
    · have hbefore : Over inp tr := by
        refine over_succ hd hover fun k hk h1 h2 => hopen ?_
        obtain rfl : m = k := by simpa using hk
        rw [Opened, opens_eq hh, closes_eq hh]
        exact ⟨h1, h2⟩
      obtain ⟨j, hj, hr⟩ := h.decided hbefore c hl hwas
      exact ⟨j, hj, ho.rejected j hr⟩
  · rw [ho.customers]
    exact h.gone c t ((hsame c _).mp ht) hall ((hsame c _).mp hc)

/-! ### The turn of a customer -/

/-- After its turn a customer has left, or it was the one of its arrival and it sits, or nothing
happened, and then none of its orders is rejected and one is not completed, if it came before. -/
lemma visit_outcome (h : House inp tr s) (hd : Next tr s (.customer c)) :
    ((visit c s).customers c).leaves = true ∨
      ((s.customers c).arrival_time = s.ticks ∧ s.customers_sitting_in_parlour ≠ s.K ∧
        s.possible ((s.customers c).icecreams.flatMap Icecream.topping) = true) ∨
      (visit c s = s ∧ (s.customers c).arrival_time ≠ s.ticks ∧
        ((s.customers c).arrival_time < s.ticks → (s.customers c).leaves = false →
          (no_service c s || shortage c s) = false) ∧
        ((s.customers c).leaves = false → (s.customers c).order_id_s ≠ [] →
          ∃ i ∈ (s.customers c).order_id_s, (s.orders i).is_completed = false)) := by
  have hv := h.visited hd
  generalize visit c s = s' at hv ⊢
  cases hv with
  | full => exact Or.inl (by simp [ParlourTurns.St.setGuest])
  | short => exact Or.inl (by simp [ParlourTurns.St.setGuest])
  | seated ha hk hp => exact Or.inr (Or.inl ⟨ha, hk, hp⟩)
  | withdrawn => exact Or.inl (by simp [ParlourTurns.St.setGuest])
  | served => exact Or.inl (by simp [ParlourTurns.St.setGuest])
  | nothing ha hr hall => exact Or.inr (Or.inr ⟨rfl, ha, hr, hall⟩)

lemma customer_func_eq (c : Fin inp.total_customers) (s : St inp.N inp.total_customers) :
    (customer_func c s).customers = (visit c s).customers ∧
      (customer_func c s).orders = (visit c s).orders := by
  rw [customer_turn]
  split_ifs <;> exact ⟨rfl, rfl⟩

lemma visit_frame (h : House inp tr s) (hd : Next tr s (.customer c)) :
    (∀ d, d ≠ c → (customer_func c s).customers d = s.customers d) ∧
      ∀ i, i ∉ ids inp c → (customer_func c s).orders i = s.orders i := by
  rw [(customer_func_eq c s).1, (customer_func_eq c s).2]
  have hids := h.ids_eq c
  have hv := h.visited hd
  generalize visit c s = s' at hv ⊢
  cases hv with
  | nothing => exact ⟨fun _ _ => rfl, fun _ _ => rfl⟩
  | seated => exact ⟨fun _ _ => rfl, fun i hi => by simp [marked, hids, hi]⟩
  | _ =>
    refine ⟨fun d hdc => ?_, fun i hi => ?_⟩
    · simp [ParlourTurns.St.setGuest, Function.update_of_ne hdc]
    · simp [ParlourTurns.St.setGuest, marked, hids, hi]

lemma decided_or_waiting (h : House inp tr s) (ht : Tidy inp tr s) (hd : Next tr s (.customer c))
    (hall : ∀ k, closes inp k ≤ s.ticks) {o : Order} (ho : s.orders i = o)
    (hst : Standing inp.N o) :
    o.is_completed = true ∨ o.rejected = true ∨ waiting s i = true := by
  subst ho
  by_cases hcons : (s.orders i).is_to_considered = true
  · by_cases hid : (s.orders i).icecream_machine_id = -1
    · exact Or.inr (Or.inr (waiting_iff.mpr ⟨hcons, hid, hst.placed⟩))
    · -- its machine has had the turn in which it was ready
      obtain ⟨k, hk⟩ := (h.known i).resolve_left fun hu => hid hu.id
      have hlater := ht.timed i hid
      refine Or.inl (hk.completed.mpr ⟨hlater, ?_⟩)
      have hsince := ((hd.turned_iff (numbered_parlour inp)).mp hk.since).1
      have hfit := hk.fits
      rw [closes_eq h] at hfit
      have hclose := hall k
      exact (hd.turned_iff (numbered_parlour inp)).mpr ⟨by omega, Or.inl (by omega)⟩
  · by_contra hn
    rw [not_or, not_or] at hn
    exact hcons (hst.considered.mpr ⟨by simpa using hn.1, by simpa using hn.2.1⟩)

/-- When all machines have closed, a customer who came leaves in its turn. -/
lemma departs (hh : House inp tr s) (h : Tidy inp tr s) (hd : Next tr s (.customer c))
    (hdec : Decisive (.customer c) s) (hall : ∀ k, closes inp k ≤ s.ticks)
    (hc : Had inp (tr ++ [(Thread.customer c, s)]) (.customer c) (arrival inp c)) :
    ((customer_func c s).customers c).leaves = true := by
  rw [(customer_func_eq c s).1]
  rcases visit_outcome hh hd with h1 | ⟨ha, hk, hp⟩ | ⟨hs, ha, hr, hopen⟩
  · exact h1
  · obtain ⟨-, k, hk1, hk2⟩ := hdec ha hk hp
    rw [closes_eq hh] at hk2
    have := hall k
    split_ifs at hk2 <;> omega
  · rw [hs]
    by_contra hl
    rw [Bool.not_eq_true] at hl
    have hcame : Had inp tr (.customer c) (arrival inp c) := by
      rw [had_succ hd, ← hh.arrival_eq c] at hc
      rw [← hh.arrival_eq c]
      exact hc.resolve_right fun h2 => ha h2.2
    have hbefore : (s.customers c).arrival_time < s.ticks := by
      rw [hh.arrival_eq c]
      exact ((had_self hd).mp hcame).2
    have hover : Over inp tr := by
      intro k x h0 h1 h2
      have := hall k
      exact (hd.turned_iff (numbered_parlour inp)).mpr ⟨h0, Or.inl (by omega)⟩
    have hstand : ∀ i ∈ ids inp c, Standing inp.N (s.orders i) := by
      cases hh.guest c with
      | expected h1 => exact absurd hcame h1
      | seated h1 h2 h3 h4 => exact h4
      | away h1 h2 => rw [hl] at h2; cases h2
      | left h1 h2 => rw [hl] at h2; cases h2
      | served h1 h2 => rw [hl] at h2; cases h2
    -- one of its orders is not completed, so that one of its orders is rejected
    obtain ⟨i, hi, hnot⟩ := hopen hl (by rw [hh.ids_eq c]; exact h.wants c hcame hl)
    rw [hh.ids_eq c] at hi
    obtain ⟨j, hj, hrej⟩ : ∃ j ∈ ids inp c, (s.orders j).rejected = true := by
      rcases decided_or_waiting hh h hd hall rfl (hstand i hi) with h1 | h1 | h1
      · rw [hnot] at h1
        cases h1
      · exact ⟨i, hi, h1⟩
      · exact h.decided hover c hl ⟨i, hi, h1⟩
    have hno := hr hbefore hl
    rw [Bool.or_eq_false_iff, no_service, shortage, List.any_eq_false, List.any_eq_false,
      hh.ids_eq c] at hno
    rcases (hstand j hj).rejected.mp hrej with h1 | h1
    · exact hno.1 j hj (by simpa using h1)
    · exact hno.2 j hj h1

lemma Tidy.customer (hh : House inp tr s) (h : Tidy inp tr s) (hd : Next tr s (.customer c))
    (hdec : Decisive (.customer c) s) :
    Tidy inp (tr ++ [(Thread.customer c, s)]) (customer_func c s) := by
  obtain ⟨hcus, hord⟩ := visit_frame hh hd
  have hwait : ∀ i, i ∉ ids inp c → waiting (customer_func c s) i = waiting s i :=
    fun i hi => by rw [waiting, hord i hi]; rfl
  have hother : ∀ d t, d ≠ c → (Had inp (tr ++ [(Thread.customer c, s)]) (.customer d) t ↔
      Had inp tr (.customer d) t) := fun d t hdc => had_other hd (by simpa using hdc)
  refine ⟨fun i hi => ?_, fun d hd' hl => ?_, fun hover d hl hw => ?_, fun d t ht hall hd' => ?_⟩
  · obtain ⟨h1, h2, -, h4⟩ := core_eq (visit_core hh hd i)
    unfold ready
    rw [h2, h4]
    exact h.timed i (h1 ▸ hi)
  · by_cases hdc : d = c
    · subst hdc
      rw [(customer_func_eq d s).1] at hl
      rcases visit_outcome hh hd with h1 | ⟨ha, hk, hp⟩ | ⟨hs, ha, -⟩
      · rw [hl] at h1
        cases h1
      · rw [← hh.ids_eq d]
        exact (hdec ha hk hp).1
      · rw [hs] at hl
        rw [had_succ hd, ← hh.arrival_eq d] at hd'
        refine h.wants d ?_ hl
        rw [← hh.arrival_eq d]
        exact hd'.resolve_right fun h2 => ha h2.2
    · rw [hcus d hdc] at hl
      exact h.wants d ((hother d _ hdc).mp hd') hl
  · have hbefore : Over inp tr := over_succ hd hover fun k hk => by cases hk
    by_cases hdc : d = c
    · subst hdc
      rw [(customer_func_eq d s).1] at hl
      rcases visit_outcome hh hd with h1 | ⟨ha, hk, hp⟩ | ⟨hs, -⟩
      · rw [hl] at h1
        cases h1
      · -- some machine is still to have a turn
        obtain ⟨-, k, hk'⟩ := hdec ha hk hp
        exact absurd hk' ((over_iff hh hd).mp hover k)
      · have hsame := (customer_func_eq d s).2
        rw [hs] at hsame hl
        simp only [waiting, hsame] at hw ⊢
        exact h.decided hbefore d hl hw
    · rw [hcus d hdc] at hl
      have hnot : ∀ i ∈ ids inp d, i ∉ ids inp c := fun i hi => ids_disjoint inp hdc hi
      obtain ⟨i, hi, hwi⟩ := hw
      rw [hwait i (hnot i hi)] at hwi
      obtain ⟨j, hj, hr⟩ := h.decided hbefore d hl ⟨i, hi, hwi⟩
      exact ⟨j, hj, by rw [hord j (hnot j hj)]; exact hr⟩
  · by_cases hdc : d = c
    · subst hdc
      refine departs hh h hd hdec (fun k => (hall k).trans ?_) hd'
      rw [had_succ hd, had_self hd] at ht
      omega
    · rw [hcus d hdc]
      exact h.gone d t ((hother d _ hdc).mp ht) hall ((hother d _ hdc).mp hd')

/-- One machine, open in the first tick only, and a customer who comes at tick `2`. -/
def lateInput : Input where
  machines := [(0, 1)]
  K := 10
  toppings := [3]
  arrivals := [⟨2, [⟨1, []⟩]⟩]
  machines_pos := by decide
  arrivals_pos := by decide

end Xv6.ParlourClosing
