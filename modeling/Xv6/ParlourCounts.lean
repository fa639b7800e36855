import Xv6.ParlourService

/-!
The two counters of the parlour that can go wrong: the number of orders considered, which misses
the orders that a customer withdraws while they are open, and the stock of toppings, which is
checked for the first toppings of an order only. Each is exact as long as that does not happen.
-/

namespace Xv6.ParlourCounts

open Xv6.Ring Xv6.Rounds Xv6.Crew Xv6.Parlour Xv6.Turns Xv6.ParlourTurns Xv6.ParlourHouse
open Xv6.ParlourService

variable {inp : Input} {tr : List (Thread inp.N inp.total_customers ×
    St inp.N inp.total_customers)} {s s' : St inp.N inp.total_customers}
  {m : Fin inp.N} {c : Fin inp.total_customers} {i : ℕ}

/-! ### Orders considered -/

/-- The number of closed orders. -/
def closed (s : St inp.N inp.total_customers) : ℕ :=
  ((Finset.range s.total_orders).filter fun i => (s.orders i).is_to_considered = false).card

/-- `1` for an open order, `0` for a closed one. -/
def openness (s : St inp.N inp.total_customers) (i : ℕ) : ℕ :=
  if (s.orders i).is_to_considered then 1 else 0

lemma closed_congr (hT : s'.total_orders = s.total_orders)
    (h : ∀ i, (s'.orders i).is_to_considered = (s.orders i).is_to_considered) :
    closed s' = closed s := by
  simp only [closed, hT, h]

lemma closed_touch (hT : s'.total_orders = s.total_orders) (hi : i < s.total_orders)
    (h : ∀ j, j ≠ i → (s'.orders j).is_to_considered = (s.orders j).is_to_considered) :
    closed s' + openness s' i = closed s + openness s i := by
  have hone : ∀ u : St inp.N inp.total_customers, i < u.total_orders →
      closed u + openness u i = (((Finset.range u.total_orders).erase i).filter fun j =>
        (u.orders j).is_to_considered = false).card + 1 := by
    intro u hu
    have hmem : i ∈ Finset.range u.total_orders := Finset.mem_range.mpr hu
    unfold closed openness
    rw [← Finset.insert_erase hmem, Finset.filter_insert, Finset.erase_insert_eq_erase]
    cases (u.orders i).is_to_considered with
    | true => simp
    | false => simp [Finset.card_insert_of_notMem]
  rw [hone s' (by omega), hone s hi, hT]
  congr 2
  refine Finset.filter_congr fun j hj => ?_
  rw [h j (Finset.ne_of_mem_erase hj)]

lemma reject_balance (m : Fin inp.N) (i : ℕ) (s : St inp.N inp.total_customers) :
    (reject m i s).orders_considered + openness (reject m i s) i =
      s.orders_considered + openness s i := by
  unfold reject
  by_cases hw : waiting s i = true
  · have hc := (waiting_iff.mp hw).1
    rw [if_pos hw]
    split_ifs with ht hp
    · unfold reject_time
      dsimp only
      split_ifs <;> simp_all [openness, St.setOrder]
    · rfl
    · unfold reject_toppings
      split_ifs
      · rfl
      · simp [openness, St.setOrder, hc]
  · rw [if_neg hw]

/-- A customer who withdraws has no open order left. -/
def Settled : Thread inp.N inp.total_customers → St inp.N inp.total_customers → Prop
  | .worker _, _ => True
  | .customer c, s => (s.customers c).arrival_time < s.ticks → (s.customers c).leaves = false →
      (no_service c s || shortage c s) = true →
      ∀ i ∈ (s.customers c).order_id_s, (s.orders i).is_to_considered = false

instance (t : Thread inp.N inp.total_customers) (s : St inp.N inp.total_customers) :
    Decidable (Settled t s) :=
  match t with
  | .worker _ => isTrue trivial
  | .customer c => inferInstanceAs (Decidable ((s.customers c).arrival_time < s.ticks →
      (s.customers c).leaves = false → (no_service c s || shortage c s) = true →
      ∀ i ∈ (s.customers c).order_id_s, (s.orders i).is_to_considered = false))

/-- The counter is exact, and what a machine prepares is open. -/
structure Counted (s : St inp.N inp.total_customers) : Prop where
  counter : s.orders_considered = closed s
  prepared : ∀ i, (s.orders i).icecream_machine_id ≠ -1 → (s.orders i).is_completed = false →
    (s.orders i).is_to_considered = true

lemma Counted.congr (h : Counted s) (hk : s'.orders_considered = s.orders_considered)
    (hT : s'.total_orders = s.total_orders)
    (ho : ∀ i, (s'.orders i).is_to_considered = (s.orders i).is_to_considered)
    (hc : ∀ i, core (s'.orders i) = core (s.orders i)) : Counted s' := by
  refine ⟨by rw [hk, closed_congr hT ho]; exact h.counter, fun i h1 h2 => ?_⟩
  obtain ⟨e1, -, e3, -⟩ := core_eq (hc i)
  rw [e1] at h1
  rw [e3] at h2
  rw [ho]
  exact h.prepared i h1 h2

lemma Counted.reject (h : Counted s) (m : Fin inp.N) (hi : i < s.total_orders) :
    Counted (reject m i s) := by
  have ht := touches_reject m i s
  have hT : (ParlourTurns.reject m i s).total_orders = s.total_orders :=
    congrArg Shape.total_orders ht.shape
  have hoth : ∀ j, j ≠ i → (ParlourTurns.reject m i s).orders j = s.orders j :=
    fun j hj => ht.others j (by simpa using hj)
  have h1 := reject_balance m i s
  have h2 := closed_touch hT hi fun j hj => by rw [hoth j hj]
  have hw := written m s i
  generalize ParlourTurns.reject m i s = s' at hT hoth h1 h2 hw ⊢
  refine ⟨by have := h.counter; omega, fun j hj hc => ?_⟩
  by_cases hji : j = i
  · subst hji
    obtain ⟨e1, -, -, -⟩ := core_eq (written_core hw)
    rw [e1] at hj
    have hsame := hw.eq_of_not_waiting fun hwt => hj (waiting_iff.mp hwt).2.1
    rw [hsame] at hc ⊢
    exact h.prepared j hj hc
  · rw [hoth j hji] at hj hc ⊢
    exact h.prepared j hj hc

lemma Counted.rejects (h : Counted s) (m : Fin inp.N) {l : List ℕ}
    (hl : ∀ i ∈ l, i < s.total_orders) : Counted (rejects m l s) := by
  induction l generalizing s with
  | nil => exact h
  | cons i l ih =>
    have hT : (ParlourTurns.reject m i s).total_orders = s.total_orders :=
      congrArg Shape.total_orders (touches_reject m i s).shape
    exact ih (h.reject m (hl i List.mem_cons_self)) fun j hj => by
      rw [hT]; exact hl j (List.mem_cons_of_mem i hj)

lemma Counted.worker (hh : House inp tr s) (h : Counted s) :
    Counted (icecream_machine_func m s) := by
  have hstop : ∀ s' : St inp.N inp.total_customers, Counted s' → Counted (stop m s') := by
    intro s' h'
    unfold stop
    split_ifs
    · exact h'.congr rfl rfl (fun _ => rfl) fun _ => rfl
    · exact h'
  rw [machine_turn]
  refine hstop _ ?_
  have hw := working m s
  generalize work m s = s' at hw ⊢
  cases hw with
  | nothing => exact h
  | scan => exact h.rejects m fun i hi => List.mem_range.mp hi
  | start i h0 h1 hb hs hf hi hlt =>
    have h2 : Counted (ParlourTurns.rejects m (List.range i) s) := h.rejects m fun j hj =>
      (List.mem_range.mp hj).trans hlt
    rw [← (touches_rejects m (List.range i) s).startable_eq (by simp) m] at hi
    simp only [startable, Bool.and_eq_true] at hi
    have hcons := (waiting_iff.mp hi.1.1).1
    generalize ParlourTurns.rejects m (List.range i) s = s1 at h2 hcons ⊢
    have hsame : ∀ j, ((start_order m i s1).orders j).is_to_considered =
        (s1.orders j).is_to_considered := fun j => by
      by_cases hji : j = i
      · subst hji; simp [start_order, St.setMachine, St.setOrder]
      · simp [start_order, St.setMachine, St.setOrder, Function.update_of_ne hji]
    refine ⟨?_, fun j hj hc => ?_⟩
    · have hcl : closed (start_order m i s1) = closed s1 := closed_congr rfl hsame
      rw [hcl]
      exact h2.counter
    · rw [hsame]
      by_cases hji : j = i
      · subst hji; exact hcons
      · simp only [start_order, St.setMachine, St.setOrder, Function.update_of_ne hji] at hj hc
        exact h2.prepared j hj hc
  | complete i h0 h1 hb ho hs hf =>
    obtain ⟨hst, hopen⟩ := hh.holds hb ho
    have hcons := h.prepared i (by rw [hst.id]; omega) hopen
    have hoth : ∀ j, j ≠ i → (complete_order m i s).orders j = s.orders j := fun j hj => by
      simp [complete_order, St.setMachine, St.setOrder, Function.update_of_ne hj]
    have h2 : closed (complete_order m i s) + openness (complete_order m i s) i =
        closed s + openness s i := closed_touch rfl
      (by rw [hh.total_eq]; exact hst.bound) fun j hj => by rw [hoth j hj]
    have hself : openness (complete_order m i s) i = 0 := by
      simp [openness, complete_order, St.setMachine, St.setOrder]
    have hbefore : openness s i = 1 := by simp [openness, hcons]
    refine ⟨?_, fun j hj hc => ?_⟩
    · have h3 := h.counter
      change s.orders_considered + 1 = _
      omega
    · have hji : j ≠ i := by
        rintro rfl
        simp [complete_order, St.setMachine, St.setOrder] at hc
      rw [hoth j hji] at hj hc ⊢
      exact h.prepared j hj hc

lemma closed_marked {f : Order → Order} {l : List ℕ} (hl : l.Nodup)
    (hlt : ∀ i ∈ l, i < s.total_orders) (hopen : ∀ i ∈ l, (s.orders i).is_to_considered = true)
    (hf : ∀ o, (f o).is_to_considered = false) (hT : s'.total_orders = s.total_orders)
    (ho : s'.orders = marked f l s.orders) : closed s' = closed s + l.length := by
  have hset : (Finset.range s'.total_orders).filter (fun i =>
      (s'.orders i).is_to_considered = false) =
      ((Finset.range s.total_orders).filter fun i => (s.orders i).is_to_considered = false) ∪
        l.toFinset := by
    ext i
    simp only [Finset.mem_filter, Finset.mem_union, List.mem_toFinset, Finset.mem_range, hT, ho,
      marked]
    by_cases hi : i ∈ l
    · simp [hi, hf, hlt i hi]
    · simp [hi]
  have hdisj : Disjoint ((Finset.range s.total_orders).filter fun i =>
      (s.orders i).is_to_considered = false) l.toFinset := by
    rw [Finset.disjoint_left]
    intro i h1 h2
    rw [Finset.mem_filter] at h1
    rw [hopen i (List.mem_toFinset.mp h2)] at h1
    cases h1.2
  unfold closed
  rw [hset, Finset.card_union_of_disjoint hdisj, List.toFinset_card_of_nodup hl]

lemma Counted.customer (hh : House inp tr s) (hd : Next tr s (.customer c)) (h : Counted s)
    (hset : Settled (.customer c) s) : Counted (customer_func c s) := by
  have hids := hh.ids_eq c
  have hT := hh.total_eq
  have hlt : ∀ i ∈ ids inp c, i < s.total_orders := fun i hi => by
    rw [hT]; exact lt_of_mem_ids inp hi
  -- a customer who comes and is turned away
  have haway : ∀ (f : Order → Order) (s' : St inp.N inp.total_customers),
      (s.customers c).arrival_time = s.ticks → (∀ o, core (f o) = core o) →
      (∀ o, (f o).is_to_considered = false) → s'.total_orders = s.total_orders →
      s'.orders = marked f (ids inp c) s.orders →
      s'.orders_considered = s.orders_considered + (ids inp c).length → Counted s' := by
    intro f s' ha hcore hf hT' ho hk
    obtain ⟨-, hnew⟩ := hh.arriving hd ha
    have hcl := closed_marked (s := s) (ids_nodup inp c) hlt
      (fun i hi => by rw [hnew i hi]; rfl) hf hT' ho
    refine ⟨by have := h.counter; omega, fun i h1 h2 => ?_⟩
    by_cases hi : i ∈ ids inp c
    · have hm : s'.orders i = f (s.orders i) := by rw [ho]; exact if_pos hi
      rw [hm, (core_eq (hcore _)).1, hnew i hi] at h1
      exact absurd rfl h1
    · have hm : s'.orders i = s.orders i := by rw [ho]; exact if_neg hi
      rw [hm] at h1 h2 ⊢
      exact h.prepared i h1 h2
  have hbody : Counted (visit c s) := by
    have hv := hh.visited hd
    generalize visit c s = s' at hv ⊢
    cases hv with
    | full ha hk =>
      rw [hids]
      exact haway noSeat _ ha (fun _ => rfl) (fun _ => rfl) rfl rfl rfl
    | short ha hk hp =>
      rw [hids]
      exact haway shortAtPlacement _ ha (fun _ => rfl) (fun _ => rfl) rfl rfl rfl
    | seated ha hk hp =>
      rw [hids]
      refine h.congr rfl rfl (fun i => ?_) fun i =>
        marked_core (f := placed s.ticks) (fun _ => rfl) _ _ i
      by_cases hi : i ∈ ids inp c
      · have hm : marked (placed s.ticks) (ids inp c) s.orders i = placed s.ticks (s.orders i) :=
          if_pos hi
        dsimp only
        rw [hm, (hh.arriving hd ha).2 i hi]
        rfl
      · have hm : marked (placed s.ticks) (ids inp c) s.orders i = s.orders i := if_neg hi
        dsimp only
        rw [hm]
    | withdrawn ha hl hr =>
      have hclosed := hset ha hl hr
      rw [hids] at hclosed ⊢
      refine h.congr rfl rfl (fun i => ?_) fun i => marked_core (withdrawn_core _ _) _ _ i
      change (marked (withdrawn inp.N (no_service c s)) (ids inp c) s.orders i).is_to_considered = _
      unfold marked
      split_ifs with hi
      · rw [hclosed i hi]
        exact (withdrawn_placed _ _ _).2.2
      · rfl
    | served => exact h.congr rfl rfl (fun _ => rfl) fun _ => rfl
    | nothing => exact h
  rw [customer_turn]
  split_ifs
  · exact hbody.congr rfl rfl (fun _ => rfl) fun _ => rfl
  · exact hbody

/-- The counter is the number of closed orders, and it is the number of all orders exactly when
every order is completed or rejected. -/
def Exact (s : St inp.N inp.total_customers) : Prop :=
  s.orders_considered = closed s ∧
    (s.orders_considered = s.total_orders ↔ ∀ i < s.total_orders,
      (s.orders i).is_completed = true ∨ (s.orders i).rejected = true)

lemma use_toppings_enough {j : ℕ} (ts : List ℕ) (q : ℕ → ℤ) (h : (ts.count j : ℤ) ≤ q j) :
    use_toppings ts q j = q j - ts.count j := by
  induction ts generalizing q with
  | nil => simp [use_toppings]
  | cons t ts ih =>
    have hstep : use_toppings (t :: ts) q = use_toppings ts
      (if q t = -1 then q else Function.update q t (q t - 1)) := rfl
    rw [hstep]
    by_cases ht : t = j
    · subst ht
      rw [List.count_cons_self] at h ⊢
      rw [if_neg (by omega), ih, Function.update_self]
      · push_cast; ring
      · rw [Function.update_self]; push_cast at h; omega
    · have hq : (if q t = -1 then q else Function.update q t (q t - 1)) j = q j := by
        split_ifs
        · rfl
        · rw [Function.update_of_ne (Ne.symm ht)]
      rw [List.count_cons_of_ne ht] at h ⊢
      rw [ih _ (by rw [hq]; exact h), hq]

/-- A topping of which there is not enough ends at the value that means unlimited. -/
lemma use_toppings_short {j : ℕ} (ts : List ℕ) (q : ℕ → ℤ) (h0 : -1 ≤ q j)
    (h : q j < (ts.count j : ℤ)) : use_toppings ts q j = -1 := by
  induction ts generalizing q with
  | nil =>
    simp only [List.count_nil] at h
    simp only [use_toppings, List.foldl_nil]
    omega
  | cons t ts ih =>
    have hstep : use_toppings (t :: ts) q = use_toppings ts
      (if q t = -1 then q else Function.update q t (q t - 1)) := rfl
    rw [hstep]
    by_cases ht : t = j
    · subst ht
      rw [List.count_cons_self] at h
      by_cases hq : q t = -1
      · rw [if_pos hq]
        exact ih q h0 (by omega)
      · rw [if_neg hq]
        refine ih _ ?_ ?_
        · rw [Function.update_self]; omega
        · rw [Function.update_self]; push_cast at h; omega
    · have hq : (if q t = -1 then q else Function.update q t (q t - 1)) j = q j := by
        split_ifs
        · rfl
        · rw [Function.update_of_ne (Ne.symm ht)]
      rw [List.count_cons_of_ne ht] at h
      exact ih _ (by rw [hq]; exact h0) (by rw [hq]; exact h)

lemma use_toppings_le (ts : List ℕ) (q : ℕ → ℤ) (j : ℕ) : use_toppings ts q j ≤ q j := by
  induction ts generalizing q with
  | nil => exact le_rfl
  | cons t ts ih =>
    refine (ih (if q t = -1 then q else Function.update q t (q t - 1))).trans ?_
    split_ifs
    · exact le_rfl
    · by_cases ht : j = t
      · subst ht; rw [Function.update_self]; omega
      · rw [Function.update_of_ne ht]

/-- The units of topping `j` in the orders that machines have started on. -/
def used (s : St inp.N inp.total_customers) (j : ℕ) : ℤ :=
  ∑ i ∈ Finset.range s.total_orders,
    if (s.orders i).icecream_machine_id = -1 then 0 else ((s.orders i).icecreams.topping.count j : ℤ)

lemma used_congr (hT : s'.total_orders = s.total_orders)
    (h : ∀ i, core (s'.orders i) = core (s.orders i)) (j : ℕ) : used s' j = used s j := by
  unfold used
  rw [hT]
  refine Finset.sum_congr rfl fun i _ => ?_
  obtain ⟨e1, -, -, e4⟩ := core_eq (h i)
  rw [e1, e4]

/-- No limited topping is oversold, and what is gone is what the started orders use. -/
def InStock (inp : Input) (s : St inp.N inp.total_customers) : Prop :=
  ∀ j < inp.toppings.length, 0 ≤ inp.toppings.getD j 0 → 0 ≤ s.toppings j ∧
    inp.toppings.getD j 0 - s.toppings j = used s j

/-- There is enough for all toppings of an order on which a machine starts. -/
def Enough : Thread inp.N inp.total_customers → St inp.N inp.total_customers → Prop
  | .worker m, s => ∀ i, started m s = some i → s.possible (s.orders i).icecreams.topping = true
  | .customer _, _ => True

lemma possible_iff {ts : List ℕ} : s.possible ts = true ↔
    ∀ j < s.T, s.toppings j = -1 ∨ (ts.count j : ℤ) ≤ s.toppings j := by
  simp [St.possible, List.all_eq_true]

/-- What a machine does to the stock in its turn. -/
lemma toppings_machine (m : Fin inp.N) (s : St inp.N inp.total_customers) :
    (started m s = none ∧ (icecream_machine_func m s).toppings = s.toppings ∧
      ∀ j, used (icecream_machine_func m s) j = used s j) ∨
    ∃ i, started m s = some i ∧
      s.possible ((s.orders i).icecreams.topping.take s.T) = true ∧
      (icecream_machine_func m s).toppings =
        use_toppings (s.orders i).icecreams.topping s.toppings ∧
      ∀ j, used (icecream_machine_func m s) j =
        used s j + (s.orders i).icecreams.topping.count j := by
  have hstop : ∀ s' : St inp.N inp.total_customers, (stop m s').toppings = s'.toppings ∧
      ∀ j, used (stop m s') j = used s' j := fun s' => by
    unfold stop
    split_ifs <;> exact ⟨rfl, fun _ => rfl⟩
  rw [machine_turn]
  simp only [(hstop _).1, (hstop _).2]
  have hw := working m s
  generalize work m s = s' at hw ⊢
  cases hw with
  | nothing hs hf hidle => exact Or.inl ⟨hs, rfl, fun _ => rfl⟩
  | scan h0 h1 hb hs hf =>
    have ht := touches_rejects m (List.range s.total_orders) s
    exact Or.inl ⟨hs, ht.toppings, used_congr (congrArg Shape.total_orders ht.shape)
      (rejects_core m _ s)⟩
  | start i h0 h1 hb hs hf hi hlt =>
    right
    have ht := touches_rejects m (List.range i) s
    have hcore := rejects_core m (List.range i) s
    have hT : (rejects m (List.range i) s).total_orders = s.total_orders :=
      congrArg Shape.total_orders ht.shape
    have hid : (s.orders i).icecream_machine_id = -1 := by
      simp only [startable, Bool.and_eq_true] at hi
      exact (waiting_iff.mp hi.1.1).2.1
    refine ⟨i, hs, ?_, ?_, fun j => ?_⟩
    · simp only [startable, Bool.and_eq_true] at hi
      exact hi.2
    · simp only [start_order, (core_eq (hcore i)).2.2.2, ht.toppings]
    · rw [← used_congr hT hcore j]
      generalize rejects m (List.range i) s = s1 at ht hcore hT ⊢
      obtain ⟨e1, -, -, e4⟩ := core_eq (hcore i)
      have hmem : i ∈ Finset.range s1.total_orders := Finset.mem_range.mpr (by omega)
      unfold used
      have hrest : ∑ k ∈ (Finset.range s1.total_orders).erase i,
          (if ((start_order m i s1).orders k).icecream_machine_id = -1 then (0 : ℤ)
            else (((start_order m i s1).orders k).icecreams.topping.count j : ℤ)) =
          ∑ k ∈ (Finset.range s1.total_orders).erase i,
          (if (s1.orders k).icecream_machine_id = -1 then (0 : ℤ)
            else ((s1.orders k).icecreams.topping.count j : ℤ)) :=
        Finset.sum_congr rfl fun k hk => by
          have hki := Finset.ne_of_mem_erase hk
          simp [start_order, St.setMachine, St.setOrder, Function.update_of_ne hki]
      have hself : (if ((start_order m i s1).orders i).icecream_machine_id = -1 then (0 : ℤ)
            else (((start_order m i s1).orders i).icecreams.topping.count j : ℤ)) =
          (s.orders i).icecreams.topping.count j := by
        have h2 : ((start_order m i s1).orders i).icecream_machine_id = (m : ℕ) + 1 := by
          simp [start_order, St.setMachine, St.setOrder]
        rw [h2, if_neg (by omega), ← e4]
        simp [start_order, St.setMachine, St.setOrder]
      change ∑ k ∈ Finset.range s1.total_orders, _ = _
      rw [← Finset.add_sum_erase _ _ hmem, hrest, hself,
        ← Finset.add_sum_erase (Finset.range s1.total_orders) _ hmem, e1, if_pos hid]
      ring
  | complete i h0 h1 hb ho hs hf =>
    refine Or.inl ⟨hs, rfl, fun j => ?_⟩
    unfold used
    refine Finset.sum_congr rfl fun k _ => ?_
    by_cases hki : k = i
    · subst hki; simp [complete_order, St.setMachine, St.setOrder]
    · simp [complete_order, St.setMachine, St.setOrder, Function.update_of_ne hki]

lemma toppings_customer (hh : House inp tr s) (hd : Next tr s (.customer c)) :
    (customer_func c s).toppings = s.toppings ∧ ∀ j, used (customer_func c s) j = used s j := by
  have hT : (customer_func c s).total_orders = s.total_orders :=
    (hh.customer hd).total_eq.trans hh.total_eq.symm
  refine ⟨?_, used_congr hT (visit_core hh hd)⟩
  have hbody : (visit c s).toppings = s.toppings := by
    have hv := hh.visited hd
    generalize visit c s = s' at hv ⊢
    cases hv <;> rfl
  rw [customer_turn]
  split_ifs
  · exact hbody
  · exact hbody

/-- The stock, and that it only becomes less. -/
structure Stocked (inp : Input) (s : St inp.N inp.total_customers) : Prop where
  inStock : InStock inp s
  le : ∀ j, s.toppings j ≤ inp.toppings.getD j 0

lemma Stocked.congr (h : Stocked inp s) (h1 : s'.toppings = s.toppings)
    (h2 : ∀ j, used s' j = used s j) : Stocked inp s' := by
  refine ⟨fun j hj h0 => ?_, fun j => ?_⟩
  · rw [h1, h2]; exact h.inStock j hj h0
  · rw [h1]; exact h.le j

lemma House.T_eq (h : House inp tr s) : s.T = inp.toppings.length := congrArg Shape.T h.shape

lemma stocked_keep (inp : Input) :
    Keeps (prog inp) pos (round (W := inp.N) inp.customers_pos).length St.ticks Enough
      (fun tr s => House inp tr s ∧ Stocked inp s) := by
  rintro tr s t hd hen ⟨hh, h⟩
  refine ⟨house_keeps inp Enough tr s t hd hen hh, ?_⟩
  cases t with
  | customer c =>
    obtain ⟨h1, h2⟩ := toppings_customer hh hd
    exact h.congr h1 h2
  | worker m =>
    change Stocked inp (icecream_machine_func m s)
    rcases toppings_machine m s with ⟨-, h1, h2⟩ | ⟨i, hs, -, h1, h2⟩
    · exact h.congr h1 h2
    · have hp := possible_iff.mp (hen i hs)
      refine ⟨fun j hj h0 => ?_, fun j => ?_⟩
      · obtain ⟨h3, h4⟩ := h.inStock j hj h0
        have h5 := (hp j (by rw [House.T_eq hh]; exact hj)).resolve_left (by omega)
        rw [h1, h2, use_toppings_enough _ _ h5]
        omega
      · rw [h1]
        exact (use_toppings_le _ _ j).trans (h.le j)

lemma stocked_start (inp : Input) : Stocked inp (start inp) := by
  refine ⟨fun j _ h0 => ⟨h0, ?_⟩, fun j => le_rfl⟩
  have hzero : used (start inp) j = 0 := Finset.sum_eq_zero fun i _ => rfl
  rw [hzero]
  exact sub_self _

lemma enough_of_inStock (hh : House inp tr s) (h : Stocked inp s)
    (hin : InStock inp (icecream_machine_func m s)) : Enough (.worker m) s := by
  intro i hs
  rcases toppings_machine m s with ⟨h0, -⟩ | ⟨k, hk, htake, h1, -⟩
  · rw [h0] at hs
    cases hs
  · obtain rfl : k = i := by simpa [hk] using hs
    rw [possible_iff] at htake ⊢
    intro j hj
    by_contra hno
    rw [not_or, not_le] at hno
    have h2 := (htake j hj).resolve_left hno.1
    have h3 : 0 ≤ s.toppings j := le_trans (Int.natCast_nonneg _) h2
    have h4 := (hin j (by rw [← House.T_eq hh]; exact hj) (h3.trans (h.le j))).1
    rw [h1, use_toppings_short _ _ (by omega) hno.2] at h4
    omega

/-- **When limited toppings are not oversold**: along a run, in every state reached, the quantity of
every topping declared with a quantity of at least `0` is at least `0` and is what the started
orders leave, iff no machine starts on an order for which one of its toppings is short. -/
theorem stock_exact_iff_enough (inp : Input)
    (sched : List (Option (Thread inp.N inp.total_customers))) :
    (∀ l, l <+: sched → InStock inp (exec inp l).shared) ↔
      Along (prog inp) (AtBody Enough) (init (prog inp) (start inp)) sched := by
  refine holds_iff_along (numbered_parlour inp) (ticks_parlour inp) (stocked_keep inp) rfl
    ⟨house_start inp, stocked_start inp⟩ (fun tr s h => h.2.inStock)
    (fun tr s t hd h hin => ?_) sched
  cases t with
  | worker m => exact enough_of_inStock h.1 h.2 hin
  | customer c => trivial

/-- Two machines and three units of the only topping; the second and the third customer each want
two units on one ice cream. -/
def twiceInput : Input where
  machines := [(0, 9), (0, 9)]
  K := 10
  toppings := [3]
  arrivals := [⟨50, [⟨1, []⟩]⟩, ⟨0, [⟨2, [0, 0]⟩]⟩, ⟨0, [⟨2, [0, 0]⟩]⟩]
  machines_pos := by decide
  arrivals_pos := by decide

/-- The second machine finds one unit, checks for one, takes two, and the topping is unlimited from
then on. -/
theorem topping_oversold :
    twiceInput.toppings.getD 0 0 = 3 ∧
    (exec twiceInput (laps twiceInput 1)).shared.toppings 0 = -1 ∧
    used (exec twiceInput (laps twiceInput 1)).shared 0 = 4 := by
  refine ⟨?_, ?_, ?_⟩ <;> decide +kernel

end Xv6.ParlourCounts
