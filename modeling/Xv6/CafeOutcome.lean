import Xv6.CafeLedger

/-!
What becomes of the customers of the cafe.

Customer `0` has its turn after the baristas and all others have theirs before them, so a coffee
that is ready in the tick in which its customer leaves is handed over to customer `0` only. With
as many baristas as customers an order is taken as soon as it may be, and what is wasted can be
read off the input.
-/

namespace Xv6.CafeOutcome

open Xv6.Ring Xv6.Rounds Xv6.Crew Xv6.Cafe Xv6.CafeClose Xv6.CafeLedger Xv6.Turns

variable {inp : Input} {tr : List (Thread inp.B inp.N × St inp.B inp.N)}
  {s s' : St inp.B inp.N} {b : Fin inp.B} {i j : Fin inp.N}

/-! ### Leaving and finishing in one tick -/

/-- A customer leaves before a barista's turn of tick `d` if it leaves in an earlier tick, or in
the same tick unless it is customer `0`. -/
lemma leftBy_iff {d : ℤ} : LeftBy inp s i b d ↔ 0 ≤ leaving (s.customers i) ∧
    (leaving (s.customers i) < d ∨ (leaving (s.customers i) = d ∧ i.val ≠ 0)) := by
  have hi := i.isLt
  have hb := b.isLt
  rw [LeftBy, before_iff (numbered_cafe inp)]
  refine and_congr_right fun _ => or_congr_right (and_congr_right fun _ => ?_)
  simp only [pos]
  split_ifs with h <;> omega

/-- The rule for handing over: an order that was taken, and is closed or past the tick in which it
is ready, was handed over iff it was ready within the patience of its customer. -/
def Fair (s : St inp.B inp.N) (i : Fin inp.N) : Prop :=
  (s.orders i).barista_id ≠ -1 →
    (s.orders i).is_to_be_considered = false ∨ ready (s.orders i) < s.ticks →
    ((s.orders i).is_given_to_customer = true ↔
      ready (s.orders i) ≤ (s.customers i).arrival_time + (s.customers i).tolerance_time)

instance (s : St inp.B inp.N) (i : Fin inp.N) : Decidable (Fair s i) :=
  inferInstanceAs (Decidable (_ → _ → _))

/-- A barista does not take a coffee that takes no time, unless it comes too late anyway; and the
order it finishes is not that of customer `0` in the tick in which customer `0` leaves, nor that
of a customer whose tick to leave was before the opening. -/
def Untied : Thread inp.B inp.N → St inp.B inp.N → Prop
  | .worker b, s =>
    (∀ i, taken b s = some i → 1 ≤ (s.orders i).customer.coffee.time_to_make ∨
      leaving (s.customers i) ≤ s.ticks + (s.orders i).customer.coffee.time_to_make) ∧
    ∀ i, finished b s = some i → 0 ≤ leaving (s.customers i) ∧
      (i.val = 0 → s.ticks ≠ leaving (s.customers i))
  | .customer _, _ => True

instance (t : Thread inp.B inp.N) (s : St inp.B inp.N) : Decidable (Untied t s) :=
  match t with
  | .worker _ => inferInstanceAs (Decidable (_ ∧ _))
  | .customer _ => isTrue trivial

/-- What the condition leaves of the orders. -/
structure Apart (s : St inp.B inp.N) (i : Fin inp.N) : Prop where
  time : (s.orders i).barista_id ≠ -1 → 1 ≤ (s.orders i).customer.coffee.time_to_make ∨
    leaving (s.customers i) ≤ ready (s.orders i)
  done : (s.orders i).is_completed = true → 0 ≤ leaving (s.customers i) ∧
    (i.val = 0 → ready (s.orders i) ≠ leaving (s.customers i))

lemma Apart.worker (h : Ledger inp tr s) (ha : ∀ i, Apart s i) (hu : Untied (.worker b) s)
    (i : Fin inp.N) : Apart (barista_func b s) i := by
  have hserv := serving h.hands b
  generalize barista_func b s = s' at hserv ⊢
  cases hserv with
  | nothing ht hf => exact ha i
  | take j hj hw hb =>
    by_cases hij : i = j
    · subst hij
      refine ⟨fun _ => ?_, fun hc => ?_⟩
      · simpa [St.setOrder, St.setBarista, ready] using hu.1 i hj
      · simp only [St.setOrder, St.setBarista, Function.update_self] at hc
        rcases h.entry i with h1 | ⟨b', h1⟩
        · rw [h1.completed] at hc
          cases hc
        · have h2 := h1.id
          simp only [St.waiting, Bool.and_eq_true, beq_iff_eq] at hw
          omega
    · refine ⟨?_, ?_⟩
      · simpa [St.setOrder, St.setBarista, Function.update_of_ne hij] using (ha i).time
      · simpa [St.setOrder, St.setBarista, Function.update_of_ne hij] using (ha i).done
  | finish j ht hf hb ho =>
    have hcus := finish_customers b j s
    by_cases hij : i = j
    · subst hij
      obtain ⟨h1, h2, h3⟩ := finish_same b i s i
      have hr := finished_ready hf
      refine ⟨fun hn => ?_, fun _ => ?_⟩
      · rw [h3] at hn
        simpa only [ready, h1, h2, hcus] using (ha i).time hn
      · have h4 := hu.2 i hf
        unfold ready at hr ⊢
        rw [h1, h2, hcus, hr]
        exact h4
    · refine ⟨?_, ?_⟩
      · rw [finish_orders b s hij, hcus]; exact (ha i).time
      · rw [finish_orders b s hij, hcus]; exact (ha i).done

lemma Apart.customer (ha : ∀ i, Apart s i) (hv : Visit j s s') (i : Fin inp.N) : Apart s' i := by
  by_cases hij : i = j
  · subst hij
    refine ⟨?_, ?_⟩
    · simpa only [ready, hv.barista_id, hv.coffee, hv.customers, hv.is_taken_up] using (ha i).time
    · simpa only [ready, hv.is_completed, hv.coffee, hv.customers, hv.is_taken_up] using (ha i).done
  · refine ⟨?_, ?_⟩
    · rw [hv.others i hij, hv.customers]; exact (ha i).time
    · rw [hv.others i hij, hv.customers]; exact (ha i).done

lemma apart_keeps (inp : Input) :
    Keeps (prog inp) pos (round (W := inp.B) inp.N_pos).length St.ticks Untied
      (fun tr s => Ledger inp tr s ∧ ∀ i, Apart s i) := by
  rintro tr s t hd hu ⟨h, ha⟩
  refine ⟨ledger_keeps inp Untied tr s t hd hu h, ?_⟩
  cases t with
  | worker b => exact Apart.worker h ha hu
  | customer j => exact Apart.customer ha (visit j s)

/-- An order that was taken and is not completed: if it takes time, it is not past the tick in
which it is ready. -/
lemma not_past (h : Taken tr s i b) (hnow : s.ticks =
      (tr.length / (round (W := inp.B) inp.N_pos).length : ℕ))
    (hc : (s.orders i).is_completed = false)
    (h1 : 1 ≤ (s.orders i).customer.coffee.time_to_make) : s.ticks ≤ ready (s.orders i) := by
  by_contra hlt
  have h2 := h.since.1
  have h3 : Had inp tr (.worker b) (ready (s.orders i)) :=
    turned_past (numbered_cafe inp) hnow (by unfold ready; omega) (by omega)
  rw [h.completed.mpr ⟨h1, h3⟩] at hc
  cases hc

/-- **The same rule for every customer**: in every run in which no order of customer `0` is finished
in the very tick in which customer `0` leaves, none of a customer whose tick to leave was before
the opening, and no coffee that takes no time is taken in time, the orders taken are handed over
iff they are ready within the patience of their customers. -/
theorem fair_when_untied (inp : Input) (sched : List (Option (Thread inp.B inp.N)))
    (h : Along (prog inp) (AtBody Untied) (init (prog inp) (start inp)) sched) :
    ∀ i, Fair (exec inp sched).shared i := by
  intro i
  have hk := holds_along (numbered_cafe inp) (ticks_cafe inp) (apart_keeps inp) rfl
    ⟨ledger_start inp, fun i => ⟨fun hc => by simp [start, newOrder] at hc,
      fun hc => by simp [start, newOrder] at hc⟩⟩ h
  obtain ⟨hl, ha⟩ := hk.holds
  have hnow := hk.clocked.now
  rw [Int.zero_add] at hnow
  change Fair (run (prog inp) (init (prog inp) (start inp)) sched).shared i
  generalize (run (prog inp) (init (prog inp) (start inp)) sched) = σ at hl ha hnow ⊢
  intro hb hover
  have hap := ha i
  obtain ⟨b, ht⟩ := (hl.entry i).resolve_left fun hn => hb hn.id
  have hleave : leaving (σ.shared.customers i) = (σ.shared.customers i).arrival_time +
    (σ.shared.customers i).tolerance_time + 1 := rfl
  by_cases hc : (σ.shared.orders i).is_completed = true
  · obtain ⟨h0, h1⟩ := hap.done hc
    rw [ht.given, leftBy_iff]
    constructor
    · rintro ⟨-, h2⟩
      by_contra h3
      refine h2 ⟨h0, ?_⟩
      by_cases hi : i.val = 0
      · have h4 := h1 hi
        exact Or.inl (by omega)
      · omega
    · intro h2
      refine ⟨hc, fun h3 => ?_⟩
      omega
  · have hc' : (σ.shared.orders i).is_completed = false := by simpa using hc
    have hpast : ready (σ.shared.orders i) < σ.shared.ticks :=
      hover.resolve_left fun hf => hc (ht.completed_of_closed hf)
    have hzero : ¬ 1 ≤ (σ.shared.orders i).customer.coffee.time_to_make := fun h1 => by
      have h2 := not_past ht hnow hc' h1
      omega
    have hlate := (hap.time hb).resolve_left hzero
    rw [ht.given]
    constructor
    · exact fun hg => absurd hg.1 hc
    · intro h1; omega

/-- Two baristas, and two customers who come at the opening with the given patience and order the
coffee that takes two ticks. -/
def twoInput (patience : ℤ) : Input where
  B := 2
  menu := [⟨"Espresso", 2⟩]
  arrivals := [⟨"Espresso", 0, patience⟩, ⟨"Espresso", 0, patience⟩]
  B_pos := Nat.zero_lt_two
  arrivals_pos := by simp

def first (patience : ℤ) : Fin (twoInput patience).N := ⟨0, (twoInput patience).N_pos⟩

def second (patience : ℤ) : Fin (twoInput patience).N := ⟨1, by simp [Input.N, twoInput]⟩

/-- A round, in which every thread passes through its whole loop. -/
def lap (patience : ℤ) : List (Option (Thread (twoInput patience).B (twoInput patience).N)) :=
  List.replicate 6 (some (.customer (second patience))) ++
    List.replicate 6 (some (.worker ⟨0, (twoInput patience).B_pos⟩)) ++
    List.replicate 6 (some (.worker ⟨1, Nat.one_lt_two⟩)) ++
    List.replicate 6 (some (.customer (first patience)))

def fourLaps (patience : ℤ) :
    List (Option (Thread (twoInput patience).B (twoInput patience).N)) :=
  none :: (lap patience ++ lap patience ++ lap patience ++ lap patience)

/-- With patience for three ticks both are served by the rule. -/
theorem fair_when_untied_patient :
    Along (prog (twoInput 3)) (AtBody Untied) (init (prog (twoInput 3)) (start (twoInput 3)))
      (fourLaps 3) ∧
    ((exec (twoInput 3) (fourLaps 3)).shared.orders (first 3)).is_given_to_customer = true ∧
    Fair (exec (twoInput 3) (fourLaps 3)).shared (first 3) := by
  have h : Along (prog (twoInput 3)) (AtBody Untied) (init (prog (twoInput 3))
      (start (twoInput 3))) (fourLaps 3) := by decide +kernel
  have hg : ((exec (twoInput 3) (fourLaps 3)).shared.orders (first 3)).is_given_to_customer =
      true := by decide +kernel
  exact ⟨h, hg, fair_when_untied (twoInput 3) (fourLaps 3) h (first 3)⟩

/-- With patience for two, customer `0` is handed a coffee that is ready one tick after that, and
customer `1`, whose coffee was taken in the same tick, is not. -/
theorem tie_favours_customer0 :
    ¬ Fair (exec (twoInput 2) (fourLaps 2)).shared (first 2) ∧
    ((exec (twoInput 2) (fourLaps 2)).shared.orders (first 2)).is_given_to_customer = true ∧
    ((exec (twoInput 2) (fourLaps 2)).shared.orders (second 2)).is_given_to_customer = false ∧
    ((exec (twoInput 2) (fourLaps 2)).shared.orders (first 2)).is_taken_up =
      ((exec (twoInput 2) (fourLaps 2)).shared.orders (second 2)).is_taken_up ∧
    ((exec (twoInput 2) (fourLaps 2)).shared.orders (second 2)).is_completed = true := by
  refine ⟨?_, ?_, ?_, ?_, ?_⟩ <;> decide +kernel

/-! ### As many baristas as customers -/

/-- The tick in which an order may be taken first. -/
def earliest (c : Customer) : ℤ := max (c.arrival_time + 1) 0

/-- No order waits past the tick in which it may be taken first: a barista that has had its turn in
this tick while an order still waits has an order of its own, and there are not fewer baristas than
orders. -/
structure Prompt (inp : Input) (tr : List (Thread inp.B inp.N × St inp.B inp.N))
    (s : St inp.B inp.N) : Prop where
  open_ : ∀ i, (s.orders i).barista_id = -1 → (s.orders i).is_to_be_considered = true →
    s.ticks ≤ earliest (s.customers i)
  staffed : ∀ b i, Had inp tr (.worker b) s.ticks → s.waiting i = true →
    ∃ j, (s.orders j).barista_id = (b : ℕ)
  since : ∀ i, (s.orders i).barista_id ≠ -1 →
    (s.orders i).is_taken_up = earliest (s.customers i)
  left : ∀ i, (s.orders i).barista_id = -1 → (s.orders i).is_to_be_considered = false →
    leaving (s.customers i) ≤ earliest (s.customers i) ∧
      (i.val = 0 → leaving (s.customers i) ≤ (s.customers i).arrival_time)

lemma prompt_start (inp : Input) : Prompt inp [] (start inp) := by
  refine ⟨fun i _ _ => ?_, fun b i h => absurd h not_turned_zero, fun i h => ?_, fun i _ h => ?_⟩
  · simp [start, earliest]
  · simp [start, newOrder] at h
  · simp [start, newOrder] at h

lemma not_all_busy (hBN : inp.N ≤ inp.B) (hi : (s.orders i).barista_id = -1) :
    ¬ ∀ b : Fin inp.B, ∃ j, (s.orders j).barista_id = (b : ℕ) := by
  intro hall
  choose f hf using hall
  have hinj : Function.Injective f := by
    intro b c hbc
    have h1 := hf b
    rw [hbc, hf c] at h1
    exact Fin.ext (by exact_mod_cast h1.symm)
  have hsurj : Function.Surjective f :=
    (Fintype.bijective_iff_injective_and_card f).mpr ⟨hinj, by
      have h1 := Fintype.card_le_of_injective f hinj
      simp only [Fintype.card_fin] at h1 ⊢
      omega⟩ |>.2
  obtain ⟨b, hb⟩ := hsurj i
  have h1 := hf b
  rw [hb, hi] at h1
  omega

lemma waiting_iff : s.waiting i = true ↔ (s.orders i).is_to_be_considered = true ∧
    (s.orders i).barista_id = -1 ∧ (s.orders i).customer.arrival_time + 1 ≤ s.ticks := by
  simp [St.waiting, and_assoc]

lemma Prompt.none_waiting (hBN : inp.N ≤ inp.B) (h : Prompt inp tr s) (hj : j.val = 0)
    (hd : Next tr s (.customer j)) : s.waiting i = false := by
  by_contra hw
  have hw' : s.waiting i = true := by simpa using hw
  refine not_all_busy hBN (waiting_iff.mp hw').2.1 fun b => h.staffed b i ?_ hw'
  have hb := b.isLt
  rw [Had, hd.turned_iff (numbered_cafe inp)]
  refine ⟨hd.nonneg, Or.inr ⟨rfl, ?_⟩⟩
  simp only [pos, hj, if_true]
  omega

lemma Prompt.worker (hl : Ledger inp tr s) (h : Prompt inp tr s) (hd : Next tr s (.worker b)) :
    Prompt inp (tr ++ [(Thread.worker b, s)]) (barista_func b s) := by
  have hticks := ticks_barista_func b s
  have hserv := serving hl.hands b
  generalize barista_func b s = s' at hserv hticks ⊢
  cases hserv with
  | nothing ht hf =>
    refine ⟨h.open_, fun c i hc hw => ?_, h.since, h.left⟩
    rcases (had_succ hd).mp hc with h1 | ⟨h1, -⟩
    · exact h.staffed c i h1 hw
    · obtain rfl : c = b := by simpa using h1
      -- had it been free it would have taken the order
      have hb : (s.baristas c).is_free = false := by
        by_contra hb
        have hb' : (s.baristas c).is_free = true := by simpa using hb
        simp only [taken, hb', if_true] at ht
        exact List.find?_eq_none.mp ht i (List.mem_finRange i) hw
      obtain ⟨j, -, hid, -⟩ := hl.hands.busy c hb
      exact ⟨j, hid⟩
  | take j hj hw hb =>
    obtain ⟨hcons, hid, harr⟩ := waiting_iff.mp hw
    have hself : ((s.setOrder j { s.orders j with
        barista_id := b, is_taken_up := s.ticks }).setBarista b
          { s.baristas b with order := some j, is_free := false }).orders j =
        { s.orders j with barista_id := b, is_taken_up := s.ticks } := by
      simp [St.setOrder, St.setBarista]
    have hoth : ∀ i, i ≠ j → ((s.setOrder j { s.orders j with
        barista_id := b, is_taken_up := s.ticks }).setBarista b
          { s.baristas b with order := some j, is_free := false }).orders i = s.orders i :=
      fun i hi => by simp [St.setOrder, St.setBarista, Function.update_of_ne hi]
    have hne : ∀ i, (((s.setOrder j { s.orders j with
        barista_id := b, is_taken_up := s.ticks }).setBarista b
          { s.baristas b with order := some j, is_free := false }).orders i).barista_id = -1 →
        i ≠ j := by
      rintro i hi rfl
      rw [hself] at hi
      dsimp only at hi
      omega
    refine ⟨fun i hi hc => ?_, fun c i hc hwi => ?_, fun i hi => ?_, fun i hi hc => ?_⟩
    · have hij := hne i hi
      rw [hoth i hij] at hi hc
      exact h.open_ i hi hc
    · by_cases hcb : c = b
      · subst hcb
        exact ⟨j, by rw [hself]⟩
      · have hij := hne i (waiting_iff.mp hwi).2.1
        have hwi' : s.waiting i = true := by
          rw [waiting_iff, hoth i hij] at hwi
          exact waiting_iff.mpr hwi
        have hc' : Had inp tr (.worker c) s.ticks := (had_other hd (by simpa using hcb)).mp hc
        obtain ⟨k, hk⟩ := h.staffed c i hc' hwi'
        refine ⟨k, ?_⟩
        rw [hoth k]
        · exact hk
        · rintro rfl
          omega
    · by_cases hij : i = j
      · subst hij
        rw [hself]
        have h1 := h.open_ i hid hcons
        have h2 := hd.nonneg
        rw [hl.arrivals i] at harr
        change s.ticks = earliest (s.customers i)
        unfold earliest at h1 ⊢
        omega
      · rw [hoth i hij] at hi ⊢
        exact h.since i hi
    · have hij := hne i hi
      rw [hoth i hij] at hi hc
      exact h.left i hi hc
  | finish j ht hf hb ho =>
    have hid := (hl.holds hb ho).1.id
    have hcus := finish_customers b j s
    have hne : ∀ i, ((finish_order b j s).orders i).barista_id = -1 → i ≠ j := by
      rintro i hi rfl
      rw [(finish_same b i s i).2.2] at hi
      omega
    refine ⟨fun i hi hc => ?_, fun c i hc hwi => ?_, fun i hi => ?_, fun i hi hc => ?_⟩
    · have hij := hne i hi
      rw [finish_orders b s hij] at hi hc
      rw [hticks, hcus]
      exact h.open_ i hi hc
    · have hij := hne i (waiting_iff.mp hwi).2.1
      have hwi' : s.waiting i = true := by
        rw [waiting_iff, finish_orders b s hij, hticks] at hwi
        exact waiting_iff.mpr hwi
      rw [hticks, had_succ hd] at hc
      rcases hc with h1 | ⟨h1, -⟩
      · obtain ⟨k, hk⟩ := h.staffed c i h1 hwi'
        exact ⟨k, (finish_same b j s k).2.2.trans hk⟩
      · obtain rfl : c = b := by simpa using h1
        exact ⟨j, (finish_same c j s j).2.2.trans hid⟩
    · obtain ⟨-, h2, h3⟩ := finish_same b j s i
      rw [h3] at hi
      rw [h2, hcus]
      exact h.since i hi
    · have hij := hne i hi
      rw [finish_orders b s hij] at hi hc
      rw [hcus]
      exact h.left i hi hc

lemma Prompt.customer (hBN : inp.N ≤ inp.B) (hl : Ledger inp tr s) (h : Prompt inp tr s)
    (hd : Next tr s (.customer j)) :
    Prompt inp (tr ++ [(Thread.customer j, s)]) (customer_func j s) := by
  have hv := visit j s
  have hticks := ticks_customer_func j s
  generalize customer_func j s = s' at hv hticks ⊢
  have hid : ∀ i, (s'.orders i).barista_id = (s.orders i).barista_id := fun i => by
    by_cases hij : i = j
    · subst hij; exact hv.barista_id
    · rw [hv.others i hij]
  have htaken : ∀ i, (s'.orders i).is_taken_up = (s.orders i).is_taken_up := fun i => by
    by_cases hij : i = j
    · subst hij; exact hv.is_taken_up
    · rw [hv.others i hij]
  have harr : ∀ i, (s'.orders i).customer.arrival_time = (s.orders i).customer.arrival_time :=
    fun i => by
      by_cases hij : i = j
      · subst hij; exact hv.arrival_time
      · rw [hv.others i hij]
  have hcons : ∀ i, (s'.orders i).is_to_be_considered = true →
      (s.orders i).is_to_be_considered = true := fun i hc => by
    by_cases hij : i = j
    · subst hij
      rw [hv.considered, Bool.and_eq_true] at hc
      exact hc.1
    · rwa [hv.others i hij] at hc
  refine ⟨fun i hi hc => ?_, fun b i hb hw => ?_, fun i hi => ?_, fun i hi hc => ?_⟩
  · rw [hid] at hi
    have h1 := h.open_ i hi (hcons i hc)
    rw [hticks, hv.customers]
    split_ifs with hj
    · -- nobody waits any more, so the order may not be taken before the next tick
      have h2 := h.none_waiting (i := i) hBN hj hd
      have h3 : ¬ ((s.orders i).customer.arrival_time + 1 ≤ s.ticks) := fun hc' => by
        rw [waiting_iff.mpr ⟨hcons i hc, hi, hc'⟩] at h2
        cases h2
      rw [hl.arrivals i] at h3
      unfold earliest
      omega
    · simpa using h1
  · rw [hticks] at hb
    split_ifs at hb with hj
    · rw [had_other hd (by simp), Had, hd.turned_iff (numbered_cafe inp)] at hb
      omega
    · rw [add_zero, had_other hd (by simp)] at hb
      have hw' : s.waiting i = true := by
        rw [waiting_iff, hid, harr, hticks, if_neg hj, add_zero] at hw
        exact waiting_iff.mpr ⟨hcons i hw.1, hw.2⟩
      obtain ⟨k, hk⟩ := h.staffed b i hb hw'
      exact ⟨k, (hid k).trans hk⟩
  · rw [hid] at hi
    rw [htaken, hv.customers]
    exact h.since i hi
  · rw [hid] at hi
    rw [hv.customers]
    by_cases hij : i = j
    · subst hij
      cases hc0 : (s.orders i).is_to_be_considered with
      | false => exact h.left i hi hc0
      | true =>
        have hleave : s.ticks = leaving (s.customers i) := by
          rw [hv.considered, hc0, Bool.true_and, Bool.not_eq_false', Bool.and_eq_true,
            Bool.and_eq_true, decide_eq_true_eq] at hc
          exact hc.1.1
        refine ⟨hleave ▸ h.open_ i hi hc0, fun h0 => ?_⟩
        have h2 := h.none_waiting (i := i) hBN h0 hd
        have h3 : ¬ ((s.orders i).customer.arrival_time + 1 ≤ s.ticks) := fun hc' => by
          rw [waiting_iff.mpr ⟨hc0, hi, hc'⟩] at h2
          cases h2
        rw [hl.arrivals i] at h3
        omega
    · rw [hv.others i hij] at hc
      exact h.left i hi hc

lemma prompt_exec (inp : Input) (hBN : inp.N ≤ inp.B)
    (sched : List (Option (Thread inp.B inp.N))) :
    Ledger inp (exec inp sched).trace (exec inp sched).shared ∧
      Prompt inp (exec inp sched).trace (exec inp sched).shared := by
  have hkeep : Keeps (prog inp) pos (round (W := inp.B) inp.N_pos).length St.ticks
      (fun _ _ => True) (fun tr s => Ledger inp tr s ∧ Prompt inp tr s) := by
    rintro tr s t hd - ⟨hl, h⟩
    refine ⟨ledger_keeps inp (fun _ _ => True) tr s t hd trivial hl, ?_⟩
    cases t with
    | worker b => exact Prompt.worker hl h hd
    | customer j => exact Prompt.customer hBN hl h hd
  exact (holds (numbered_cafe inp) (ticks_cafe inp) hkeep rfl
    ⟨ledger_start inp, prompt_start inp⟩ sched).holds

/-- What an order adds to `sum_time_wait`. -/
def time_wait (o : Order) : ℤ :=
  if o.is_taken_up ≠ -1 then o.is_taken_up - o.customer.arrival_time
  else o.customer.departure_time - o.customer.arrival_time

/-- The sum whose quotient by `N` is printed as the average waiting time. -/
def sum_time_wait {B N : ℕ} (s : St B N) : ℤ := ∑ i, time_wait (s.orders i)

/-- **Everybody waits one tick**: with as many baristas as customers and no negative times, in every
state of every run in which all orders are closed each order adds `1` to the sum of the waiting
times, and the sum is `N`. -/
theorem waits_one_tick (inp : Input) (hBN : inp.N ≤ inp.B)
    (hin : ∀ a ∈ inp.arrivals, 0 ≤ a.arrival_time ∧ 0 ≤ a.tolerance_time)
    (sched : List (Option (Thread inp.B inp.N)))
    (hend : (exec inp sched).shared.is_to_be_considered_counter = inp.N) :
    (∀ i, time_wait ((exec inp sched).shared.orders i) = 1) ∧
      sum_time_wait (exec inp sched).shared = inp.N := by
  obtain ⟨hl, hp⟩ := prompt_exec inp hBN sched
  generalize exec inp sched = σ at hend hl hp ⊢
  have hone : ∀ i, time_wait (σ.shared.orders i) = 1 := by
    intro i
    have hcus : σ.shared.customers i = newCustomer inp.menu i (inp.arrivals.get i) := by
      rw [hl.accounts.customers]; rfl
    obtain ⟨harr, htol⟩ := hin _ (List.get_mem inp.arrivals i)
    have h1 : 0 ≤ (σ.shared.customers i).arrival_time := by rw [hcus]; exact harr
    have h2 : 0 ≤ (σ.shared.customers i).tolerance_time := by rw [hcus]; exact htol
    have hsame := hl.arrivals i
    rcases hl.entry i with ht | ⟨b, ht⟩
    · have hclosed := hl.closed hend i
      have hleft := (hp.left i ht.id hclosed).1
      have hhad : Had inp σ.trace (.customer i) (leaving (σ.shared.customers i)) := by
        by_contra hn
        have h3 := ht.considered.mpr hn
        rw [hclosed] at h3
        cases h3
      have hdep := ht.departed hhad
      rw [time_wait, if_neg (by rw [ht.since]; simp), hdep, hsame]
      unfold leaving at hleft ⊢
      unfold earliest at hleft
      omega
    · have hb : (σ.shared.orders i).barista_id ≠ -1 := by
        rw [ht.id]; omega
      have hsince := hp.since i hb
      unfold earliest at hsince
      rw [time_wait, if_pos (by omega), hsince, hsame]
      omega
  refine ⟨hone, ?_⟩
  rw [sum_time_wait, Finset.sum_congr rfl fun i _ => hone i]
  simp

/-- Both customers of the example wait one tick. -/
theorem waits_one_tick_two :
    (exec (twoInput 3) (fourLaps 3)).shared.is_to_be_considered_counter = (twoInput 3).N ∧
      sum_time_wait (exec (twoInput 3) (fourLaps 3)).shared = 2 := by
  have hend : (exec (twoInput 3) (fourLaps 3)).shared.is_to_be_considered_counter =
      (twoInput 3).N := by decide +kernel
  exact ⟨hend, (waits_one_tick (twoInput 3) (by decide) (by simp [twoInput]) (fourLaps 3) hend).2⟩

lemma no_waste_iff (h : Ledger inp tr s) : coffee_wasted s = 0 ↔
    ∀ i, (s.orders i).is_completed = true → (s.orders i).is_given_to_customer = true := by
  have hw := h.wasted
  have hsub : (Finset.univ.filter fun i => (s.orders i).is_given_to_customer = true) ⊆
      Finset.univ.filter fun i => (s.orders i).is_completed = true := by
    intro i hi
    simp only [Finset.mem_filter, Finset.mem_univ, true_and] at hi ⊢
    rcases h.entry i with h1 | ⟨b, h1⟩
    · rw [h1.given] at hi
      cases hi
    · exact (h1.given.mp hi).1
  constructor
  · intro h0 i hi
    have heq := Finset.eq_of_subset_of_card_le hsub (by unfold tally at hw; omega)
    have hmem : i ∈ Finset.univ.filter fun i => (s.orders i).is_completed = true := by simpa using hi
    rw [← heq] at hmem
    simpa using hmem
  · intro hall
    have hle : tally Order.is_completed s.orders ≤ tally Order.is_given_to_customer s.orders := by
      refine Finset.card_le_card fun i hi => ?_
      simp only [Finset.mem_filter, Finset.mem_univ, true_and] at hi ⊢
      exact hall i hi
    omega

/-- The customer's coffee, taken as soon as it may be, is ready before the customer leaves; customer
`0` still gets it in the tick in which it leaves. A customer whose tick to leave is before the
opening stays, and one who leaves in the very first turn has nothing prepared. -/
def Patient (i : ℕ) (c : Customer) : Prop :=
  if i = 0 then leaving c < 0 ∨ earliest c + c.coffee.time_to_make ≤ leaving c
  else leaving c ≤ 0 ∨ earliest c + c.coffee.time_to_make < leaving c

instance (i : ℕ) (c : Customer) : Decidable (Patient i c) :=
  inferInstanceAs (Decidable (if i = 0 then
    leaving c < 0 ∨ earliest c + c.coffee.time_to_make ≤ leaving c
    else leaving c ≤ 0 ∨ earliest c + c.coffee.time_to_make < leaving c))

/-- **When no coffee is wasted**: with as many baristas as customers, coffees that take time and
customers whose patience covers the preparation, in every state of every run in which all orders are
closed nothing was wasted iff every customer is patient; for arrivals from the opening on this
asks of all customers but `0` one tick more than the preparation time. -/
theorem no_waste_iff_patient (inp : Input) (hBN : inp.N ≤ inp.B)
    (hmake : ∀ i, 1 ≤ ((start inp).customers i).coffee.time_to_make)
    (htol : ∀ i, ((start inp).customers i).coffee.time_to_make ≤
      ((start inp).customers i).tolerance_time)
    (sched : List (Option (Thread inp.B inp.N)))
    (hend : (exec inp sched).shared.is_to_be_considered_counter = inp.N) :
    coffee_wasted (exec inp sched).shared = 0 ↔
      ∀ i : Fin inp.N, Patient i ((start inp).customers i) := by
  obtain ⟨hl, hp⟩ := prompt_exec inp hBN sched
  generalize exec inp sched = σ at hend hl hp ⊢
  rw [no_waste_iff hl]
  refine forall_congr' fun i => ?_
  have h1 := hmake i
  have h2 := htol i
  rw [← hl.accounts.customers] at h1 h2 ⊢
  have hcoffee := hl.coffees i
  have hleave : leaving (σ.shared.customers i) = (σ.shared.customers i).arrival_time +
    (σ.shared.customers i).tolerance_time + 1 := rfl
  have hclosed := hl.closed hend i
  rcases hl.entry i with ht | ⟨b, ht⟩
  · -- the customer left in the first turn of the run
    have hhad : Had inp σ.trace (.customer i) (leaving (σ.shared.customers i)) := by
      by_contra hn
      have h3 := ht.considered.mpr hn
      rw [hclosed] at h3
      cases h3
    have h0 := hhad.1
    obtain ⟨h3, h4⟩ := hp.left i ht.id hclosed
    unfold earliest at h3
    have hpat : Patient i (σ.shared.customers i) := by
      unfold Patient
      split_ifs with hi
      · have h5 := h4 hi
        omega
      · left; omega
    simp [ht.completed, hpat]
  · have hb : (σ.shared.orders i).barista_id ≠ -1 := by
      rw [ht.id]; omega
    have hsince := hp.since i hb
    have hstay := ht.stayed
    rw [leftBy_iff, hsince] at hstay
    rw [imp_iff_right (ht.completed_of_closed hclosed), ht.given,
      and_iff_right (ht.completed_of_closed hclosed), leftBy_iff, ready, hsince, hcoffee]
    unfold Patient
    unfold earliest at hstay ⊢
    split_ifs with hi <;> omega

/-- With patience for three ticks nothing is wasted. -/
theorem no_waste_three :
    (exec (twoInput 3) (fourLaps 3)).shared.is_to_be_considered_counter = (twoInput 3).N ∧
      coffee_wasted (exec (twoInput 3) (fourLaps 3)).shared = 0 := by
  have hend : (exec (twoInput 3) (fourLaps 3)).shared.is_to_be_considered_counter =
      (twoInput 3).N := by decide +kernel
  refine ⟨hend, (no_waste_iff_patient (twoInput 3) (by decide) ?_ ?_ (fourLaps 3) hend).mpr ?_⟩
  · decide
  · decide
  · decide

/-- With patience for exactly the two ticks that the coffee takes, that of customer `1` is wasted. -/
theorem waste_at_equal_patience :
    (twoInput 2).N ≤ (twoInput 2).B ∧
    (∀ i, 1 ≤ ((start (twoInput 2)).customers i).coffee.time_to_make) ∧
    (∀ i, ((start (twoInput 2)).customers i).coffee.time_to_make ≤
      ((start (twoInput 2)).customers i).tolerance_time) ∧
    (exec (twoInput 2) (fourLaps 2)).shared.is_to_be_considered_counter = (twoInput 2).N ∧
    coffee_wasted (exec (twoInput 2) (fourLaps 2)).shared = 1 := by
  refine ⟨by decide, by decide, by decide, ?_, ?_⟩ <;> decide +kernel

end Xv6.CafeOutcome
