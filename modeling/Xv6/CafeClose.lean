import Xv6.Turns

/-!
Closing time in the cafe.

The counter of settled orders counts them exactly, so once it has reached `N` it stays there and
no thread goes round again. A thread that leaves does not post its semaphore: a thread already
blocked behind it stays blocked for ever. That is the only way to be stranded.
-/

namespace Xv6.CafeClose

open Xv6.Ring Xv6.Crew Xv6.Cafe Xv6.Turns

variable {B N : ℕ}

/-! ### The counter -/

/-- The number of orders that are settled. -/
def settled (orders : Fin N → Order) : ℕ :=
  (Finset.univ.filter fun i => (orders i).is_to_be_considered = false).card

lemma settled_le (orders : Fin N → Order) : settled orders ≤ N :=
  (Finset.card_le_univ _).trans_eq (Fintype.card_fin N)

lemma settled_keep {orders : Fin N → Order} {i : Fin N} {o : Order}
    (h : o.is_to_be_considered = (orders i).is_to_be_considered) :
    settled (Function.update orders i o) = settled orders := by
  unfold settled
  congr 1
  ext j
  by_cases hj : j = i
  · subst hj; simp [h]
  · simp [Function.update_of_ne hj]

lemma settled_settle {orders : Fin N → Order} {i : Fin N} {o : Order}
    (h : (orders i).is_to_be_considered = true) (ho : o.is_to_be_considered = false) :
    settled (Function.update orders i o) = settled orders + 1 := by
  unfold settled
  rw [← Finset.card_insert_of_notMem (a := i) (by simp [h])]
  congr 1
  ext j
  by_cases hj : j = i
  · subst hj; simp [ho]
  · simp [hj]

/-- The counter is exact; an order that was given up untouched was given up in the customer's turn
at the end of its patience; a completed order is settled; a busy barista has an order of its own
that is not. -/
structure Accounts (inp : Input) (tr : List (Thread inp.B inp.N × St inp.B inp.N))
    (s : St inp.B inp.N) : Prop where
  customers : s.customers = (start inp).customers
  counter : s.is_to_be_considered_counter = settled s.orders
  left : ∀ i, (s.orders i).is_to_be_considered = false → (s.orders i).barista_id = -1 →
    ∃ e ∈ tr, e.1 = .customer i ∧
      e.2.ticks = (s.customers i).arrival_time + (s.customers i).tolerance_time + 1
  done : ∀ i, (s.orders i).is_completed = true → (s.orders i).is_to_be_considered = false
  busy : ∀ b, (s.baristas b).is_free = false → ∃ i, (s.baristas b).order = some i ∧
    (s.orders i).barista_id = (b : ℕ) ∧ (s.orders i).is_to_be_considered = true

variable {inp : Input} {tr : List (Thread inp.B inp.N × St inp.B inp.N)} {s : St inp.B inp.N}
  {b : Fin inp.B} {i : Fin inp.N} {o : Order}

lemma accounts_start (inp : Input) : Accounts inp [] (start inp) := by
  refine ⟨rfl, ?_, fun i h => ?_, fun i h => ?_, fun b h => ?_⟩
  · simp [start, settled, newOrder]
  · simp [start, newOrder] at h
  · simp [start, newOrder] at h
  · simp [start] at h

lemma Accounts.mono (h : Accounts inp tr s) (e : Thread inp.B inp.N × St inp.B inp.N) :
    Accounts inp (tr ++ [e]) s := by
  refine ⟨h.customers, h.counter, fun i h1 h2 => ?_, h.done, h.busy⟩
  obtain ⟨e', he, h3⟩ := h.left i h1 h2
  exact ⟨e', List.mem_append_left _ he, h3⟩

lemma Accounts.apart (h : Accounts inp tr s) {c : ℤ} (hc : (s.orders i).barista_id = c)
    (hne : c ≠ (b : ℕ)) (hb : (s.baristas b).is_free = false) :
    ∃ j, j ≠ i ∧ (s.baristas b).order = some j ∧ (s.orders j).barista_id = (b : ℕ) ∧
      (s.orders j).is_to_be_considered = true := by
  obtain ⟨j, hj, hj1, hj2⟩ := h.busy b hb
  refine ⟨j, ?_, hj, hj1, hj2⟩
  rintro rfl
  exact hne (hc.symm.trans hj1)

lemma Accounts.setOrder (h : Accounts inp tr s)
    (h1 : o.is_to_be_considered = (s.orders i).is_to_be_considered)
    (h2 : o.barista_id = (s.orders i).barista_id)
    (h3 : o.is_completed = (s.orders i).is_completed) : Accounts inp tr (s.setOrder i o) := by
  have hfld : ∀ j, ((s.setOrder i o).orders j).is_to_be_considered =
        (s.orders j).is_to_be_considered ∧
      ((s.setOrder i o).orders j).barista_id = (s.orders j).barista_id ∧
      ((s.setOrder i o).orders j).is_completed = (s.orders j).is_completed := by
    intro j
    simp only [St.setOrder]
    by_cases hj : j = i
    · subst hj; simpa using ⟨h1, h2, h3⟩
    · simp [Function.update_of_ne hj]
  refine ⟨h.customers, h.counter.trans (settled_keep h1).symm, fun j hj hb => ?_,
    fun j hj => ?_, fun b hb => ?_⟩
  · rw [(hfld j).1] at hj
    rw [(hfld j).2.1] at hb
    exact h.left j hj hb
  · rw [(hfld j).2.2] at hj
    exact (hfld j).1.trans (h.done j hj)
  · obtain ⟨j, hj, hj1, hj2⟩ := h.busy b hb
    exact ⟨j, hj, (hfld j).2.1.trans hj1, (hfld j).1.trans hj2⟩

lemma Accounts.take_order (h : Accounts inp tr s) : Accounts inp tr (take_order b s) := by
  cases hf : (List.finRange inp.N).find? s.waiting with
  | none => simpa [Cafe.take_order, hf] using h
  | some i =>
    have hw := List.find?_some hf
    simp only [St.waiting, Bool.and_eq_true, beq_iff_eq] at hw
    obtain ⟨⟨hc, hb⟩, -⟩ := hw
    simp only [Cafe.take_order, hf, St.setOrder, St.setBarista]
    refine ⟨h.customers, h.counter.trans (settled_keep (by rfl)).symm, fun j hj hjb => ?_,
      fun j hj => ?_, fun b' hb' => ?_⟩
    · by_cases hji : j = i
      · subst hji
        simp at hjb
      · simp only [Function.update_of_ne hji] at hj hjb
        exact h.left j hj hjb
    · by_cases hji : j = i
      · subst hji
        simpa using h.done j (by simpa using hj)
      · simp only [Function.update_of_ne hji] at hj ⊢
        exact h.done j hj
    · by_cases hbb : b' = b
      · subst hbb
        exact ⟨i, by simp, by simp, by simpa using hc⟩
      · simp only [Function.update_of_ne hbb] at hb' ⊢
        obtain ⟨j, hji, hj, hj1, hj2⟩ := h.apart hb (by omega) hb'
        exact ⟨j, hj, by simpa only [Function.update_of_ne hji] using ⟨hj1, hj2⟩⟩

/-- A barista settles its order. -/
lemma Accounts.settle {r : Barista inp.N} (h : Accounts inp tr s)
    (hb : (s.orders i).barista_id = (b : ℕ)) (hc : (s.orders i).is_to_be_considered = true)
    (ho : o.is_to_be_considered = false) (hob : o.barista_id = (s.orders i).barista_id)
    (hr : r.is_free = true) :
    Accounts inp tr { s with
      is_to_be_considered_counter := s.is_to_be_considered_counter + 1
      orders := Function.update s.orders i o
      baristas := Function.update s.baristas b r } := by
  refine ⟨h.customers, ?_, fun j hj hjb => ?_, fun j hj => ?_, fun b' hb' => ?_⟩
  · simp only [h.counter, settled_settle hc ho]
  · by_cases hji : j = i
    · subst hji
      simp only [Function.update_self] at hjb
      omega
    · simp only [Function.update_of_ne hji] at hj hjb
      exact h.left j hj hjb
  · by_cases hji : j = i
    · subst hji; simpa using ho
    · simp only [Function.update_of_ne hji] at hj ⊢
      exact h.done j hj
  · have hbb : b' ≠ b := by rintro rfl; simp [hr] at hb'
    simp only [Function.update_of_ne hbb] at hb' ⊢
    obtain ⟨j, hji, hj, hj1, hj2⟩ := h.apart hb (by
      intro hc'; exact hbb (Fin.ext (by exact_mod_cast hc'.symm))) hb'
    exact ⟨j, hj, by simpa only [Function.update_of_ne hji] using ⟨hj1, hj2⟩⟩

lemma Accounts.barista_func (h : Accounts inp tr s) : Accounts inp tr (barista_func b s) := by
  unfold Cafe.barista_func
  by_cases hf : (s.baristas b).is_free = true
  · rw [if_pos hf]; exact h.take_order
  · rw [if_neg hf]
    obtain ⟨i, hi, hb, hc⟩ := h.busy b (by simpa using hf)
    have hd : (s.orders i).is_completed = false := by
      by_contra hd
      rw [h.done i (by simpa using hd)] at hc
      cases hc
    simp only [hi, hd]
    rw [if_neg (by simp)]
    split_ifs with ht
    · unfold finish_order
      dsimp only
      split_ifs with hp
      · exact h.settle hb hc rfl rfl rfl
      · exact h.settle hb hc rfl rfl rfl
    · exact h

lemma Accounts.leave (h : Accounts inp tr s)
    (ht : s.ticks = (s.customers i).arrival_time + (s.customers i).tolerance_time + 1)
    (hfresh : ∀ e ∈ tr, e.1 = .customer i → e.2.ticks < s.ticks) :
    Accounts inp (tr ++ [(Thread.customer i, s)]) (leave i s) := by
  unfold Cafe.leave
  dsimp only
  have hm := h.mono (.customer i, s)
  by_cases hd : (s.orders i).is_completed = true
  · rw [if_pos hd]
    exact hm.setOrder rfl rfl rfl
  rw [if_neg hd]
  by_cases hb : (s.orders i).barista_id = -1
  · rw [if_pos hb]
    have hc : (s.orders i).is_to_be_considered = true := by
      by_contra hc
      obtain ⟨e, he, h1, h2⟩ := h.left i (by simpa using hc) hb
      have := hfresh e he h1
      omega
    refine ⟨h.customers, ?_, fun j hj hjb => ?_, fun j hj => ?_, fun b hfb => ?_⟩
    · simp only [St.setOrder, h.counter]
      exact (settled_settle hc rfl).symm
    · by_cases hji : j = i
      · subst hji
        exact ⟨_, List.mem_append_right _ (List.mem_singleton_self _), rfl, ht⟩
      · simp only [St.setOrder, Function.update_of_ne hji] at hj hjb
        exact hm.left j hj hjb
    · by_cases hji : j = i
      · subst hji; simp [St.setOrder]
      · simp only [St.setOrder, Function.update_of_ne hji] at hj ⊢
        exact h.done j hj
    · obtain ⟨j, hji, hj, hj1, hj2⟩ := h.apart hb (by omega) hfb
      exact ⟨j, hj, by simpa only [St.setOrder, Function.update_of_ne hji] using ⟨hj1, hj2⟩⟩
  · rw [if_neg hb]
    exact hm.setOrder rfl rfl rfl

lemma Accounts.receive (h : Accounts inp tr s) : Accounts inp tr (receive i s) := by
  unfold Cafe.receive
  dsimp only
  split_ifs
  · exact h.setOrder rfl rfl rfl
  · exact h

lemma Accounts.customer_func (h : Accounts inp tr s)
    (hfresh : ∀ e ∈ tr, e.1 = .customer i → e.2.ticks < s.ticks) :
    Accounts inp (tr ++ [(Thread.customer i, s)]) (customer_func i s) := by
  unfold Cafe.customer_func
  dsimp only
  have key : Accounts inp (tr ++ [(Thread.customer i, s)]) (Cafe.receive i
      (if s.ticks = (s.customers i).arrival_time + (s.customers i).tolerance_time + 1 then
        Cafe.leave i s else s)) := by
    split_ifs with ht
    · exact (h.leave ht hfresh).receive
    · exact (h.mono _).receive
  by_cases h0 : i.val = 0
  · rw [if_pos h0]
    exact ⟨key.customers, key.counter, key.left, key.done, key.busy⟩
  · rw [if_neg h0]
    exact key

lemma respects (inp : Input) : Respects (prog inp) St.ticks (Accounts inp) := by
  intro tr s t h hfresh
  cases t with
  | worker b => exact (h.mono _).barista_func
  | customer i => exact h.customer_func hfresh

lemma counter_mono (t : Thread inp.B inp.N) (s : St inp.B inp.N) :
    s.is_to_be_considered_counter ≤ ((prog inp).body t s).is_to_be_considered_counter := by
  cases t with
  | worker b =>
    change _ ≤ (Cafe.barista_func b s).is_to_be_considered_counter
    unfold Cafe.barista_func Cafe.take_order finish_order
    dsimp only
    split
    · split <;> exact le_rfl
    · split
      · exact le_rfl
      · split_ifs <;> simp [St.setOrder, St.setBarista]
  | customer i =>
    change _ ≤ (Cafe.customer_func i s).is_to_be_considered_counter
    unfold Cafe.customer_func Cafe.receive Cafe.leave
    dsimp only
    split_ifs <;> simp [St.setOrder]

lemma stays_over (inp : Input) (tr : List (Thread inp.B inp.N × St inp.B inp.N))
    (s : St inp.B inp.N) (t : Thread inp.B inp.N) (h : Accounts inp tr s)
    (hfresh : ∀ e ∈ tr, e.1 = t → e.2.ticks < s.ticks) (hd : all_considered s = true) :
    all_considered ((prog inp).body t s) = true := by
  simp only [all_considered, beq_iff_eq] at hd ⊢
  have h1 := counter_mono t s
  have h2 := (respects inp tr s t h hfresh).counter
  have h3 := settled_le ((prog inp).body t s).orders
  omega

/-! ### Who is stranded -/

/-- **The cafe closes**: in every run in which no thread finds the counter at `N` while the next
thread of the ring is already blocked on its empty semaphore, no state with the counter at `N` has
a thread left and none that can move. -/
theorem closes_when_timely (inp : Input) (sched : List (Option (Thread inp.B inp.N)))
    (h : Along (prog inp) (Timely (prog inp) all_considered) (init (prog inp) (start inp)) sched) :
    (exec inp sched).shared.is_to_be_considered_counter = inp.N →
      ¬ Stranded (prog inp) (exec inp sched) := by
  intro hd
  have hN := numbered_cafe inp
  have hT := ticks_cafe inp
  have hk : Kept pos (round (W := inp.B) inp.N_pos).length St.ticks 0 (Accounts inp)
      (init (prog inp) (start inp)) := kept_init (accounts_start inp)
  have hc := Closing.run hN hT (respects inp) (fun _ _ => rfl) (stays_over inp)
    closing_init hk h
  refine hc.not_stranded hN (hk.run hN hT (respects inp) sched).inv ?_ ?_
  · have := inp.N_pos
    simp only [all_considered, start, beq_eq_false_iff_ne]
    omega
  · simpa [all_considered] using hd

/-- Two baristas and one customer, whose coffee takes one tick. -/
def lateInput : Input where
  B := 2
  menu := [⟨"Espresso", 1⟩]
  arrivals := [⟨"Espresso", 0, 5⟩]
  B_pos := by decide
  arrivals_pos := by decide

/-- A whole pass of a thread through its loop. -/
def pass (t : Thread lateInput.B lateInput.N) : List (Option (Thread lateInput.B lateInput.N)) :=
  List.replicate 6 (some t)

def barista0 : Thread lateInput.B lateInput.N := .worker ⟨0, by decide⟩
def barista1 : Thread lateInput.B lateInput.N := .worker ⟨1, by decide⟩
def customer0 : Thread lateInput.B lateInput.N := .customer ⟨0, by decide⟩

/-- Two rounds; after its second pass barista `1` is late to test the counter again. -/
def twoRounds : List (Option (Thread lateInput.B lateInput.N)) :=
  none :: (pass barista0 ++ pass barista1 ++ pass customer0 ++ pass barista0 ++ pass barista1 ++
    pass customer0)

theorem closes_on_time :
    Along (prog lateInput) (Timely (prog lateInput) all_considered)
      (init (prog lateInput) (start lateInput))
      (twoRounds ++ [some barista1, some customer0] ++ pass barista0) ∧
    (exec lateInput (twoRounds ++ [some barista1, some customer0] ++
      pass barista0)).shared.is_to_be_considered_counter = lateInput.N ∧
    ¬ Stranded (prog lateInput)
      (exec lateInput (twoRounds ++ [some barista1, some customer0] ++ pass barista0)) := by
  have h : Along (prog lateInput) (Timely (prog lateInput) all_considered)
      (init (prog lateInput) (start lateInput))
      (twoRounds ++ [some barista1, some customer0] ++ pass barista0) := by decide +kernel
  have hd : (exec lateInput (twoRounds ++ [some barista1, some customer0] ++
      pass barista0)).shared.is_to_be_considered_counter = lateInput.N := by decide +kernel
  exact ⟨h, hd, closes_when_timely lateInput _ h hd⟩

/-- In the third round customer `0` already waits on barista `1` when barista `0` settles the last
order; barista `1` then leaves without posting, and customer `0` is stranded. -/
theorem late_barista_strands :
    (exec lateInput (twoRounds ++ [some customer0] ++ pass barista0 ++
      [some barista0, some barista1])).shared.is_to_be_considered_counter = lateInput.N ∧
    Stranded (prog lateInput) (exec lateInput (twoRounds ++ [some customer0] ++ pass barista0 ++
      [some barista0, some barista1])) := by
  constructor <;> decide +kernel

end Xv6.CafeClose
