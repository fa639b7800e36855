import Xv6.Cafe
import Xv6.Parlour

/-!
The turns of the threads of the two simulators: in each of them the semaphores make one ring,
and customer `0`, the last of a round, advances the clock.
-/

namespace Xv6.Turns

open Xv6.Ring Xv6.Crew

lemma numbered_cafe (inp : Cafe.Input) :
    Numbered (Cafe.prog inp) pos (round (W := inp.B) inp.N_pos).length :=
  numbered inp.B_pos inp.N_pos rfl rfl

lemma ticks_cafe (inp : Cafe.Input) :
    Ticks (Cafe.prog inp) pos (round (W := inp.B) inp.N_pos).length Cafe.St.ticks := by
  intro t s
  rw [if_congr (last_iff inp.N_pos t) rfl rfl]
  cases t with
  | worker b => exact (Cafe.ticks_barista_func b s).trans (by simp)
  | customer i => exact (Cafe.ticks_customer_func i s).trans (by simp [Fin.ext_iff])

lemma numbered_parlour (inp : Parlour.Input) :
    Numbered (Parlour.prog inp) pos (round (W := inp.N) inp.customers_pos).length :=
  numbered inp.N_pos inp.customers_pos rfl rfl

lemma ticks_parlour (inp : Parlour.Input) :
    Ticks (Parlour.prog inp) pos (round (W := inp.N) inp.customers_pos).length
      Parlour.St.ticks := by
  intro t s
  rw [if_congr (last_iff inp.customers_pos t) rfl rfl]
  cases t with
  | worker m => exact (Parlour.ticks_icecream_machine_func m s).trans (by simp)
  | customer c => exact (Parlour.ticks_customer_func c s).trans (by simp [Fin.ext_iff])

/-- **One turn for each thread and tick**, in both simulators, for every input and every schedule:
one token, the bodies in the order customers `1, 2, …`, workers, customer `0`, and one round for
each value of `ticks`. -/
theorem one_turn_per_tick :
    (∀ (inp : Cafe.Input) (sched : List (Option (Thread inp.B inp.N))),
      Turns (round (W := inp.B) inp.N_pos) Cafe.St.ticks 0 (Cafe.exec inp sched)) ∧
    (∀ (inp : Parlour.Input) (sched : List (Option (Thread inp.N inp.total_customers))),
      Turns (round (W := inp.N) inp.customers_pos) Parlour.St.ticks 0
        (Parlour.exec inp sched)) := by
  constructor
  · intro inp sched
    exact turns (numbered_cafe inp) (round_pos inp.N_pos) (ticks_cafe inp) (Cafe.start inp) sched
  · intro inp sched
    exact turns (numbered_parlour inp) (round_pos inp.customers_pos) (ticks_parlour inp)
      (Parlour.start inp) sched

end Xv6.Turns
