import Xv6.Ring

/-!
The ring of the two simulators: a number of workers and a number of customers, each kind
counted from `0`. The first worker waits on the last customer and the first customer on the last
worker; everybody else waits on the one before of the same kind. The token starts behind the
first customer, so a round is customers `1, 2, …`, then the workers, then customer `0`.
-/

namespace Xv6.Crew

open Xv6.Ring

inductive Thread (W C : ℕ) where
  | worker (i : Fin W)
  | customer (i : Fin C)
deriving DecidableEq, Fintype

variable {W C : ℕ}

/-- The thread whose semaphore this one waits on. -/
def before (hW : 0 < W) (hC : 0 < C) : Thread W C → Thread W C
  | .worker i => if i.val = 0 then .customer ⟨C - 1, by omega⟩ else .worker ⟨i - 1, by omega⟩
  | .customer i => if i.val = 0 then .worker ⟨W - 1, by omega⟩ else .customer ⟨i - 1, by omega⟩

/-- A round of the ring. -/
def round (hC : 0 < C) : List (Thread W C) :=
  (List.finRange C).tail.map .customer ++ (List.finRange W).map .worker ++ [.customer ⟨0, hC⟩]

/-- The place of a thread in a round. -/
def pos : Thread W C → ℕ
  | .worker i => C - 1 + i
  | .customer i => if i.val = 0 then C - 1 + W else i - 1

@[simp] lemma length_round (hC : 0 < C) : (round (W := W) hC).length = C - 1 + W + 1 := by
  simp [round]
  omega

lemma pos_lt (hC : 0 < C) (t : Thread W C) : pos t < (round (W := W) hC).length := by
  rw [length_round]
  cases t with
  | worker i => have := i.isLt; simp only [pos]; omega
  | customer i => have := i.isLt; simp only [pos]; split_ifs <;> omega

lemma round_pos (hC : 0 < C) (t : Thread W C) : (round hC)[pos t]? = some t := by
  unfold round
  cases t with
  | worker i =>
    have := i.isLt
    rw [List.getElem?_append_left (by simp [pos]),
      List.getElem?_append_right (by simp [pos])]
    simp [pos]
  | customer i =>
    have := i.isLt
    by_cases hi : i.val = 0
    · rw [List.getElem?_append_right (by simp [pos, hi])]
      simp only [pos, hi, if_true, List.length_append, List.length_map, List.length_tail,
        List.length_finRange, Nat.sub_self]
      simp only [List.getElem?_cons_zero, Option.some.injEq, Thread.customer.injEq]
      exact Fin.ext hi.symm
    · have hlt : i.val - 1 < C - 1 := by omega
      rw [List.append_assoc, List.getElem?_append_left (by simp [pos, hi, hlt])]
      simp only [pos, hi, if_false, List.getElem?_map, List.getElem?_tail]
      have : i.val - 1 + 1 = i.val := by omega
      simp [this]

lemma pos_inj (hC : 0 < C) : Function.Injective (pos (W := W) (C := C)) := by
  intro t u h
  have h1 := round_pos hC t
  rw [h, round_pos hC u] at h1
  exact (Option.some.inj h1).symm

lemma pos_before (hW : 0 < W) (hC : 0 < C) (t : Thread W C) :
    (pos (before hW hC t) + 1) % (C - 1 + W + 1) = pos t := by
  cases t with
  | worker i =>
    have hi := i.isLt
    by_cases h : i.val = 0
    · by_cases hc : C = 1
      · subst hc
        simp [before, pos, h]
      · have : C - 1 ≠ 0 := by omega
        simp only [before, pos, h, if_true, this, if_false]
        rw [Nat.mod_eq_of_lt (by omega)]
        omega
    · simp only [before, pos, h, if_false]
      rw [Nat.mod_eq_of_lt (by omega)]
      omega
  | customer i =>
    have hi := i.isLt
    by_cases h : i.val = 0
    · simp only [before, pos, h, if_true]
      rw [Nat.mod_eq_of_lt (by omega)]
      omega
    · by_cases h1 : i.val = 1
      · simp [before, pos, h1]
      · have : i.val - 1 ≠ 0 := by omega
        simp only [before, pos, h, this, if_false]
        rw [Nat.mod_eq_of_lt (by omega)]
        omega

/-- A program whose threads wait on each other like this, and whose starter posts the semaphore
of customer `0`, is a numbered ring. -/
lemma numbered {S Λ : Type} {P : Prog (Thread W C) S Λ} (hW : 0 < W) (hC : 0 < C)
    (hp : P.prev = before hW hC) (hf : P.first = .customer ⟨0, hC⟩) :
    Numbered P pos (round (W := W) hC).length := by
  refine ⟨pos_lt hC, pos_inj hC, fun t => ?_, ?_⟩
  · rw [hp, length_round]; exact pos_before hW hC t
  · rw [hf, length_round]; simp [pos]

lemma last_iff (hC : 0 < C) (t : Thread W C) :
    pos t + 1 = (round (W := W) hC).length ↔ t = .customer ⟨0, hC⟩ := by
  have h0 : pos (.customer ⟨0, hC⟩ : Thread W C) = C - 1 + W := by simp [pos]
  rw [length_round]
  constructor
  · intro h
    refine pos_inj hC ?_
    rw [h0]
    omega
  · rintro rfl
    rw [h0]

end Xv6.Crew
