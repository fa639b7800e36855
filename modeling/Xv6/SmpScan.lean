import Xv6.PbsScan
import Xv6.Smp

/-!
The scan of the `PBS` scheduler, as a loop over the table under the process locks and as one section
of a scheduler thread for each slot. A round of the loop is a section, so the sections find what the
loop finds if nothing comes between them.
-/

namespace Xv6.SmpScan

open Xv6.Riscv Xv6.Wp Xv6.Pbs Xv6.PbsScan Xv6.Smp

variable {n : ℕ} {p m : Slot} {best : Option Slot × ℤ} {d : Shared} {proc : Slot → Proc}
  {E : LockPanic → Prop}

/-- The loop between two rounds: the best process found is kept with its lock. -/
def midway (proc : Slot → Proc) (best : Option Slot) : Scan :=
  ⟨proc, fun i => decide (best = some i)⟩

@[simp] lemma midway_proc (best : Option Slot) : (midway proc best).proc = proc := rfl

/-- Memory after the section of a `RUNNABLE` process. -/
def priced (d : Shared) (p : Slot) : Shared := d.on p fun p => (dp_priority p).2

lemma section_skip (hs : slotAt n = some p) (hr : (d.proc p).state ≠ .RUNNABLE) :
    schedCode d (.scan n best.1 best.2) = .to (.scan (n + 1) best.1 best.2) d [.proc p] := by
  simp only [schedCode, hs, if_pos hr]

lemma section_take (hs : slotAt n = some p) (hr : (d.proc p).state = .RUNNABLE)
    (h : takesPlace (priced d p).proc best.1 best.2 (dp (d.proc p)) p) :
    schedCode d (.scan n best.1 best.2) =
      .to (.scan (n + 1) (some p) (dp (d.proc p))) (priced d p) (best.1.toList.map .proc) := by
  simp only [schedCode, hs, if_neg (not_not.mpr hr)]
  exact if_pos h

lemma section_keep (hs : slotAt n = some p) (hr : (d.proc p).state = .RUNNABLE)
    (h : ¬ takesPlace (priced d p).proc best.1 best.2 (dp (d.proc p)) p) :
    schedCode d (.scan n best.1 best.2) =
      .to (.scan (n + 1) best.1 best.2) (priced d p) [.proc p] := by
  simp only [schedCode, hs, if_neg (not_not.mpr hr)]
  exact if_neg h

lemma midway_back {b : Option Slot} (h : b ≠ some p) :
    (⟨proc, Function.update (Function.update (midway proc b).held p true) p false⟩ : Scan) =
      midway proc b := by
  have hback : Function.update (Function.update (midway proc b).held p true) p false =
      (midway proc b).held := by
    rw [Function.update_idem, ← (decide_eq_false h : (midway proc b).held p = false)]
    exact Function.update_eq_self _ _
  rw [hback]
  rfl

lemma midway_swap (hmp : m ≠ p) :
    (⟨proc, Function.update (Function.update (midway proc (some m)).held p true) m false⟩ : Scan) =
      midway proc (some p) := by
  have hheld : Function.update (Function.update (midway proc (some m)).held p true) m false =
      (midway proc (some p)).held := by
    funext i
    unfold midway
    by_cases him : i = m
    · subst him
      simp [hmp.symm]
    · rw [Function.update_of_ne him]
      by_cases hip : i = p
      · subst hip
        simp
      · rw [Function.update_of_ne hip]
        simp [Ne.symm him, Ne.symm hip]
  rw [hheld]
  rfl

lemma midway_first : (⟨proc, Function.update (midway proc none).held p true⟩ : Scan) =
    midway proc (some p) := by
  have hheld : Function.update (midway proc none).held p true = (midway proc (some p)).held := by
    funext i
    unfold midway
    by_cases hip : i = p
    · subst hip
      simp
    · rw [Function.update_of_ne hip]
      simp [Ne.symm hip]
  rw [hheld]
  rfl

/-- The section of slot `p` goes on at the next slot, and the loop is there with the same best, the
same table and the lock of the best. -/
def Follows (d : Shared) (n : ℕ) (best : Option Slot × ℤ) (p : Slot) (best' : Option Slot × ℤ)
    (s : Scan) : Prop :=
  ∃ d' free, schedCode d (.scan n best.1 best.2) = .to (.scan (n + 1) best'.1 best'.2) d' free ∧
    s = midway d'.proc best'.1 ∧ (best'.1 = best.1 ∨ best'.1 = some p)

/-- **A round of the loop is a section of the scheduler.** -/
lemma scanStep_section (hs : slotAt n = some p) (hne : best.1 ≠ some p) :
    wp (scanStep best p) (Follows d n best p) E (midway d.proc best.1) := by
  unfold scanStep
  rw [wp_bind]
  refine wp_acquire (decide_eq_false hne) ?_
  rw [wp_bind, wp_get]
  dsimp only
  rw [midway_proc]
  by_cases hr : (d.proc p).state ≠ .RUNNABLE
  · rw [if_pos hr, wp_bind]
    refine wp_release (Function.update_self ..) ?_
    rw [wp_pure]
    exact ⟨d, _, section_skip hs hr, midway_back hne, .inl rfl⟩
  rw [if_neg hr]
  rw [not_not] at hr
  rw [wp_bind, wp_set]
  obtain ⟨max_priority, priority⟩ := best
  rcases max_priority with _ | m
  · rw [wp_pure]
    exact ⟨priced d p, _, section_take hs hr trivial, midway_first, .inr rfl⟩
  have hmp : m ≠ p := fun h => hne (congrArg some h)
  -- the two ways out of the comparison
  have hdrop : ¬ takesPlace (priced d p).proc (some m) priority (dp (d.proc p)) p →
      wp (do release p; pure (some m, priority)) (Follows d n (some m, priority) p) E
        ⟨(priced d p).proc, Function.update (midway d.proc (some m)).held p true⟩ := by
    intro h
    rw [wp_bind]
    refine wp_release (Function.update_self ..) ?_
    rw [wp_pure]
    exact ⟨priced d p, _, section_keep hs hr h, midway_back hne,
      .inl rfl⟩
  have hswap : takesPlace (priced d p).proc (some m) priority (dp (d.proc p)) p →
      ∀ pr, dp (d.proc p) = pr →
      wp (do release m; pure (some p, pr)) (Follows d n (some m, priority) p) E
        ⟨(priced d p).proc, Function.update (midway d.proc (some m)).held p true⟩ := by
    rintro h _ rfl
    rw [wp_bind]
    refine wp_release ?_ ?_
    · change Function.update (midway d.proc (some m)).held p true m = true
      rw [Function.update_of_ne hmp]
      exact decide_eq_true rfl
    · rw [wp_pure]
      exact ⟨priced d p, _, section_take hs hr h, midway_swap hmp, .inr rfl⟩
  have hp : (priced d p).proc p = (dp_priority (d.proc p)).2 := Function.update_self ..
  have hm : (priced d p).proc m = d.proc m := Function.update_of_ne hmp ..
  unfold takesPlace at hdrop hswap
  dsimp only at hdrop hswap
  rw [hp, hm] at hdrop hswap
  dsimp only
  split_ifs with h1 h2 h3 h4 h5
  · exact hswap (.inl h1) _ rfl
  · exact hswap (.inr ⟨h2, .inl h3⟩) _ h2
  · exact hswap (.inr ⟨h2, .inr ⟨h4, h5⟩⟩) _ h2
  · exact hdrop fun h => h.elim h1 fun h => h.2.elim h3 fun h => h5 h.2
  · exact hdrop fun h => h.elim h1 fun h => h.2.elim h3 fun h => h4 h.1
  · exact hdrop fun h => h.elim h1 fun h => h2 h.1

/-- `k` sections of the scheduler, one after the other. -/
def sections : ℕ → Shared → Pc → Shared × Pc
  | 0, d, pc => (d, pc)
  | k + 1, d, pc => sections k (schedCode d pc).sh (schedCode d pc).pc

lemma sections_loop (k : ℕ) : ∀ {n : ℕ} {best : Option Slot × ℤ} {d : Shared}, n + k = NPROC →
    (∀ i, best.1 = some i → i.val < n) →
    wp (((List.finRange NPROC).drop n).foldlM scanStep best)
      (fun best' s => ∃ d', sections k d (.scan n best.1 best.2) =
        (d', .scan NPROC best'.1 best'.2) ∧ s = midway d'.proc best'.1) E
      (midway d.proc best.1) := by
  induction k with
  | zero =>
    intro n best d hn _
    obtain rfl : n = NPROC := hn
    rw [List.drop_of_length_le (by simp), List.foldlM_nil, wp_pure]
    exact ⟨d, rfl, rfl⟩
  | succ k ih =>
    intro n best d hn hbest
    have hlt : n < NPROC := by omega
    have hs : slotAt n = some ⟨n, hlt⟩ := dif_pos hlt
    have hne : best.1 ≠ some ⟨n, hlt⟩ := fun h => lt_irrefl n (hbest _ h)
    have hdrop : (List.finRange NPROC).drop n = ⟨n, hlt⟩ :: (List.finRange NPROC).drop (n + 1) := by
      rw [List.drop_eq_getElem_cons (by simpa using hlt), List.getElem_finRange]
      rfl
    rw [hdrop, List.foldlM_cons, wp_bind]
    refine wp_post (scanStep_section (d := d) hs hne) fun best1 s1 h1 => ?_
    obtain ⟨d1, free, hsec, rfl, hb⟩ := h1
    have hbest1 : ∀ i, best1.1 = some i → i.val < n + 1 := by
      intro i hi
      rcases hb with hb | hb
      · exact Nat.lt_succ_of_lt (hbest i (hb ▸ hi))
      · rw [hb] at hi
        obtain rfl := Option.some.inj hi
        exact Nat.lt_succ_self n
    refine wp_post (ih (by omega) hbest1) fun best2 s2 h2 => ?_
    obtain ⟨d2, hrun, hs2⟩ := h2
    refine ⟨d2, ?_, hs2⟩
    rw [← hrun]
    change sections k (schedCode d (.scan n best.1 best.2)).sh
      (schedCode d (.scan n best.1 best.2)).pc = _
    rw [hsec]
    rfl

/-- **The sections of a scheduler thread that nothing comes between are the loop**: they end past the
last slot with the process and the table that the loop ends with. -/
theorem sections_scan (d : Shared) :
    wp scan (fun r s => ∃ d' priority,
      sections NPROC d (.scan 0 none 101) = (d', .scan NPROC r priority) ∧ s = midway d'.proc r)
      (fun _ => False) (midway d.proc none) := by
  unfold scan
  rw [wp_bind, ← List.drop_zero (l := List.finRange NPROC)]
  have hloop := @sections_loop (fun _ => False) NPROC 0 (none, 101) d (Nat.zero_add _) (by simp)
  refine wp_post hloop fun best s h => ?_
  obtain ⟨d', hrun, rfl⟩ := h
  rw [wp_pure]
  exact ⟨d', best.2, hrun, rfl⟩

end Xv6.SmpScan
