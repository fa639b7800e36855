import Xv6.PbsRuns

/-!
The scale of the dynamic priority. The index stays below 150 as long as the counters of a process
do not wrap, whatever the product by 50 does; what brings a priority below zero is the static
priority, which comes from the caller of `setpriority` as it is.
-/

namespace Xv6.PbsScale

open Xv6.Riscv Xv6.CInt Xv6.Pbs Xv6.PbsRuns
open Xv6.Process (ProcState)

variable {p q : Proc} {s : Sys} {i : Fin NPROC}

/-! ### The index -/

lemma temp_eq (p : Proc) : temp p = int ((3 * p.pbs_rtime - p.pbs_wtime - p.pbs_stime) * 50) := by
  unfold temp int
  simp only [Int.bmod_sub_bmod, Int.bmod_mul_bmod]

lemma temp1_eq (hc : Counts p) (ht : p.pbs_rtime + p.pbs_wtime + p.pbs_stime ≤ 2147483646) :
    temp1 p = 1 + p.pbs_rtime + p.pbs_stime + p.pbs_wtime := by
  have hr := hc.rtime
  have hw := hc.wtime
  have hs := hc.stime
  unfold temp1
  rw [int_of (x := 1 + p.pbs_rtime) ⟨by omega, by omega⟩,
    int_of (x := 1 + p.pbs_rtime + p.pbs_stime) ⟨by omega, by omega⟩, int_of ⟨by omega, by omega⟩]

lemma temp_lt (hc : Counts p) (ht : p.pbs_rtime + p.pbs_wtime + p.pbs_stime ≤ 2147483646) :
    temp p < 150 * temp1 p := by
  have hr := hc.rtime
  have hw := hc.wtime
  have hs := hc.stime
  rw [temp_eq, temp1_eq hc ht]
  by_cases hin : InInt ((3 * p.pbs_rtime - p.pbs_wtime - p.pbs_stime) * 50)
  · rw [int_of hin]
    omega
  · have hle := (int_inInt ((3 * p.pbs_rtime - p.pbs_wtime - p.pbs_stime) * 50)).2
    unfold InInt at hin
    omega

lemma rbi_le_of_total (hc : Counts p)
    (ht : p.pbs_rtime + p.pbs_wtime + p.pbs_stime ≤ 2147483646) : rbi p ≤ 149 := by
  have hpos : 0 < temp1 p := by
    have hr := hc.rtime
    have hw := hc.wtime
    have hs := hc.stime
    rw [temp1_eq hc ht]
    omega
  have hlt := temp_lt hc ht
  have hin : InInt (temp p) := by
    rw [temp_eq]
    exact int_inInt _
  unfold rbi temp2 divw
  rw [if_neg hpos.ne']
  rcases lt_or_ge (temp p) 0 with hneg | hge
  · have h1 : 0 ≤ (-temp p).tdiv (temp1 p) := Int.tdiv_nonneg (by omega) hpos.le
    have h2 : (-temp p).tdiv (temp1 p) ≤ -temp p := Int.tdiv_le_self _ (by omega)
    rw [Int.neg_tdiv] at h1 h2
    unfold InInt at hin
    rw [int_of ⟨by omega, by omega⟩]
    exact max_le (by norm_num) (by omega)
  · have h1 : temp p / temp1 p < 150 := Int.ediv_lt_of_lt_mul hpos hlt
    have h2 : 0 ≤ temp p / temp1 p := Int.ediv_nonneg hge hpos.le
    rw [Int.tdiv_eq_ediv_of_nonneg hge, int_of ⟨by omega, by omega⟩]
    exact max_le (by norm_num) (by omega)

/-! ### Slots on the scale -/

/-- The counters have not wrapped, and the priorities are neither negative nor too large. -/
structure Scaled (p : Proc) : Prop where
  counts : Counts p
  total : p.pbs_rtime + p.pbs_wtime + p.pbs_stime ≤ 2147483646
  static_lo : 0 ≤ p.pbs_static_priority
  static_hi : p.pbs_static_priority ≤ 2147483498
  dynamic_lo : 0 ≤ p.pbs_dynamic_priority
  dynamic_hi : p.pbs_dynamic_priority ≤ 100

lemma Scaled.congr (h : Scaled p) (hr : q.pbs_rtime = p.pbs_rtime)
    (hw : q.pbs_wtime = p.pbs_wtime) (hs : q.pbs_stime = p.pbs_stime)
    (hsp : q.pbs_static_priority = p.pbs_static_priority)
    (hdp : q.pbs_dynamic_priority = p.pbs_dynamic_priority) : Scaled q := by
  obtain ⟨⟨h1, h2, h3⟩, h4, h5, h6, h7, h8⟩ := h
  rw [← hr] at h1 h4
  rw [← hw] at h2 h4
  rw [← hs] at h3 h4
  rw [← hsp] at h5 h6
  rw [← hdp] at h7 h8
  exact ⟨⟨h1, h2, h3⟩, h4, h5, h6, h7, h8⟩

lemma Scaled.fresh (hr : p.pbs_rtime = 0) (hw : p.pbs_wtime = 0) (hs : p.pbs_stime = 0)
    (h1 : 0 ≤ p.pbs_static_priority) (h2 : p.pbs_static_priority ≤ 2147483498)
    (h3 : 0 ≤ p.pbs_dynamic_priority) (h4 : p.pbs_dynamic_priority ≤ 100) : Scaled p :=
  ⟨⟨by omega, by omega, by omega⟩, by omega, h1, h2, h3, h4⟩

lemma Scaled.dp (h : Scaled p) : 0 ≤ dp p ∧ dp p ≤ 100 := by
  have h1 := rbi_nonneg p
  have h2 := rbi_le_of_total h.counts h.total
  have h3 := h.static_lo
  have h4 := h.static_hi
  refine ⟨?_, min_le_left _ _⟩
  unfold Pbs.dp
  rw [int_of ⟨by omega, by omega⟩]
  exact le_min (by norm_num) (by omega)

lemma Scaled.dp_priority (h : Scaled p) : Scaled (dp_priority p).2 :=
  ⟨⟨h.counts.rtime, h.counts.wtime, h.counts.stime⟩, h.total, h.static_lo, h.static_hi, h.dp.1,
    h.dp.2⟩

/-! ### Runs -/

/-- The counters of the slot can take one more tick. -/
def RoomForTick (p : Proc) : Prop :=
  p.state = .RUNNING ∨ p.state = .RUNNABLE ∨ p.state = .SLEEPING →
    p.pbs_rtime + p.pbs_wtime + p.pbs_stime ≤ 2147483645

instance (p : Proc) : Decidable (RoomForTick p) := inferInstanceAs (Decidable (_ → _))

/-- A static priority that is stored is not negative and leaves room for the index, and a tick is
counted only with room for it. -/
def OnScale (s : Sys) : Event → Prop
  | .update_time i => RoomForTick (s.proc i)
  | .setpriority i pid priority =>
    (s.proc i).pid = pid.toInt → 0 ≤ priority.toInt ∧ priority.toInt ≤ 2147483498
  | _ => True

instance (s : Sys) (e : Event) : Decidable (OnScale s e) :=
  match e with
  | .update_time i => inferInstanceAs (Decidable (RoomForTick (s.proc i)))
  | .setpriority _ _ _ => inferInstanceAs (Decidable (_ → _))
  | .allocproc _ | .freeproc _ | .start _ | .pick _ | .yield _ | .sleep _ _ | .wakeup _ _
  | .kill _ _ | .exit _ _ | .tick | .dp_priority _ | .sdp_priority _ => isTrue trivial

/-- Every step of the run satisfies the condition. -/
def Along (P : Sys → Event → Prop) : Sys → List Event → Prop
  | _, [] => True
  | s, e :: es => P s e ∧ Along P (step s e) es

instance Along.decidable {P : Sys → Event → Prop} [∀ s e, Decidable (P s e)] :
    ∀ (s : Sys) (es : List Event), Decidable (Along P s es)
  | _, [] => isTrue trivial
  | s, e :: es => @instDecidableAnd _ _ _ (Along.decidable (step s e) es)

lemma Along.run {P : Sys → Event → Prop} {I : Sys → Prop}
    (hstep : ∀ s e, I s → P s e → I (step s e)) : ∀ (es : List Event) (s : Sys), I s →
    Along P s es → I (run s es) := by
  intro es
  induction es with
  | nil => intro s h _; exact h
  | cons e es ih => intro s h hes; exact ih _ (hstep s e h hes.1) hes.2

lemma scaled_update_time (h : Scaled p) (ht : RoomForTick p) : Scaled (update_time p) := by
  have hkeep := h
  obtain ⟨⟨hr, hw, hs⟩, htot, hlo, hhi, hdlo, hdhi⟩ := h
  unfold RoomForTick at ht
  unfold update_time
  rcases hst : p.state with _ | _ | _ | _ | _ | _ <;>
    simp only [hst, reduceCtorEq, if_true, if_false]
  · exact hkeep.congr rfl rfl rfl rfl rfl
  · exact hkeep.congr rfl rfl rfl rfl rfl
  · have hroom := ht (Or.inr (Or.inr hst))
    rw [int_of (x := p.pbs_stime + 1) ⟨by omega, by omega⟩]
    exact ⟨⟨hr, hw, by dsimp only; omega⟩, by dsimp only; omega, hlo, hhi, hdlo, hdhi⟩
  · have hroom := ht (Or.inr (Or.inl hst))
    rw [int_of (x := p.pbs_wtime + 1) ⟨by omega, by omega⟩]
    exact ⟨⟨hr, by dsimp only; omega, hs⟩, by dsimp only; omega, hlo, hhi, hdlo, hdhi⟩
  · have hroom := ht (Or.inl hst)
    rw [int_of (x := p.pbs_rtime + 1) ⟨by omega, by omega⟩]
    exact ⟨⟨by dsimp only; omega, hw, hs⟩, by dsimp only; omega, hlo, hhi, hdlo, hdhi⟩
  · exact hkeep.congr rfl rfl rfl rfl rfl

/-- A step on the scale keeps every slot on the scale. -/
lemma step_scaled (s : Sys) (e : Event) (h : ∀ i, Scaled (s.proc i)) (he : OnScale s e) :
    ∀ i, Scaled ((step s e).proc i) := by
  cases e with
  | allocproc i =>
    unfold step
    dsimp only
    split_ifs
    · refine all_on h (f := usedProc s.nextpid s.ticks) (Scaled.fresh rfl rfl rfl ?_ ?_ ?_ ?_) <;>
        norm_num [usedProc]
    · exact h
  | freeproc i =>
    unfold step
    dsimp only
    split_ifs
    · refine all_on h (f := Pbs.freeproc) (Scaled.fresh rfl rfl rfl ?_ ?_ ?_ ?_) <;>
        norm_num [Pbs.freeproc]
    · exact h
  | start i => exact all_onState h fun _ => (h i).congr rfl rfl rfl rfl rfl
  | pick i =>
    exact all_onState h fun _ => Scaled.fresh rfl rfl rfl (h i).static_lo (h i).static_hi
      (h i).dynamic_lo (h i).dynamic_hi
  | yield i => exact all_onState h fun _ => (h i).congr rfl rfl rfl rfl rfl
  | sleep i chan => exact all_onState h fun _ => (h i).congr rfl rfl rfl rfl rfl
  | wakeup i chan =>
    refine all_on h ?_
    unfold PbsRuns.wakeup
    split_ifs
    · exact (h i).congr rfl rfl rfl rfl rfl
    · exact h i
  | kill i pid =>
    refine all_on h ?_
    unfold PbsRuns.kill
    split_ifs
    · exact (h i).congr rfl rfl rfl rfl rfl
    · exact (h i).congr rfl rfl rfl rfl rfl
    · exact h i
  | exit i status => exact all_onState h fun _ => (h i).congr rfl rfl rfl rfl rfl
  | tick => exact h
  | update_time i => exact all_on h (scaled_update_time (h i) he)
  | dp_priority i => exact all_onState h fun _ => (h i).dp_priority
  | setpriority i pid priority =>
    refine all_on h ?_
    unfold PbsRuns.setpriority
    split_ifs with hpid
    · have hi := h i
      obtain ⟨hlo, hhi⟩ := he hpid
      exact ⟨⟨hi.counts.rtime, hi.counts.wtime, hi.counts.stime⟩, hi.total, hlo, hhi,
        hi.dynamic_lo, hi.dynamic_hi⟩
    · exact h i
  | sdp_priority i => exact all_on h (f := fun p => (sdp_priority p).2) (h i).dp_priority

/-- **When dynamic priorities stay on their scale**: in every run from power-on in which the
counters do not wrap and the static priorities that are stored lie between 0 and `2147483498`, every
stored dynamic priority lies between 0 and 100. -/
theorem dynamic_priority_on_scale (es : List Event) (h : Along OnScale init es) (i : Fin NPROC) :
    0 ≤ ((run init es).proc i).pbs_dynamic_priority ∧
      ((run init es).proc i).pbs_dynamic_priority ≤ 100 := by
  have h0 : Scaled zeroProc :=
    Scaled.fresh rfl rfl rfl (by decide) (by decide) (by decide) (by decide)
  have hall := Along.run (I := fun s => ∀ i, Scaled (s.proc i)) step_scaled es init
    (fun _ => h0) h i
  exact ⟨hall.dynamic_lo, hall.dynamic_hi⟩

/-- The first process sets its own priority. -/
def setOwn (priority : BitVec 32) : List Event :=
  firstTick ++ [.setpriority slot0 1#32 priority, .sdp_priority slot0]

theorem dynamic_priority_on_scale_80 : 0 ≤ ((run init (setOwn 80#32)).proc slot0).pbs_dynamic_priority ∧
    ((run init (setOwn 80#32)).proc slot0).pbs_dynamic_priority ≤ 100 :=
  dynamic_priority_on_scale (setOwn 80#32)
    ⟨trivial, trivial, trivial, trivial, trivial, by decide, by decide, trivial, trivial⟩ slot0

/-- A static priority of -100 makes the dynamic one negative. -/
theorem dynamic_priority_negative : ¬∀ (es : List Event) (i : Fin NPROC),
    0 ≤ ((run init es).proc i).pbs_dynamic_priority := by
  intro h
  have hneg : ((run init (setOwn (-100#32))).proc slot0).pbs_dynamic_priority = -25 := by decide
  have := h (setOwn (-100#32)) slot0
  omega

end Xv6.PbsScale
