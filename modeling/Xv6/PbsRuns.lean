import Xv6.Pbs

/-!
Accounting over whole runs of the system.

A step is what one lock-protected section of `proc.c` does to one slot of the process table; the
sections of different processors come in any order. The clock interrupt counts one slot at a time,
so that other sections may come between two of its counts. The counters of a process start again
only when the scheduler picks it.
-/

namespace Xv6.PbsRuns

open Xv6.Riscv Xv6.CInt Xv6.Pbs
open Xv6.Process (ProcState)

structure Sys where
  proc : Fin NPROC → Proc
  ticks : ℕ
  nextpid : ℤ

inductive Event
  | allocproc (i : Fin NPROC)
  | freeproc (i : Fin NPROC)
  | start (i : Fin NPROC)
  | pick (i : Fin NPROC)
  | yield (i : Fin NPROC)
  | sleep (i : Fin NPROC) (chan : ℕ)
  | wakeup (i : Fin NPROC) (chan : ℕ)
  | kill (i : Fin NPROC) (pid : ℤ)
  | exit (i : Fin NPROC) (status : ℤ)
  | tick
  | update_time (i : Fin NPROC)
  | dp_priority (i : Fin NPROC)
  | setpriority (i : Fin NPROC) (pid priority : BitVec 32)
  | sdp_priority (i : Fin NPROC)

/-! ### Sections -/

/-- The scheduler's assignments to the process it picked. -/
def pick (p : Proc) : Proc :=
  { p with
    state := .RUNNING
    pbs_num_sched := int (p.pbs_num_sched + 1)
    pbs_rtime := 0
    pbs_wtime := 0
    pbs_stime := 0 }

def wakeup (chan : ℕ) (p : Proc) : Proc :=
  if p.state = .SLEEPING ∧ p.chan = some chan then { p with state := .RUNNABLE } else p

def kill (pid : ℤ) (p : Proc) : Proc :=
  if p.pid = pid then
    { p with killed := 1, state := if p.state = .SLEEPING then .RUNNABLE else p.state }
  else p

/-- The slot's turn in the loop of `update_time`. -/
def update_time (p : Proc) : Proc :=
  let p := if p.state = .RUNNING then { p with rtime := uint (p.rtime + 1) } else p
  if p.state = .RUNNABLE then { p with pbs_wtime := int (p.pbs_wtime + 1) }
  else if p.state = .SLEEPING then { p with pbs_stime := int (p.pbs_stime + 1) }
  else if p.state = .RUNNING then { p with pbs_rtime := int (p.pbs_rtime + 1) }
  else p

/-- The slot's turn in the loop of `setpriority`. -/
def setpriority (pid priority : ℤ) (p : Proc) : Proc :=
  if p.pid = pid then { p with pbs_static_priority := priority, pbs_rbi := 25 } else p

/-! ### Runs -/

def on (i : Fin NPROC) (f : Proc → Proc) (s : Sys) : Sys :=
  { s with proc := Function.update s.proc i (f (s.proc i)) }

/-- A section that only a slot in state `st` gets to. -/
def onState (i : Fin NPROC) (st : ProcState) (f : Proc → Proc) (s : Sys) : Sys :=
  if (s.proc i).state = st then on i f s else s

def step (s : Sys) : Event → Sys
  | .allocproc i =>
    if (s.proc i).state = .UNUSED then
      { on i (usedProc s.nextpid s.ticks) s with nextpid := int (s.nextpid + 1) }
    else s
  | .freeproc i =>
    if (s.proc i).state = .USED ∨ (s.proc i).state = .ZOMBIE then on i freeproc s else s
  | .start i => onState i .USED (fun p => { p with state := .RUNNABLE }) s
  | .pick i => onState i .RUNNABLE pick s
  | .yield i => onState i .RUNNING (fun p => { p with state := .RUNNABLE }) s
  | .sleep i chan =>
    onState i .RUNNING (fun p => { p with chan := some chan, state := .SLEEPING }) s
  | .wakeup i chan => on i (wakeup chan) s
  | .kill i pid => on i (kill pid) s
  | .exit i status =>
    onState i .RUNNING (fun p =>
      { p with xstate := status, state := .ZOMBIE, etime := s.ticks }) s
  | .tick => { s with ticks := uint (s.ticks + 1) }
  | .update_time i => on i update_time s
  | .dp_priority i => onState i .RUNNABLE (fun p => (dp_priority p).2) s
  | .setpriority i pid priority => on i (setpriority pid.toInt priority.toInt) s
  | .sdp_priority i => on i (fun p => (sdp_priority p).2) s

def init : Sys := ⟨fun _ => zeroProc, 0, 1⟩

def run (s : Sys) (es : List Event) : Sys := es.foldl step s

/-- Every expression of `dp_priority` has its mathematical value, and the divisor is positive. -/
def NoWrap (p : Proc) : Prop :=
  temp p = (3 * p.pbs_rtime - p.pbs_wtime - p.pbs_stime) * 50 ∧
  temp1 p = 1 + p.pbs_rtime + p.pbs_stime + p.pbs_wtime ∧
  int (p.pbs_static_priority + rbi p) = p.pbs_static_priority + rbi p ∧ 0 < temp1 p

instance (p : Proc) : Decidable (NoWrap p) := inferInstanceAs (Decidable (_ ∧ _ ∧ _ ∧ _))

/-! ### Bounded counting -/

/-- `r` ticks counted on the processor and `c` off it since the process was last picked: three times
the first and the second are close enough to be multiplied by `50`. -/
def Room (r c : ℤ) : Prop := -42949672 ≤ 3 * r - c ∧ 3 * r - c ≤ 42949672 ∧ r + c ≤ 2147483646

instance (r c : ℤ) : Decidable (Room r c) := inferInstanceAs (Decidable (_ ∧ _ ∧ _))

/-- There is room for the tick that is about to be counted. -/
def InTime (p : Proc) : Prop :=
  (p.state = .RUNNING → Room (p.pbs_rtime + 1) (p.pbs_wtime + p.pbs_stime)) ∧
  (p.state = .RUNNABLE ∨ p.state = .SLEEPING →
    Room p.pbs_rtime (p.pbs_wtime + p.pbs_stime + 1))

instance (p : Proc) : Decidable (InTime p) := inferInstanceAs (Decidable (_ ∧ _))

/-- A tick is counted only with room for it, and a static priority that is stored leaves room for the
index. -/
def Moderate (s : Sys) : Event → Prop
  | .update_time i => InTime (s.proc i)
  | .setpriority i pid priority => (s.proc i).pid = pid.toInt → priority.toInt ≤ 2147483498
  | _ => True

instance (s : Sys) (e : Event) : Decidable (Moderate s e) :=
  match e with
  | .update_time i => inferInstanceAs (Decidable (InTime (s.proc i)))
  | .setpriority _ _ _ => inferInstanceAs (Decidable (_ → _))
  | .allocproc _ | .freeproc _ | .start _ | .pick _ | .yield _ | .sleep _ _ | .wakeup _ _
  | .kill _ _ | .exit _ _ | .tick | .dp_priority _ | .sdp_priority _ => isTrue trivial

/-- Every step of the run is moderate. -/
def ModerateRun : Sys → List Event → Prop
  | _, [] => True
  | s, e :: es => Moderate s e ∧ ModerateRun (step s e) es

/-- The counters and the static priority leave room. -/
structure Bounded (p : Proc) : Prop where
  counts : Counts p
  room : Room p.pbs_rtime (p.pbs_wtime + p.pbs_stime)
  static_lo : -2 ^ 31 ≤ p.pbs_static_priority
  static_hi : p.pbs_static_priority ≤ 2147483498

variable {p q : Proc} {s : Sys} {i : Fin NPROC}

lemma Bounded.congr (h : Bounded p) (hr : q.pbs_rtime = p.pbs_rtime)
    (hw : q.pbs_wtime = p.pbs_wtime) (hs : q.pbs_stime = p.pbs_stime)
    (hsp : q.pbs_static_priority = p.pbs_static_priority) : Bounded q := by
  obtain ⟨⟨h1, h2, h3⟩, h4, h5, h6⟩ := h
  rw [← hr] at h1
  rw [← hw] at h2
  rw [← hs] at h3
  rw [← hr, ← hw, ← hs] at h4
  rw [← hsp] at h5 h6
  exact ⟨⟨h1, h2, h3⟩, h4, h5, h6⟩

lemma Bounded.fresh (hr : p.pbs_rtime = 0) (hw : p.pbs_wtime = 0) (hs : p.pbs_stime = 0)
    (hlo : -2 ^ 31 ≤ p.pbs_static_priority) (hhi : p.pbs_static_priority ≤ 2147483498) :
    Bounded p := by
  refine ⟨⟨by omega, by omega, by omega⟩, ?_, hlo, hhi⟩
  rw [hr, hw, hs]
  decide

lemma Bounded.exactIndex (h : Bounded p) : ExactIndex p := by
  obtain ⟨⟨hr, hw, hs⟩, ⟨h1, h2, h3⟩, -, -⟩ := h
  constructor <;> unfold InInt <;> omega

lemma Bounded.noWrap (h : Bounded p) : NoWrap p := by
  have hi := h.exactIndex
  have hlo := rbi_nonneg p
  have hle := rbi_le hi h.counts
  have h1 := h.static_lo
  have h2 := h.static_hi
  have hr := h.counts.rtime
  have hw := h.counts.wtime
  have hs := h.counts.stime
  refine ⟨hi.temp_eq, hi.temp1_eq, int_of ⟨by omega, by omega⟩, ?_⟩
  rw [hi.temp1_eq]
  omega

/-! ### Steps -/

lemma bounded_update_time (h : Bounded p) (ht : InTime p) : Bounded (update_time p) := by
  have hkeep := h
  obtain ⟨⟨hr, hw, hs⟩, ⟨h1, h2, h3⟩, hlo, hhi⟩ := h
  obtain ⟨hrun, hoff⟩ := ht
  unfold Room at hrun hoff
  unfold update_time
  rcases hst : p.state with _ | _ | _ | _ | _ | _ <;>
    simp only [hst, reduceCtorEq, if_true, if_false]
  · exact hkeep.congr rfl rfl rfl rfl
  · exact hkeep.congr rfl rfl rfl rfl
  · have hroom := hoff (Or.inr hst)
    have hint : int (p.pbs_stime + 1) = p.pbs_stime + 1 := int_of ⟨by omega, by omega⟩
    rw [hint]
    exact ⟨⟨hr, hw, by dsimp only; omega⟩, by unfold Room; dsimp only; omega, hlo, hhi⟩
  · have hroom := hoff (Or.inl hst)
    have hint : int (p.pbs_wtime + 1) = p.pbs_wtime + 1 := int_of ⟨by omega, by omega⟩
    rw [hint]
    exact ⟨⟨hr, by dsimp only; omega, hs⟩, by unfold Room; dsimp only; omega, hlo, hhi⟩
  · have hroom := hrun hst
    have hint : int (p.pbs_rtime + 1) = p.pbs_rtime + 1 := int_of ⟨by omega, by omega⟩
    rw [hint]
    exact ⟨⟨by dsimp only; omega, hw, hs⟩, by unfold Room; dsimp only; omega, hlo, hhi⟩
  · exact hkeep.congr rfl rfl rfl rfl

lemma bounded_wakeup {chan : ℕ} (h : Bounded p) : Bounded (wakeup chan p) := by
  unfold wakeup
  split_ifs
  · exact h.congr rfl rfl rfl rfl
  · exact h

lemma bounded_kill {pid : ℤ} (h : Bounded p) : Bounded (kill pid p) := by
  unfold kill
  split_ifs
  · exact h.congr rfl rfl rfl rfl
  · exact h.congr rfl rfl rfl rfl
  · exact h

lemma bounded_setpriority {pid : ℤ} {priority : BitVec 32} (h : Bounded p)
    (hle : p.pid = pid → priority.toInt ≤ 2147483498) :
    Bounded (setpriority pid priority.toInt p) := by
  unfold setpriority
  split_ifs with hpid
  · exact ⟨⟨h.counts.rtime, h.counts.wtime, h.counts.stime⟩, h.room, BitVec.le_toInt priority,
      hle hpid⟩
  · exact h

lemma all_on {Q : Proc → Prop} {f : Proc → Proc} (h : ∀ j, Q (s.proc j)) (hf : Q (f (s.proc i))) :
    ∀ j, Q ((on i f s).proc j) := by
  intro j
  unfold PbsRuns.on
  dsimp only
  by_cases hj : j = i
  · subst hj
    rw [Function.update_self]
    exact hf
  · rw [Function.update_of_ne hj]
    exact h j

lemma all_onState {Q : Proc → Prop} {st : ProcState} {f : Proc → Proc} (h : ∀ j, Q (s.proc j))
    (hf : (s.proc i).state = st → Q (f (s.proc i))) : ∀ j, Q ((onState i st f s).proc j) := by
  unfold PbsRuns.onState
  split_ifs with hst
  · exact all_on h (hf hst)
  · exact h

/-- Every slot is within bounds. -/
def AllBounded (s : Sys) : Prop := ∀ i, Bounded (s.proc i)

lemma AllBounded.on {f : Proc → Proc} (h : AllBounded s) (hf : Bounded (f (s.proc i))) :
    AllBounded (on i f s) := all_on h hf

lemma AllBounded.onState {st : ProcState} {f : Proc → Proc} (h : AllBounded s)
    (hf : Bounded (f (s.proc i))) : AllBounded (onState i st f s) := all_onState h fun _ => hf

/-- A moderate step keeps every slot within bounds. -/
lemma step_bounded (h : AllBounded s) (e : Event) (he : Moderate s e) :
    AllBounded (step s e) := by
  cases e with
  | allocproc i =>
    unfold step
    dsimp only
    split_ifs
    · have hf : Bounded (usedProc s.nextpid s.ticks (s.proc i)) :=
        Bounded.fresh rfl rfl rfl (by norm_num [usedProc]) (by norm_num [usedProc])
      exact h.on hf
    · exact h
  | freeproc i =>
    unfold step
    dsimp only
    split_ifs
    · have hf : Bounded (Pbs.freeproc (s.proc i)) :=
        Bounded.fresh rfl rfl rfl (by norm_num [Pbs.freeproc]) (by norm_num [Pbs.freeproc])
      exact h.on hf
    · exact h
  | start i => exact h.onState ((h i).congr rfl rfl rfl rfl)
  | pick i => exact h.onState (Bounded.fresh rfl rfl rfl (h i).static_lo (h i).static_hi)
  | yield i => exact h.onState ((h i).congr rfl rfl rfl rfl)
  | sleep i chan => exact h.onState ((h i).congr rfl rfl rfl rfl)
  | wakeup i chan => exact h.on (bounded_wakeup (h i))
  | kill i pid => exact h.on (bounded_kill (h i))
  | exit i status => exact h.onState ((h i).congr rfl rfl rfl rfl)
  | tick => exact h
  | update_time i => exact h.on (bounded_update_time (h i) he)
  | dp_priority i =>
    exact h.onState (f := fun p => (Pbs.dp_priority p).2) ((h i).congr rfl rfl rfl rfl)
  | setpriority i pid priority => exact h.on (bounded_setpriority (h i) he)
  | sdp_priority i =>
    exact h.on (f := fun p => (Pbs.sdp_priority p).2) ((h i).congr rfl rfl rfl rfl)

lemma run_bounded (es : List Event) : ∀ {s : Sys}, AllBounded s → ModerateRun s es →
    AllBounded (run s es) := by
  induction es with
  | nil => intro s h _; exact h
  | cons e es ih => intro s h hm; exact ih (step_bounded h e hm.1) hm.2

/-- **When the priority arithmetic is exact**: in every run from power-on whose ticks are counted
with room for them and in which no static priority above `2147483498` is stored, no expression of
`dp_priority` wraps for any process. -/
theorem priority_exact_of_moderate (es : List Event) (h : ModerateRun init es) (i : Fin NPROC) :
    NoWrap ((run init es).proc i) := by
  refine (run_bounded es (fun j => ?_) h i).noWrap
  exact Bounded.fresh rfl rfl rfl (by norm_num [init, zeroProc]) (by norm_num [init, zeroProc])

/-- The first slot. -/
def slot0 : Fin NPROC := ⟨0, NPROC_pos⟩

/-- The first process starts, is picked and runs for a tick. -/
def firstTick : List Event :=
  [.allocproc slot0, .start slot0, .dp_priority slot0, .pick slot0, .tick, .update_time slot0]

theorem priority_exact_first_tick : NoWrap ((run init firstTick).proc slot0) :=
  priority_exact_of_moderate firstTick
    ⟨trivial, trivial, trivial, trivial, trivial, by decide, trivial⟩ slot0

/-- After its first tick the process sets its own priority to the largest `int`: the sum of the
static priority and the index wraps. -/
theorem priority_wraps :
    ¬ NoWrap ((run init (firstTick ++ [.setpriority slot0 1#32 2147483647#32])).proc slot0) := by
  decide

end Xv6.PbsRuns
