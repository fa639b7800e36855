import Xv6.Calls

/-!
The times `waitx` reports. The clock interrupt advances `ticks` and then charges the slots one after
another, and the other processors create, pick and end processes in between. A process created after
the advance and running when its slot is charged gets a tick of running time for a tick it did not
live through.
-/

namespace Xv6.WaitTimes

open Xv6.Riscv Xv6.CInt Xv6.Pbs Xv6.PbsRuns Xv6.Calls
open Xv6.Process (ProcState)

/-- The clock interrupt counts and charges. -/
def ofClock : Event → Bool
  | .tick => true
  | .update_time _ => true
  | _ => false

structure St where
  sys : Sys
  /-- The slot that `update_time` charges next; `NPROC` while the handler is not at work. -/
  next : ℕ

inductive Step
  | clockintr
  | charge
  | other (e : Event) (he : ofClock e = false)

def step (s : St) : Step → St
  | .clockintr => if s.next = NPROC then ⟨PbsRuns.step s.sys .tick, 0⟩ else s
  | .charge =>
    if h : s.next < NPROC then ⟨PbsRuns.step s.sys (.update_time ⟨s.next, h⟩), s.next + 1⟩ else s
  | .other e _ => { s with sys := PbsRuns.step s.sys e }

def init : St := ⟨PbsRuns.init, NPROC⟩

/-- `ticks` does not wrap, and no running process is charged that was created since `ticks` was
advanced. -/
def InOrder (s : St) : Step → Prop
  | .clockintr => s.sys.ticks + 1 < 2 ^ 32
  | .charge => ∀ i : Fin NPROC, i = s.next → (s.sys.proc i).state = .RUNNING →
      (s.sys.proc i).ctime ≠ s.sys.ticks
  | .other _ _ => True

instance (s : St) (e : Step) : Decidable (InOrder s e) := by
  cases e <;> unfold InOrder <;> infer_instance

/-- The times of a slot on tick `ticks`, which the handler has still to charge or not. -/
structure Timed (ticks : ℕ) (due : Prop) (p : Proc) : Prop where
  lived : p.state ≠ .UNUSED → p.state ≠ .ZOMBIE → p.ctime + p.rtime ≤ ticks
  room : p.state ≠ .UNUSED → p.state ≠ .ZOMBIE → due → p.ctime < ticks → p.ctime + p.rtime < ticks
  ended : p.state = .ZOMBIE → p.ctime + p.rtime ≤ p.etime ∧ p.etime < 2 ^ 32

variable {p q : Proc} {ticks : ℕ} {due due' : Prop} {s : St} {i : Fin NPROC}

lemma Timed.congr (h : Timed ticks due p) (hd : due' → due)
    (halive : q.state ≠ .UNUSED → q.state ≠ .ZOMBIE → p.state ≠ .UNUSED ∧ p.state ≠ .ZOMBIE)
    (hz : q.state = .ZOMBIE → p.state = .ZOMBIE) (hc : q.ctime = p.ctime) (hr : q.rtime = p.rtime)
    (he : q.etime = p.etime) : Timed ticks due' q := by
  refine ⟨fun h1 h2 => ?_, fun h1 h2 hdue => ?_, fun h1 => ?_⟩
  · rw [hc, hr]
    exact h.lived (halive h1 h2).1 (halive h1 h2).2
  · rw [hc, hr]
    exact h.room (halive h1 h2).1 (halive h1 h2).2 (hd hdue)
  · rw [hc, hr, he]
    exact h.ended (hz h1)

lemma Timed.alive (h : Timed ticks due p) (hp : p.state ≠ .UNUSED ∧ p.state ≠ .ZOMBIE)
    (hq : q.state ≠ .ZOMBIE) (hc : q.ctime = p.ctime) (hr : q.rtime = p.rtime)
    (he : q.etime = p.etime) : Timed ticks due q :=
  h.congr id (fun _ _ => hp) (fun h => absurd h hq) hc hr he

lemma Timed.unused (h : p.state = .UNUSED) : Timed ticks due p :=
  ⟨fun h1 => absurd h h1, fun h1 => absurd h h1, fun h1 => by rw [h] at h1; cases h1⟩

lemma update_time_times (p : Proc) : (update_time p).state = p.state ∧
    (update_time p).ctime = p.ctime ∧ (update_time p).etime = p.etime ∧
    (update_time p).rtime = if p.state = .RUNNING then uint (p.rtime + 1) else p.rtime := by
  unfold update_time
  rcases hst : p.state with _ | _ | _ | _ | _ | _ <;> simp [hst]

lemma Timed.charge (h : Timed ticks True p) (hlt : ticks < 2 ^ 32)
    (hold : p.state = .RUNNING → p.ctime ≠ ticks) : Timed ticks False (update_time p) := by
  obtain ⟨hs, hc, he, hr⟩ := update_time_times p
  by_cases hrun : p.state = .RUNNING
  · have h1 := h.lived (by rw [hrun]; simp) (by rw [hrun]; simp)
    have h2 := hold hrun
    have h3 := h.room (by rw [hrun]; simp) (by rw [hrun]; simp) trivial (by omega)
    have hint : uint (p.rtime + 1) = p.rtime + 1 := Nat.mod_eq_of_lt (by omega)
    rw [if_pos hrun, hint] at hr
    refine ⟨fun _ _ => by omega, fun _ _ hno => hno.elim, fun hz => ?_⟩
    rw [hs, hrun] at hz
    cases hz
  · rw [if_neg hrun] at hr
    exact h.congr False.elim (fun h1 h2 => by rw [hs] at h1 h2; exact ⟨h1, h2⟩)
      (fun hz => hs ▸ hz) hc hr he

/-- The times of all slots. -/
structure Fair (s : St) : Prop where
  ticks : s.sys.ticks < 2 ^ 32
  next : s.next ≤ NPROC
  times : ∀ i : Fin NPROC, Timed s.sys.ticks (s.next ≤ i) (s.sys.proc i)

lemma Fair.on {f : Proc → Proc} (h : Fair s)
    (hf : Timed s.sys.ticks (s.next ≤ i) (f (s.sys.proc i))) : Fair { s with sys := on i f s.sys } := by
  refine ⟨h.ticks, h.next, fun j => ?_⟩
  unfold PbsRuns.on
  dsimp only
  by_cases hj : j = i
  · subst hj
    rw [Function.update_self]
    exact hf
  · rw [Function.update_of_ne hj]
    exact h.times j

lemma Fair.onState {f : Proc → Proc} {st : ProcState} (h : Fair s)
    (hf : (s.sys.proc i).state = st → Timed s.sys.ticks (s.next ≤ i) (f (s.sys.proc i))) :
    Fair { s with sys := onState i st f s.sys } := by
  unfold PbsRuns.onState
  split_ifs with hst
  · exact h.on (hf hst)
  · exact h

lemma Fair.moves {f : Proc → Proc} {st : ProcState} (h : Fair s)
    (hst : st ≠ .UNUSED ∧ st ≠ .ZOMBIE) (hf : ∀ p, (f p).state ≠ .ZOMBIE ∧
      (f p).ctime = p.ctime ∧ (f p).rtime = p.rtime ∧ (f p).etime = p.etime) :
    Fair { s with sys := PbsRuns.onState i st f s.sys } := by
  refine h.onState fun hi => ?_
  obtain ⟨hz, hc, hr, he⟩ := hf (s.sys.proc i)
  exact (h.times i).alive (by rwa [hi]) hz hc hr he

lemma Fair.other (h : Fair s) (e : Event) (he : ofClock e = false) :
    Fair { s with sys := PbsRuns.step s.sys e } := by
  cases e with
  | tick => cases he
  | update_time i => cases he
  | allocproc i =>
    unfold PbsRuns.step
    dsimp only
    split_ifs
    · have hnew : Fair { s with sys := PbsRuns.on i (usedProc s.sys.nextpid s.sys.ticks) s.sys } :=
        h.on ⟨fun _ _ => le_rfl, fun _ _ _ hlt => absurd hlt (lt_irrefl _), fun hz => by cases hz⟩
      exact ⟨hnew.ticks, hnew.next, hnew.times⟩
    · exact h
  | freeproc i =>
    unfold PbsRuns.step
    dsimp only
    split_ifs
    · exact h.on (f := Pbs.freeproc) (Timed.unused rfl)
    · exact h
  | start i => exact h.moves (by simp) fun p => ⟨by simp, rfl, rfl, rfl⟩
  | pick i => exact h.moves (by simp) fun p => ⟨by simp [PbsRuns.pick], rfl, rfl, rfl⟩
  | yield i => exact h.moves (by simp) fun p => ⟨by simp, rfl, rfl, rfl⟩
  | sleep i chan => exact h.moves (by simp) fun p => ⟨by simp, rfl, rfl, rfl⟩
  | exit i status =>
    refine h.onState fun hi => ⟨fun _ hz => absurd rfl hz, fun _ hz => absurd rfl hz, fun _ => ?_⟩
    exact ⟨(h.times i).lived (by rw [hi]; simp) (by rw [hi]; simp), h.ticks⟩
  | wakeup i chan =>
    refine h.on ?_
    unfold PbsRuns.wakeup
    split_ifs with hs
    · exact (h.times i).alive (by rw [hs.1]; simp) (by simp) rfl rfl rfl
    · exact h.times i
  | kill i pid =>
    refine h.on ?_
    unfold PbsRuns.kill
    split_ifs with _ hs
    · exact (h.times i).alive (by rw [hs]; simp) (by simp) rfl rfl rfl
    · exact (h.times i).congr id (fun h1 h2 => ⟨h1, h2⟩) id rfl rfl rfl
    · exact h.times i
  | dp_priority i =>
    exact h.onState (f := fun p => (Pbs.dp_priority p).2) fun _ =>
      (h.times i).congr id (fun h1 h2 => ⟨h1, h2⟩) id rfl rfl rfl
  | setpriority i pid priority =>
    refine h.on ?_
    unfold PbsRuns.setpriority
    split_ifs
    · exact (h.times i).congr id (fun h1 h2 => ⟨h1, h2⟩) id rfl rfl rfl
    · exact h.times i
  | sdp_priority i =>
    exact h.on (f := fun p => (Pbs.sdp_priority p).2)
      ((h.times i).congr id (fun h1 h2 => ⟨h1, h2⟩) id rfl rfl rfl)

/-- A step in order keeps the times fair. -/
lemma step_fair (s : St) (e : Step) (h : Fair s) (he : InOrder s e) : Fair (step s e) := by
  cases e with
  | clockintr =>
    unfold step
    dsimp only
    split_ifs with hn
    · have hint : uint (s.sys.ticks + 1) = s.sys.ticks + 1 := Nat.mod_eq_of_lt he
      refine ⟨?_, Nat.zero_le _, fun i => ?_⟩
      · change uint (s.sys.ticks + 1) < 2 ^ 32
        rw [hint]
        exact he
      · change Timed (uint (s.sys.ticks + 1)) (0 ≤ i.val) (s.sys.proc i)
        rw [hint]
        have hi := h.times i
        exact ⟨fun h1 h2 => by have := hi.lived h1 h2; omega,
          fun h1 h2 _ _ => by have := hi.lived h1 h2; omega, hi.ended⟩
    · exact h
  | charge =>
    unfold step
    dsimp only
    split_ifs with hn
    · refine ⟨h.ticks, hn, fun j => ?_⟩
      have hi := h.times ⟨s.next, hn⟩
      have hcharged : Timed s.sys.ticks False (PbsRuns.update_time (s.sys.proc ⟨s.next, hn⟩)) :=
        (hi.congr (fun _ => le_rfl) (fun h1 h2 => ⟨h1, h2⟩) id rfl rfl rfl).charge h.ticks
          (he ⟨s.next, hn⟩ rfl)
      change Timed s.sys.ticks (s.next + 1 ≤ j.val)
        (Function.update s.sys.proc ⟨s.next, hn⟩ _ j)
      by_cases hj : j = ⟨s.next, hn⟩
      · subst hj
        rw [Function.update_self]
        exact hcharged.congr (fun hle => absurd hle (by dsimp only; omega))
          (fun h1 h2 => ⟨h1, h2⟩) id rfl rfl rfl
      · rw [Function.update_of_ne hj]
        exact (h.times j).congr (fun hle => by omega) (fun h1 h2 => ⟨h1, h2⟩) id rfl rfl rfl
    · exact h
  | other e hc => exact h.other e hc

lemma wtime_eq (h : p.ctime + p.rtime ≤ p.etime) (hlt : p.etime < 2 ^ 32) :
    wtime p = p.etime - p.ctime - p.rtime := by
  unfold wtime uint
  omega

/-- The times of an exited process: it was not charged for longer than it lived, and the waiting
time that `waitx` computes is the rest of its lifetime. -/
def TimesFit (p : Proc) : Prop :=
  p.ctime ≤ p.etime ∧ p.rtime ≤ p.etime - p.ctime ∧ wtime p = p.etime - p.ctime - p.rtime ∧
    wtime p + p.rtime = p.etime - p.ctime

instance (p : Proc) : Decidable (TimesFit p) := inferInstanceAs (Decidable (_ ∧ _ ∧ _ ∧ _))

/-- **When `waitx` reports true times**: in every run from power-on in which `ticks` does not wrap
and the clock handler never charges a running process that was created since it advanced `ticks`,
the times of every exited process fit. -/
theorem times_fit (es : List Step) (h : Runs.Along step InOrder init es) (i : Fin NPROC)
    (hz : ((Runs.run step init es).sys.proc i).state = .ZOMBIE) :
    TimesFit ((Runs.run step init es).sys.proc i) := by
  have hinit : Fair init := ⟨by decide, le_rfl, fun j => Timed.unused rfl⟩
  obtain ⟨h1, h2⟩ := ((Runs.Along.inv step_fair es hinit h).times i).ended hz
  have h3 := wtime_eq h1 h2
  exact ⟨by omega, by omega, h3, by omega⟩

/-- The second slot. -/
def slot1 : Fin NPROC := ⟨1, one_lt_NPROC⟩

/-- The second process, created from the first, gets to run on another processor. -/
def child : List Step :=
  [.other (.allocproc slot1) rfl, .other (.start slot1) rfl, .other (.pick slot1) rfl]

def parent : List Step :=
  [.other (.allocproc slot0) rfl, .other (.start slot0) rfl, .other (.pick slot0) rfl]

def childExits : List Step := [.other (.exit slot1 0) rfl]

/-- A child that is created before the tick that it is charged for. -/
theorem times_fit_child : TimesFit ((Runs.run step init
    (parent ++ child ++ [.clockintr, .charge, .charge] ++ childExits)).sys.proc slot1) :=
  times_fit (parent ++ child ++ [.clockintr, .charge, .charge] ++ childExits) (by decide +kernel)
    slot1 (by decide +kernel)

/-- A child that is created, picked and charged within one clock interrupt, and exits: `waitx`
reports a waiting time of `4294967295`. -/
theorem times_underflow : ¬∀ es : List Step, ∀ i : Fin NPROC,
    (Runs.run step init es).sys.ticks < 2 ^ 32 →
    ((Runs.run step init es).sys.proc i).state = .ZOMBIE →
    TimesFit ((Runs.run step init es).sys.proc i) := by
  intro h
  have hno := h (parent ++ [.clockintr, .charge] ++ child ++ [.charge] ++ childExits)
    slot1 (by decide +kernel) (by decide +kernel)
  exact absurd hno (by decide +kernel)

end Xv6.WaitTimes
