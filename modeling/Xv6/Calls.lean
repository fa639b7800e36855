import Xv6.PbsRuns
import Xv6.Runs

/-!
The system calls that create, end, reap and kill processes, each as a whole, on the process table.
Memory and the caller's address space come in as the answers they give: whether there was memory
for a fork, whether the exit status could be copied out.
-/

namespace Xv6.Calls

open Xv6.Riscv Xv6.CInt Xv6.Pbs Xv6.PbsRuns
open Xv6.Process (ProcState)

/-- The address of a slot, as a sleep channel. -/
def procChan (i : Fin NPROC) : ℕ := i

/-- The slot of the first process. -/
def initproc : Fin NPROC := slot0

/-! ### The calls -/

def freeSlot (s : Sys) : Option (Fin NPROC) :=
  (List.finRange NPROC).find? fun i => (s.proc i).state = .UNUSED

/-- The new process, if a slot is free. -/
def allocproc (s : Sys) : Option (Fin NPROC) × Sys :=
  match freeSlot s with
  | none => (none, s)
  | some i => (some i, PbsRuns.step s (.allocproc i))

def fork (i : Fin NPROC) (memory : Bool) (s : Sys) : ℤ × Sys :=
  match allocproc s with
  | (none, s) => (-1, s)
  | (some np, s) =>
    if memory then
      ((s.proc np).pid, on np (fun p => { p with parent := some i, state := .RUNNABLE }) s)
    else (-1, on np Pbs.freeproc s)

/-- `wakeup` called by process `i`, which it passes over. -/
def wakeup (i : Fin NPROC) (chan : ℕ) (s : Sys) : Sys :=
  { s with proc := fun j => if j = i then s.proc j else PbsRuns.wakeup chan (s.proc j) }

def reparent (i : Fin NPROC) (s : Sys) : Sys :=
  let t : Sys := { s with proc := fun j =>
    if (s.proc j).parent = some i then { s.proc j with parent := some initproc } else s.proc j }
  if ∃ j, (s.proc j).parent = some i then wakeup i (procChan initproc) t else t

/-- `exit`; the first process panics, and nothing happens any more. -/
def exit (i : Fin NPROC) (status : BitVec 32) (s : Sys) : Sys :=
  if i = initproc then s
  else
    let s := reparent i s
    let s := match (s.proc i).parent with
      | some q => wakeup i (procChan q) s
      | none => s
    on i (fun p => { p with xstate := status.toInt, state := .ZOMBIE, etime := s.ticks }) s

/-- The first exited child. -/
def zombieChild (i : Fin NPROC) (s : Sys) : Option (Fin NPROC) :=
  (List.finRange NPROC).find? fun j =>
    (s.proc j).parent = some i ∧ (s.proc j).state = .ZOMBIE

/-- A scan of `wait`; nothing is returned when the caller goes to sleep. -/
def wait (i : Fin NPROC) (copied : Bool) (s : Sys) : Option ℤ × Sys :=
  match zombieChild i s with
  | some j =>
    if copied then (some (s.proc j).pid, on j Pbs.freeproc s) else (some (-1), s)
  | none =>
    if (∀ j, (s.proc j).parent ≠ some i) ∨ (s.proc i).killed ≠ 0 then (some (-1), s)
    else (none, on i (fun p => { p with chan := some (procChan i), state := .SLEEPING }) s)

/-- What `waitx` makes of the times of a child, in `uint` arithmetic. -/
def wtime (p : Proc) : ℕ := uint (uint (p.etime + 2 ^ 32 - p.ctime) + 2 ^ 32 - p.rtime)

/-- What `waitx` returns: a pid or `-1`, and the two times once a child was found. -/
structure Waitx where
  ret : ℤ
  times : Option (ℕ × ℕ)

def waitx (i : Fin NPROC) (copied : Bool) (s : Sys) : Option Waitx × Sys :=
  match zombieChild i s with
  | some j =>
    let times := (wtime (s.proc j), (s.proc j).rtime)
    if copied then (some ⟨(s.proc j).pid, some times⟩, on j Pbs.freeproc s)
    else (some ⟨-1, some times⟩, s)
  | none =>
    if (∀ j, (s.proc j).parent ≠ some i) ∨ (s.proc i).killed ≠ 0 then (some ⟨-1, none⟩, s)
    else (none, on i (fun p => { p with chan := some (procChan i), state := .SLEEPING }) s)

def killLoop (pid : ℤ) (s : Sys) : List (Fin NPROC) → ℤ × Sys
  | [] => (-1, s)
  | i :: is => if (s.proc i).pid = pid then (0, on i (PbsRuns.kill pid) s) else killLoop pid s is

def kill (pid : BitVec 32) (s : Sys) : ℤ × Sys := killLoop pid.toInt s (List.finRange NPROC)

/-! ### Sequences of calls -/

inductive Call
  | fork (i : Fin NPROC) (memory : Bool)
  | exit (i : Fin NPROC) (status : BitVec 32)
  | wait (i : Fin NPROC) (copied : Bool)
  | waitx (i : Fin NPROC) (copied : Bool)
  | kill (pid : BitVec 32)
  | pick (i : Fin NPROC)
  | yield (i : Fin NPROC)

/-- A call of a process, which is running. -/
def running (i : Fin NPROC) (s t : Sys) : Sys := if (s.proc i).state = .RUNNING then t else s

def step (s : Sys) : Call → Sys
  | .fork i memory => running i s (fork i memory s).2
  | .exit i status => running i s (exit i status s)
  | .wait i copied => running i s (wait i copied s).2
  | .waitx i copied => running i s (waitx i copied s).2
  | .kill pid => (kill pid s).2
  | .pick i => PbsRuns.step s (.pick i)
  | .yield i => PbsRuns.step s (.yield i)

/-- The system when the first process starts to run. -/
def boot : Sys := PbsRuns.run PbsRuns.init [.allocproc slot0, .start slot0, .pick slot0]

/-! ### Free slots -/

/-- A free slot has pid 0 and is not marked as killed. -/
def Idle (p : Proc) : Prop := p.state = .UNUSED → p.pid = 0 ∧ p.killed = 0

/-- What is promised of a call: `kill` reaches the processes with the pid and nothing else, and the
process of a `fork` is born unharmed. -/
def Correct (s : Sys) : Call → Prop
  | .kill pid =>
    ((kill pid s).1 = 0 ↔ ∃ i, (s.proc i).state ≠ .UNUSED ∧ (s.proc i).pid = pid.toInt) ∧
    ((kill pid s).1 ≠ 0 → (kill pid s).2 = s)
  | .fork _ _ => ∀ np, (allocproc s).1 = some np → ((allocproc s).2.proc np).killed = 0
  | _ => True

/-- `kill` is not called with 0 while a slot is free. -/
def NotIdle (s : Sys) : Call → Prop
  | .kill pid => pid = 0 → ∀ i, (s.proc i).state ≠ .UNUSED
  | _ => True

instance (s : Sys) (c : Call) : Decidable (NotIdle s c) := by
  cases c <;> unfold NotIdle <;> infer_instance

variable {s t : Sys} {i j : Fin NPROC} {c : Call} {pid : BitVec 32} {b : Bool}

lemma Idle.of_ne {p : Proc} (h : p.state ≠ .UNUSED) : Idle p := fun h0 => absurd h0 h

lemma idle_wakeup {p : Proc} {chan : ℕ} (h : Idle p) : Idle (PbsRuns.wakeup chan p) := by
  unfold PbsRuns.wakeup
  split_ifs
  · exact Idle.of_ne (by simp)
  · exact h

lemma freeSlot_some (h : freeSlot s = some i) : (s.proc i).state = .UNUSED := by
  simpa using List.find?_some h

lemma allocproc_some (h : (allocproc s).1 = some i) : (s.proc i).state = .UNUSED ∧
    (allocproc s).2 =
      { on i (usedProc s.nextpid s.ticks) s with nextpid := int (s.nextpid + 1) } := by
  unfold allocproc at h ⊢
  rcases hf : freeSlot s with _ | k
  · rw [hf] at h
    cases h
  · rw [hf] at h
    obtain rfl : k = i := by simpa using h
    have hfree := freeSlot_some hf
    refine ⟨hfree, ?_⟩
    dsimp only
    unfold PbsRuns.step
    dsimp only
    rw [if_pos hfree]

lemma allocproc_none (h : (allocproc s).1 = none) : (allocproc s).2 = s := by
  unfold allocproc at h ⊢
  rcases hf : freeSlot s with _ | k
  · rfl
  · rw [hf] at h
    cases h

lemma idle_fork (h : ∀ j, Idle (s.proc j)) : ∀ j, Idle ((fork i b s).2.proc j) := by
  unfold fork
  rcases hr : allocproc s with ⟨r, s1⟩
  rcases r with _ | np
  · have : s1 = s := by rw [← allocproc_none (s := s) (by rw [hr]), hr]
    subst this
    exact h
  · obtain ⟨-, hs1⟩ := allocproc_some (s := s) (i := np) (by rw [hr])
    rw [hr] at hs1
    dsimp only at hs1
    have h1 : ∀ j, Idle (s1.proc j) := by
      rw [hs1]
      exact all_on h (f := usedProc s.nextpid s.ticks) (Idle.of_ne (by simp [usedProc]))
    dsimp only
    split_ifs
    · exact all_on h1 (f := fun p => { p with parent := some i, state := .RUNNABLE })
        (Idle.of_ne (by simp))
    · exact all_on h1 (f := Pbs.freeproc) fun _ => ⟨rfl, rfl⟩

lemma idle_wakeups {chan : ℕ} (h : ∀ j, Idle (s.proc j)) :
    ∀ j, Idle ((wakeup i chan s).proc j) := by
  intro j
  unfold wakeup
  dsimp only
  split_ifs
  · exact h j
  · exact idle_wakeup (h j)

lemma idle_reparent (h : ∀ j, Idle (s.proc j)) : ∀ j, Idle ((reparent i s).proc j) := by
  have hset : ∀ j, Idle (if (s.proc j).parent = some i then
      { s.proc j with parent := some initproc } else s.proc j) := by
    intro j
    split_ifs
    · exact h j
    · exact h j
  unfold reparent
  dsimp only
  split_ifs
  · exact idle_wakeups hset
  · exact hset

lemma idle_exit {status : BitVec 32} (h : ∀ j, Idle (s.proc j)) :
    ∀ j, Idle ((exit i status s).proc j) := by
  unfold exit
  split_ifs
  · exact h
  · have hend : ∀ t : Sys, (∀ j, Idle (t.proc j)) → ∀ j, Idle ((on i (fun p =>
        { p with xstate := status.toInt, state := .ZOMBIE, etime := t.ticks }) t).proc j) :=
      fun t ht => all_on ht (Idle.of_ne (by simp))
    dsimp only
    rcases ((reparent i s).proc i).parent with _ | q
    · exact hend _ (idle_reparent h)
    · exact hend _ (idle_wakeups (idle_reparent h))

lemma idle_wait (h : ∀ j, Idle (s.proc j)) : ∀ j, Idle ((wait i b s).2.proc j) := by
  unfold wait
  rcases zombieChild i s with _ | k
  · dsimp only
    split_ifs
    · exact h
    · exact all_on h (f := fun p => { p with chan := some (procChan i), state := .SLEEPING })
        (Idle.of_ne (by simp))
  · dsimp only
    split_ifs
    · exact all_on h (f := Pbs.freeproc) fun _ => ⟨rfl, rfl⟩
    · exact h

lemma waitx_table : (waitx i b s).2 = (wait i b s).2 := by
  unfold waitx wait
  rcases zombieChild i s with _ | k
  · dsimp only
    split_ifs <;> rfl
  · dsimp only
    split_ifs <;> rfl

/-! ### `kill` -/

lemma killLoop_spec {pid : ℤ} (l : List (Fin NPROC)) :
    (killLoop pid s l = (-1, s) ∧ ∀ i ∈ l, (s.proc i).pid ≠ pid) ∨
    ∃ i ∈ l, (s.proc i).pid = pid ∧ killLoop pid s l = (0, on i (PbsRuns.kill pid) s) := by
  induction l with
  | nil => exact Or.inl ⟨rfl, by simp⟩
  | cons i l ih =>
    unfold killLoop
    split_ifs with hp
    · exact Or.inr ⟨i, List.mem_cons_self, hp, rfl⟩
    · obtain ⟨hrun, hno⟩ | ⟨j, hj, hpj, hrun⟩ := ih
      · refine Or.inl ⟨hrun, fun k hk => ?_⟩
        rcases List.mem_cons.mp hk with rfl | hk
        · exact hp
        · exact hno k hk
      · exact Or.inr ⟨j, List.mem_cons_of_mem _ hj, hpj, hrun⟩

lemma kill_spec (pid : BitVec 32) (s : Sys) :
    (kill pid s = (-1, s) ∧ ∀ i, (s.proc i).pid ≠ pid.toInt) ∨
    ∃ i, (s.proc i).pid = pid.toInt ∧ kill pid s = (0, on i (PbsRuns.kill pid.toInt) s) := by
  obtain ⟨h, hno⟩ | ⟨i, -, hi⟩ := @killLoop_spec s pid.toInt (List.finRange NPROC)
  · exact Or.inl ⟨h, fun i => hno i (List.mem_finRange i)⟩
  · exact Or.inr ⟨i, hi⟩

lemma live_of_pid (h : Idle (s.proc i)) (hc : NotIdle s (.kill pid))
    (hp : (s.proc i).pid = pid.toInt) : (s.proc i).state ≠ .UNUSED := by
  intro hfree
  have h0 := (h hfree).1
  have hpid : pid = 0 := by
    apply BitVec.toInt_inj.mp
    rw [← hp, h0]
    rfl
  exact hc hpid i hfree

lemma idle_kill (h : ∀ j, Idle (s.proc j)) (hc : NotIdle s (.kill pid)) :
    ∀ j, Idle ((kill pid s).2.proc j) := by
  obtain ⟨hk, -⟩ | ⟨i, hi, hk⟩ := kill_spec pid s
  · rw [hk]
    exact h
  · rw [hk]
    have hlive := live_of_pid (h i) hc hi
    refine all_on h (Idle.of_ne ?_)
    unfold PbsRuns.kill
    rw [if_pos hi]
    dsimp only
    split_ifs
    · simp
    · exact hlive

lemma kill_correct (h : ∀ j, Idle (s.proc j)) (hc : NotIdle s (.kill pid)) :
    Correct s (.kill pid) := by
  obtain ⟨hk, hno⟩ | ⟨i, hi, hk⟩ := kill_spec pid s
  · refine ⟨iff_of_false ?_ ?_, fun _ => ?_⟩
    · rw [hk]
      norm_num
    · rintro ⟨i, -, hi⟩
      exact hno i hi
    · rw [hk]
  · have h0 : (kill pid s).1 = 0 := by rw [hk]
    exact ⟨iff_of_true h0 ⟨i, live_of_pid (h i) hc hi, hi⟩, fun hne => absurd h0 hne⟩

/-! ### Runs -/

lemma step_idle (s : Sys) (c : Call) (h : ∀ j, Idle (s.proc j)) (hc : NotIdle s c) :
    ∀ j, Idle ((step s c).proc j) := by
  have hrun : ∀ (i : Fin NPROC) (t : Sys), (∀ j, Idle (t.proc j)) →
      ∀ j, Idle ((running i s t).proc j) := by
    intro i t ht
    unfold running
    split_ifs
    · exact ht
    · exact h
  cases c with
  | fork i memory => exact hrun i _ (idle_fork h)
  | exit i status => exact hrun i _ (idle_exit h)
  | wait i copied => exact hrun i _ (idle_wait h)
  | waitx i copied =>
    refine hrun i _ ?_
    rw [waitx_table]
    exact idle_wait h
  | kill pid => exact idle_kill h hc
  | pick i => exact all_onState h fun _ => Idle.of_ne (by simp [PbsRuns.pick])
  | yield i =>
    exact all_onState (f := fun p => { p with state := .RUNNABLE }) h fun _ => Idle.of_ne (by simp)

lemma correct_of_idle (s : Sys) (c : Call) (h : ∀ j, Idle (s.proc j)) (hc : NotIdle s c) :
    Correct s c := by
  cases c with
  | fork i memory =>
    intro np hnp
    obtain ⟨hfree, hs⟩ := allocproc_some hnp
    rw [hs]
    have hself : (on np (usedProc s.nextpid s.ticks) s).proc np =
        usedProc s.nextpid s.ticks (s.proc np) := Function.update_self _ _ _
    dsimp only
    rw [hself]
    exact (h np hfree).2
  | kill pid => exact kill_correct h hc
  | _ => trivial

/-- **When `kill` reaches processes only**: in every sequence of calls in which `kill(0)` is never
called while a slot is free, `kill` succeeds exactly when a process has the pid, changes nothing
otherwise, and every new process is born without the mark. -/
theorem kill_reaches_processes (cs : List Call) (h : Runs.Along step NotIdle boot cs) :
    Runs.Along step Correct boot cs := by
  have hzero : ∀ j, Idle (PbsRuns.init.proc j) := fun j _ => ⟨rfl, rfl⟩
  have hused : ∀ j, Idle ((PbsRuns.step PbsRuns.init (.allocproc slot0)).proc j) :=
    all_on hzero (f := usedProc 1 0) (Idle.of_ne (by simp [usedProc]))
  have hstart := @all_onState _ slot0 Idle .USED (fun p => { p with state := .RUNNABLE }) hused
    fun _ => Idle.of_ne (by simp)
  have hboot : ∀ j, Idle (boot.proc j) := @all_onState _ slot0 Idle .RUNNABLE PbsRuns.pick hstart
    fun _ => Idle.of_ne (by simp [PbsRuns.pick])
  exact Runs.Along.imp step_idle correct_of_idle cs hboot h

/-- A child that is killed, and reaped by its parent. -/
theorem kill_reaches_processes_child : Runs.Along step Correct boot
    [.fork slot0 true, .kill 2#32, .kill 3#32, .fork slot0 true] :=
  kill_reaches_processes [.fork slot0 true, .kill 2#32, .kill 3#32, .fork slot0 true]
    (by decide +kernel)

/-- `kill(0)` marks the first free slot, and the next child is born with the mark. -/
theorem kill_zero_marks : ¬∀ cs : List Call, Runs.Along step Correct boot cs := by
  intro h
  obtain ⟨-, hfork, -⟩ := h [.kill 0#32, .fork slot0 true]
  have hsome : (allocproc (step boot (.kill 0#32))).1 = some ⟨1, by unfold NPROC; norm_num⟩ := by
    decide +kernel
  have hkilled : ((allocproc (step boot (.kill 0#32))).2.proc
      ⟨1, by unfold NPROC; norm_num⟩).killed = 1 := by
    decide +kernel
  have := hfork _ hsome
  omega

end Xv6.Calls
