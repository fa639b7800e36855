import Xv6.PbsScale

/-!
The system call `setpriority` on a process table: whom it reports and changes, and when it gives up
the processor. The table is any that the sections of `proc.c` can leave before process ids run out:
a free slot has pid 0, and the processes have different pids, none of them 0.
-/

namespace Xv6.SetPriority

open Xv6.Riscv Xv6.CInt Xv6.Pbs
open Xv6.Process (ProcState)

/-- The slots of the process table; those in state `UNUSED` hold no process. -/
structure Table where
  proc : Fin NPROC → Proc
  free : ∀ i, (proc i).state = .UNUSED → (proc i).pid = 0
  pid_ne : ∀ i, (proc i).state ≠ .UNUSED → (proc i).pid ≠ 0
  unique : ∀ i j, (proc i).state ≠ .UNUSED → (proc j).state ≠ .UNUSED →
    (proc i).pid = (proc j).pid → i = j

/-! ### The tables of runs -/

section Runs

open Xv6.PbsRuns Xv6.PbsScale

/-- Process ids come from a counter that has not run over. -/
structure Pids (s : Sys) : Prop where
  free : ∀ i, (s.proc i).state = .UNUSED → (s.proc i).pid = 0
  live : ∀ i, (s.proc i).state ≠ .UNUSED → 0 < (s.proc i).pid ∧ (s.proc i).pid < s.nextpid
  unique : ∀ i j, (s.proc i).state ≠ .UNUSED → (s.proc j).state ≠ .UNUSED →
    (s.proc i).pid = (s.proc j).pid → i = j
  next : 0 < s.nextpid ∧ s.nextpid ≤ 2147483647

/-- A process is created only while there is a process id after its own. -/
def PidLeft (s : Sys) : Event → Prop
  | .allocproc _ => s.nextpid < 2147483647
  | _ => True

instance (s : Sys) (e : Event) : Decidable (PidLeft s e) :=
  match e with
  | .allocproc _ => inferInstanceAs (Decidable (s.nextpid < 2147483647))
  | .freeproc _ | .start _ | .pick _ | .yield _ | .sleep _ _ | .wakeup _ _ | .kill _ _
  | .exit _ _ | .tick | .update_time _ | .dp_priority _ | .setpriority _ _ _
  | .sdp_priority _ => isTrue trivial

/-- The slot is still in use, or still free, with the same pid. -/
def SamePid (p q : Proc) : Prop := (q.state = .UNUSED ↔ p.state = .UNUSED) ∧ q.pid = p.pid

variable {s : Sys} {i : Fin NPROC}

lemma Pids.on (h : Pids s) {f : Proc → Proc} (hf : SamePid (s.proc i) (f (s.proc i))) :
    Pids (on i f s) := by
  have hall : ∀ j, SamePid (s.proc j) ((PbsRuns.on i f s).proc j) := by
    intro j
    unfold PbsRuns.on
    dsimp only
    by_cases hj : j = i
    · subst hj
      rwa [Function.update_self]
    · rw [Function.update_of_ne hj]
      exact ⟨Iff.rfl, rfl⟩
  refine ⟨fun j hj => ?_, fun j hj => ?_, fun j k hj hk hjk => ?_, h.next⟩
  · rw [(hall j).2]
    exact h.free j ((hall j).1.mp hj)
  · rw [(hall j).2]
    exact h.live j fun h0 => hj ((hall j).1.mpr h0)
  · rw [(hall j).2, (hall k).2] at hjk
    exact h.unique j k (fun h0 => hj ((hall j).1.mpr h0)) (fun h0 => hk ((hall k).1.mpr h0)) hjk

lemma Pids.onState (h : Pids s) {st : ProcState} (st' : ProcState) {f : Proc → Proc} (hst : st ≠ .UNUSED)
    (hst' : st' ≠ .UNUSED) (hf : (f (s.proc i)).state = st' ∧ (f (s.proc i)).pid = (s.proc i).pid) :
    Pids (onState i st f s) := by
  unfold PbsRuns.onState
  split_ifs with hi
  · refine h.on ⟨iff_of_false ?_ ?_, hf.2⟩
    · rwa [hf.1]
    · rwa [hi]
  · exact h

lemma Pids.alloc (h : Pids s) (hfree : (s.proc i).state = .UNUSED)
    (hleft : s.nextpid < 2147483647) :
    Pids { PbsRuns.on i (usedProc s.nextpid s.ticks) s with nextpid := int (s.nextpid + 1) } := by
  have hnext : int (s.nextpid + 1) = s.nextpid + 1 :=
    int_of ⟨by have := h.next; omega, by have := h.next; omega⟩
  have hself : (PbsRuns.on i (usedProc s.nextpid s.ticks) s).proc i =
      usedProc s.nextpid s.ticks (s.proc i) := Function.update_self _ _ _
  have hother : ∀ j, j ≠ i →
      (PbsRuns.on i (usedProc s.nextpid s.ticks) s).proc j = s.proc j :=
    fun j hj => Function.update_of_ne hj _ _
  have hnew : (usedProc s.nextpid s.ticks (s.proc i)).pid = s.nextpid := rfl
  rw [hnext]
  refine ⟨fun j hj => ?_, fun j hj => ?_, fun j k hj hk hjk => ?_, ?_⟩
  · by_cases hji : j = i
    · subst hji
      dsimp only at hj
      rw [hself] at hj
      exact absurd hj (by simp [usedProc])
    · dsimp only at hj ⊢
      rw [hother j hji] at hj ⊢
      exact h.free j hj
  · by_cases hji : j = i
    · subst hji
      dsimp only
      rw [hself, hnew]
      exact ⟨h.next.1, by omega⟩
    · dsimp only at hj ⊢
      rw [hother j hji] at hj ⊢
      exact ⟨(h.live j hj).1, by have := (h.live j hj).2; omega⟩
  · dsimp only at hj hk hjk
    by_cases hji : j = i <;> by_cases hki : k = i
    · rw [hji, hki]
    · subst hji
      rw [hother k hki] at hk hjk
      rw [hself, hnew] at hjk
      have := (h.live k hk).2
      omega
    · subst hki
      rw [hother j hji] at hj hjk
      rw [hself, hnew] at hjk
      have := (h.live j hj).2
      omega
    · rw [hother j hji] at hj hjk
      rw [hother k hki] at hk hjk
      exact h.unique j k hj hk hjk
  · exact ⟨by have := h.next; dsimp only; omega, by dsimp only; omega⟩

lemma Pids.freed (h : Pids s) : Pids (PbsRuns.on i Pbs.freeproc s) := by
  have hself : (PbsRuns.on i Pbs.freeproc s).proc i = Pbs.freeproc (s.proc i) :=
    Function.update_self _ _ _
  have hother : ∀ j, j ≠ i → (PbsRuns.on i Pbs.freeproc s).proc j = s.proc j :=
    fun j hj => Function.update_of_ne hj _ _
  have hne : ∀ j, ((PbsRuns.on i Pbs.freeproc s).proc j).state ≠ .UNUSED → j ≠ i := by
    intro j hj hji
    subst hji
    rw [hself] at hj
    exact hj rfl
  refine ⟨fun j hj => ?_, fun j hj => ?_, fun j k hj hk hjk => ?_, h.next⟩
  · by_cases hji : j = i
    · subst hji
      rw [hself]
      rfl
    · rw [hother j hji] at hj ⊢
      exact h.free j hj
  · have hji := hne j hj
    rw [hother j hji] at hj ⊢
    exact h.live j hj
  · have hji := hne j hj
    have hki := hne k hk
    rw [hother j hji] at hj hjk
    rw [hother k hki] at hk hjk
    exact h.unique j k hj hk hjk

lemma step_pids (s : Sys) (e : Event) (h : Pids s) (he : PidLeft s e) : Pids (step s e) := by
  cases e with
  | allocproc i =>
    unfold step
    dsimp only
    split_ifs with hfree
    · exact h.alloc hfree he
    · exact h
  | freeproc i =>
    unfold step
    dsimp only
    split_ifs
    · exact h.freed
    · exact h
  | start i => exact h.onState .RUNNABLE (by simp) (by simp) ⟨rfl, rfl⟩
  | pick i => exact h.onState .RUNNING (by simp) (by simp) ⟨rfl, rfl⟩
  | yield i => exact h.onState .RUNNABLE (by simp) (by simp) ⟨rfl, rfl⟩
  | sleep i chan => exact h.onState .SLEEPING (by simp) (by simp) ⟨rfl, rfl⟩
  | exit i status => exact h.onState .ZOMBIE (by simp) (by simp) ⟨rfl, rfl⟩
  | wakeup i chan =>
    refine h.on ?_
    unfold PbsRuns.wakeup
    split_ifs with hs
    · exact ⟨iff_of_false (by simp) (by simp [hs.1]), rfl⟩
    · exact ⟨Iff.rfl, rfl⟩
  | kill i pid =>
    refine h.on ?_
    unfold PbsRuns.kill
    split_ifs with _ hs
    · exact ⟨iff_of_false (by simp) (by simp [hs]), rfl⟩
    · exact ⟨Iff.rfl, rfl⟩
    · exact ⟨Iff.rfl, rfl⟩
  | tick => exact ⟨h.free, h.live, h.unique, h.next⟩
  | update_time i =>
    refine h.on ?_
    unfold PbsRuns.update_time
    rcases hst : (s.proc i).state with _ | _ | _ | _ | _ | _ <;>
      simp [hst, SamePid]
  | dp_priority i =>
    unfold step PbsRuns.onState
    dsimp only
    split_ifs
    · exact h.on (f := fun p => (Pbs.dp_priority p).2) ⟨Iff.rfl, rfl⟩
    · exact h
  | setpriority i pid priority =>
    refine h.on ?_
    unfold PbsRuns.setpriority
    split_ifs
    · exact ⟨Iff.rfl, rfl⟩
    · exact ⟨Iff.rfl, rfl⟩
  | sdp_priority i => exact h.on (f := fun p => (Pbs.sdp_priority p).2) ⟨Iff.rfl, rfl⟩

lemma Pids.init : Pids init :=
  ⟨fun _ _ => rfl, fun _ h => absurd rfl h, fun _ _ h => absurd rfl h, by decide⟩

/-- The table after a run from power-on. -/
def ofRun (es : List Event) (h : Along PidLeft PbsRuns.init es) : Table :=
  have hp := Along.run step_pids es PbsRuns.init Pids.init h
  ⟨(run PbsRuns.init es).proc, hp.free, fun i hi => (hp.live i hi).1.ne', hp.unique⟩

/-- The first process after its first tick. -/
def oneTick : Table :=
  ofRun firstTick (by decide)

def slot1 : Fin NPROC := ⟨1, one_lt_NPROC⟩

/-- The first process has created a second one that was never picked. -/
def newChild : Table :=
  ofRun (firstTick ++ [.allocproc slot1, .start slot1]) (by decide)

end Runs

/-! ### The call -/

/-- The variables of `setpriority` between two turns of its loop. -/
structure Scan where
  found : Bool
  old_static_priority : ℤ
  proc : Fin NPROC → Proc

/-- The turn of slot `i`. -/
def turn (pid priority : ℤ) (c : Scan) (i : Fin NPROC) : Scan :=
  if (c.proc i).pid = pid then
    { found := true
      old_static_priority := (c.proc i).pbs_static_priority
      proc := Function.update c.proc i
        { c.proc i with pbs_static_priority := priority, pbs_rbi := 25 } }
  else c

def setpriority (pid priority : ℤ) (t : Fin NPROC → Proc) : ℤ × (Fin NPROC → Proc) :=
  let c := (List.finRange NPROC).foldl (turn pid priority) ⟨false, 0, t⟩
  (if c.found then c.old_static_priority else -1, c.proc)

/-- The first slot with the given pid. -/
def first (pid : ℤ) (t : Fin NPROC → Proc) : Option (Fin NPROC) :=
  (List.finRange NPROC).find? fun i => (t i).pid = pid

/-- What the call returns, the table it leaves, and whether it calls `yield`. -/
structure Outcome where
  ret : ℤ
  proc : Fin NPROC → Proc
  yields : Bool

/-- `sys_setpriority` once its two arguments are decoded. -/
def sys_setpriority (pid priority : BitVec 32) (t : Fin NPROC → Proc) : Outcome :=
  let r := setpriority pid.toInt priority.toInt t
  if r.1 ≠ -1 then
    match first pid.toInt r.2 with
    | some i =>
      let d := sdp_priority (r.2 i)
      ⟨r.1, Function.update r.2 i d.2, d.1 < (r.2 i).pbs_dynamic_priority⟩
    | none => ⟨r.1, r.2, false⟩
  else ⟨r.1, r.2, false⟩

/-! ### The scan -/

variable {pid priority : ℤ} {t : Fin NPROC → Proc} {i j : Fin NPROC}

lemma turns_proc (l : List (Fin NPROC)) : ∀ (c : Scan), l.Nodup → ∀ j,
    (l.foldl (turn pid priority) c).proc j =
      if j ∈ l then PbsRuns.setpriority pid priority (c.proc j) else c.proc j := by
  induction l with
  | nil => intro c _ j; simp
  | cons i l ih =>
    intro c hl j
    obtain ⟨hi, hl⟩ := List.nodup_cons.mp hl
    rw [List.foldl_cons, ih _ hl]
    have hother : j ≠ i → (turn pid priority c i).proc j = c.proc j := by
      intro hj
      unfold turn
      split_ifs
      · exact Function.update_of_ne hj _ _
      · rfl
    by_cases hj : j = i
    · subst hj
      rw [if_neg hi, if_pos List.mem_cons_self]
      unfold turn PbsRuns.setpriority
      split_ifs
      · exact Function.update_self _ _ _
      · rfl
    · rw [hother hj]
      simp only [List.mem_cons, hj, false_or]

lemma turns_found (l : List (Fin NPROC)) : ∀ (c : Scan), l.Nodup →
    ((l.foldl (turn pid priority) c).found = true ↔
      c.found = true ∨ ∃ j ∈ l, (c.proc j).pid = pid) := by
  induction l with
  | nil => intro c _; simp
  | cons i l ih =>
    intro c hl
    obtain ⟨hi, hl⟩ := List.nodup_cons.mp hl
    rw [List.foldl_cons, ih _ hl]
    unfold turn
    split_ifs with hp
    · simp [hp]
    · simp [hp]

/-- Where all matching slots have the same static priority, the loop ends with it. -/
lemma turns_old (v : ℤ) (l : List (Fin NPROC)) : ∀ (c : Scan), l.Nodup →
    (∀ j ∈ l, (c.proc j).pid = pid → (c.proc j).pbs_static_priority = v) →
    (c.found = true → c.old_static_priority = v) →
    (l.foldl (turn pid priority) c).found = true →
    (l.foldl (turn pid priority) c).old_static_priority = v := by
  induction l with
  | nil => intro c _ _ hold hf; exact hold hf
  | cons i l ih =>
    intro c hl hv hold hf
    obtain ⟨hi, hl⟩ := List.nodup_cons.mp hl
    rw [List.foldl_cons] at hf ⊢
    refine ih _ hl ?_ ?_ hf
    · intro j hj hp
      have hne : j ≠ i := fun h => hi (h ▸ hj)
      have hsame : (turn pid priority c i).proc j = c.proc j := by
        unfold turn
        split_ifs
        · exact Function.update_of_ne hne _ _
        · rfl
      rw [hsame] at hp ⊢
      exact hv j (List.mem_cons_of_mem _ hj) hp
    · intro hf'
      unfold turn at hf' ⊢
      split_ifs at hf' ⊢ with hp
      · exact hv i List.mem_cons_self hp
      · exact hold hf'

lemma setpriority_proc (pid priority : ℤ) (t : Fin NPROC → Proc) (j : Fin NPROC) :
    (setpriority pid priority t).2 j = PbsRuns.setpriority pid priority (t j) := by
  unfold setpriority
  dsimp only
  rw [turns_proc _ _ (List.nodup_finRange NPROC), if_pos (List.mem_finRange j)]

lemma setpriority_absent (h : ∀ j, (t j).pid ≠ pid) : (setpriority pid priority t).1 = -1 := by
  unfold setpriority
  refine if_neg fun hf => ?_
  obtain h0 | ⟨j, -, hj⟩ := (turns_found _ _ (List.nodup_finRange NPROC)).mp hf
  · exact absurd h0 (by simp)
  · exact h j hj

lemma setpriority_same {v : ℤ} (hj : (t j).pid = pid)
    (hv : ∀ j, (t j).pid = pid → (t j).pbs_static_priority = v) :
    (setpriority pid priority t).1 = v := by
  have hf : ((List.finRange NPROC).foldl (turn pid priority) ⟨false, 0, t⟩).found = true :=
    (turns_found _ _ (List.nodup_finRange NPROC)).mpr (Or.inr ⟨j, List.mem_finRange j, hj⟩)
  unfold setpriority
  dsimp only
  rw [if_pos hf]
  exact turns_old v _ _ (List.nodup_finRange NPROC) (fun k _ => hv k) (fun h => absurd h (by simp))
    hf

lemma first_some (h : first pid t = some i) : (t i).pid = pid := by
  have := List.find?_some h
  simpa using this

lemma first_none (h : first pid t = none) : (t j).pid ≠ pid := by
  have := List.find?_eq_none.mp h j (List.mem_finRange j)
  simpa using this

lemma section_pid (p : Proc) : (PbsRuns.setpriority pid priority p).pid = p.pid := by
  unfold PbsRuns.setpriority
  split_ifs <;> rfl

lemma section_of_ne {p : Proc} (h : p.pid ≠ pid) : PbsRuns.setpriority pid priority p = p :=
  if_neg h

/-! ### The outcome -/

/-- Slot `i` holds the process with the given pid. -/
def Live (T : Table) (pid : BitVec 32) (i : Fin NPROC) : Prop :=
  (T.proc i).state ≠ .UNUSED ∧ (T.proc i).pid = pid.toInt

instance (T : Table) (pid : BitVec 32) (i : Fin NPROC) : Decidable (Live T pid i) :=
  inferInstanceAs (Decidable (_ ∧ _))

variable {T : Table} {a b : BitVec 32}

lemma Live.only (h : Live T a i) (hj : (T.proc j).pid = a.toInt) : j = i := by
  have hlive : (T.proc j).state ≠ .UNUSED := by
    intro hfree
    have h0 := T.free j hfree
    have hne := T.pid_ne i h.1
    rw [h.2] at hne
    omega
  exact T.unique j i hlive h.1 (hj.trans h.2.symm)

lemma Live.ret (h : Live T a i) :
    (setpriority a.toInt priority T.proc).1 = (T.proc i).pbs_static_priority :=
  setpriority_same h.2 fun j hj => by rw [h.only hj]

lemma Live.other (h : Live T a i) (hj : j ≠ i) :
    (setpriority a.toInt priority T.proc).2 j = T.proc j := by
  rw [setpriority_proc]
  exact section_of_ne fun hp => hj (h.only hp)

lemma Live.self (h : Live T a i) : (setpriority a.toInt priority T.proc).2 i =
    { T.proc i with pbs_static_priority := priority, pbs_rbi := 25 } := by
  rw [setpriority_proc]
  exact if_pos h.2

lemma Live.first (h : Live T a i) :
    first a.toInt (setpriority a.toInt priority T.proc).2 = some i := by
  rcases hf : SetPriority.first a.toInt (setpriority a.toInt priority T.proc).2 with _ | k
  · have := first_none (j := i) hf
    rw [h.self] at this
    exact absurd h.2 this
  · have hk := first_some hf
    rw [setpriority_proc, section_pid] at hk
    rw [h.only hk]

lemma Live.outcome_error (h : Live T a i) (he : (T.proc i).pbs_static_priority = -1) :
    sys_setpriority a b T.proc = ⟨-1, (setpriority a.toInt b.toInt T.proc).2, false⟩ := by
  unfold sys_setpriority
  dsimp only
  rw [h.ret, he, if_neg (by simp)]

lemma Live.outcome (h : Live T a i) (he : (T.proc i).pbs_static_priority ≠ -1) :
    sys_setpriority a b T.proc =
      ⟨(T.proc i).pbs_static_priority,
        Function.update (setpriority a.toInt b.toInt T.proc).2 i
          (sdp_priority { T.proc i with pbs_static_priority := b.toInt, pbs_rbi := 25 }).2,
        dp { T.proc i with pbs_static_priority := b.toInt } <
          (T.proc i).pbs_dynamic_priority⟩ := by
  unfold sys_setpriority
  dsimp only
  rw [h.ret, if_pos he, h.first]
  dsimp only
  rw [h.self]
  rfl

/-! ### What is reported and changed -/

/-- The call fails exactly when no process has the pid, and then changes nothing; otherwise it
returns the target's static priority, replaces it, resets the index and changes nothing else. -/
structure Reports (T : Table) (pid priority : BitVec 32) (r : Outcome) : Prop where
  fails : r.ret = -1 ↔ ∀ i, ¬Live T pid i
  absent : (∀ i, ¬Live T pid i) → ∀ j, r.proc j = T.proc j
  target : ∀ i, Live T pid i →
    r.ret = (T.proc i).pbs_static_priority ∧
    (r.proc i).pbs_static_priority = priority.toInt ∧ (r.proc i).pbs_rbi = 25 ∧
    ∀ j, j ≠ i → r.proc j = T.proc j

/-- The target's static priority is not the error value and its counters give the index 25; where
there is no target, every free slot the scan takes for one already is as the call leaves it. -/
def Distinct (T : Table) (pid priority : BitVec 32) : Prop :=
  (∃ i, Live T pid i ∧ (T.proc i).pbs_static_priority ≠ -1 ∧ rbi (T.proc i) = 25) ∨
  ((∀ i, ¬Live T pid i) ∧ ∀ j, (T.proc j).pid = pid.toInt →
    priority.toInt = -1 ∧ (T.proc j).pbs_static_priority = -1 ∧ (T.proc j).pbs_rbi = 25)

lemma Live.reports (h : Live T a i) : Reports T a b (sys_setpriority a b T.proc) ↔
    (T.proc i).pbs_static_priority ≠ -1 ∧ rbi (T.proc i) = 25 := by
  constructor
  · intro hr
    have he : (T.proc i).pbs_static_priority ≠ -1 := by
      intro he
      exact hr.fails.mp ((hr.target i h).1.trans he) i h
    refine ⟨he, ?_⟩
    have hrbi := (hr.target i h).2.2.1
    rw [h.outcome he] at hrbi
    dsimp only at hrbi
    rw [Function.update_self] at hrbi
    exact hrbi
  · rintro ⟨he, hrbi⟩
    rw [h.outcome he]
    refine ⟨iff_of_false he fun hno => hno i h, fun hno => absurd h (hno i), ?_⟩
    intro k hk
    have hki : k = i := h.only hk.2
    subst hki
    dsimp only
    refine ⟨rfl, ?_, ?_, fun j hj => ?_⟩
    · rw [Function.update_self]
      rfl
    · rw [Function.update_self]
      exact hrbi
    · rw [Function.update_of_ne hj]
      exact h.other hj

lemma reports_absent (h : ∀ i, ¬Live T a i) : Reports T a b (sys_setpriority a b T.proc) ↔
    ∀ j, (T.proc j).pid = a.toInt →
      b.toInt = -1 ∧ (T.proc j).pbs_static_priority = -1 ∧ (T.proc j).pbs_rbi = 25 := by
  constructor
  · intro hr
    have hret : (setpriority a.toInt b.toInt T.proc).1 = -1 := by
      have := hr.fails.mpr h
      by_contra hne
      unfold sys_setpriority at this
      dsimp only at this
      rw [if_pos hne] at this
      split at this <;> exact hne this
    have hsame := hr.absent h
    unfold sys_setpriority at hsame
    dsimp only at hsame
    rw [if_neg (not_not.mpr hret)] at hsame
    have hmatch : ∀ j, (T.proc j).pid = a.toInt →
        (T.proc j).pbs_static_priority = b.toInt ∧ (T.proc j).pbs_rbi = 25 := by
      intro j hj
      have := hsame j
      dsimp only at this
      rw [setpriority_proc] at this
      unfold PbsRuns.setpriority at this
      rw [if_pos hj] at this
      rw [← this]
      exact ⟨rfl, rfl⟩
    intro j hj
    have hb : b.toInt = -1 := by
      rw [← hret]
      exact (setpriority_same hj fun k hk => (hmatch k hk).1).symm
    exact ⟨hb, (hmatch j hj).1.trans hb, (hmatch j hj).2⟩
  · intro hall
    have hret : (setpriority a.toInt b.toInt T.proc).1 = -1 := by
      by_cases hj : ∃ j, (T.proc j).pid = a.toInt
      · obtain ⟨j, hj⟩ := hj
        exact setpriority_same hj fun k hk => (hall k hk).2.1
      · exact setpriority_absent fun j hj' => hj ⟨j, hj'⟩
    unfold sys_setpriority
    dsimp only
    rw [if_neg (not_not.mpr hret)]
    refine ⟨iff_of_true hret h, fun _ j => ?_, fun i hi => absurd hi (h i)⟩
    dsimp only
    rw [setpriority_proc]
    unfold PbsRuns.setpriority
    split_ifs with hj
    · obtain ⟨hb, hs, hr⟩ := hall j hj
      rw [hb, ← hs, ← hr]
    · rfl

/-- **What `setpriority` reports and changes**: exactly its target, when the target's static
priority cannot be taken for an error and the recomputed index is the reset value; with no target,
only when no free slot answers to the pid in a way that shows. -/
theorem reports_iff (T : Table) (pid priority : BitVec 32) :
    Reports T pid priority (sys_setpriority pid priority T.proc) ↔ Distinct T pid priority := by
  by_cases h : ∃ i, Live T pid i
  · obtain ⟨i, hi⟩ := h
    rw [hi.reports]
    constructor
    · exact fun hc => Or.inl ⟨i, hi, hc⟩
    · rintro (⟨k, hk, hc⟩ | ⟨hno, -⟩)
      · rwa [hi.only hk.2] at hc
      · exact absurd hi (hno i)
  · have hno : ∀ i, ¬Live T pid i := fun i hi => h ⟨i, hi⟩
    rw [reports_absent hno]
    constructor
    · exact fun hc => Or.inr ⟨hno, hc⟩
    · rintro (⟨k, hk, -⟩ | ⟨-, hc⟩)
      · exact absurd hk (hno k)
      · exact hc

/-- The first process, after its first tick, lowers its own priority. -/
theorem setpriority_loses_reset : ¬∀ (T : Table) (pid priority : BitVec 32),
    Reports T pid priority (sys_setpriority pid priority T.proc) := by
  intro h
  have hlive : Live oneTick 1#32 PbsRuns.slot0 := by decide
  have hrbi := (hlive.reports.mp (h oneTick 1#32 80#32)).2
  have h75 : rbi (oneTick.proc PbsRuns.slot0) = 75 := by decide
  omega

/-! ### When the processor is given up -/

/-- The process after its static priority is replaced, with its counters as they are. -/
def withStatic (p : Proc) (priority : ℤ) : Proc := { p with pbs_static_priority := priority }

/-- The call yields exactly when the new static priority makes the target more urgent. -/
def YieldsIfUrgent (T : Table) (i : Fin NPROC) (priority : BitVec 32) (r : Outcome) : Prop :=
  r.yields = true ↔ dp (withStatic (T.proc i) priority.toInt) < dp (T.proc i)

/-- The priority stored for the target is as good as its current one for the comparison: the new
one does not lie between them. With a static priority of -1, that nothing is more urgent. -/
def FreshEnough (p : Proc) (priority : ℤ) : Prop :=
  if p.pbs_static_priority = -1 then dp p ≤ dp (withStatic p priority)
  else dp (withStatic p priority) < min (dp p) p.pbs_dynamic_priority ∨
    max (dp p) p.pbs_dynamic_priority ≤ dp (withStatic p priority)

instance (p : Proc) (priority : ℤ) : Decidable (FreshEnough p priority) := by
  unfold FreshEnough
  infer_instance

/-- **When `setpriority` yields as it should**: exactly when the new dynamic priority of the target
is not between its current one and the one stored when it was last computed. -/
theorem yields_iff (T : Table) (pid priority : BitVec 32) (i : Fin NPROC) (h : Live T pid i) :
    YieldsIfUrgent T i priority (sys_setpriority pid priority T.proc) ↔
      FreshEnough (T.proc i) priority.toInt := by
  unfold YieldsIfUrgent FreshEnough
  by_cases he : (T.proc i).pbs_static_priority = -1
  · rw [h.outcome_error he, if_pos he]
    constructor
    · intro hy
      exact not_lt.mp fun hlt => absurd (hy.mpr hlt) (by simp)
    · intro hle
      exact iff_of_false (by simp) (not_lt.mpr hle)
  · rw [h.outcome he, if_neg he, decide_eq_true_iff]
    change (dp (withStatic (T.proc i) priority.toInt) < _ ↔ _) ↔ _
    rw [lt_min_iff, max_le_iff]
    constructor
    · intro hy
      by_cases hlt : dp (withStatic (T.proc i) priority.toInt) < dp (T.proc i)
      · exact Or.inl ⟨hlt, hy.mpr hlt⟩
      · exact Or.inr ⟨not_lt.mp hlt, not_lt.mp fun hst => hlt (hy.mp hst)⟩
    · rintro (⟨h1, h2⟩ | ⟨h1, h2⟩)
      · exact iff_of_true h2 h1
      · exact iff_of_false (not_lt.mpr h2) (not_lt.mpr h1)

/-- The first process raises itself from 100 to 10. -/
theorem yields_iff_own : YieldsIfUrgent oneTick PbsRuns.slot0 10#32
      (sys_setpriority 1#32 10#32 oneTick.proc) ↔
    FreshEnough (oneTick.proc PbsRuns.slot0) 10 :=
  yields_iff oneTick 1#32 10#32 PbsRuns.slot0 (by decide)

/-- A parent that makes its new child more urgent keeps the processor: the stored priority of a
process that was never picked is 0. -/
theorem new_child_waits : ¬∀ (T : Table) (pid priority : BitVec 32) (i : Fin NPROC),
    Live T pid i → YieldsIfUrgent T i priority (sys_setpriority pid priority T.proc) := by
  intro h
  have hlive : Live newChild 2#32 slot1 := by decide
  have hy := h newChild 2#32 10#32 slot1 hlive
  have hs : (newChild.proc slot1).pbs_static_priority ≠ -1 := by decide
  have hd : (newChild.proc slot1).pbs_dynamic_priority = 0 := by decide
  have h10 : dp (withStatic (newChild.proc slot1) 10) = 10 := by decide
  have h50 : dp (newChild.proc slot1) = 50 := by decide
  unfold YieldsIfUrgent at hy
  rw [hlive.outcome hs, hd] at hy
  change (decide (dp (withStatic (newChild.proc slot1) 10) < 0) = true ↔
    dp (withStatic (newChild.proc slot1) 10) < _) at hy
  rw [h10, h50] at hy
  exact absurd (hy.mpr (by norm_num)) (by decide)

end Xv6.SetPriority
