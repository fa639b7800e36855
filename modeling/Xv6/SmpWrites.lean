import Xv6.SmpInv

/-!
What the sections write: for every slot of the process table, the few ways in which a section can
change it, each with the point of the code it belongs to.
-/

namespace Xv6.SmpWrites

open Xv6.Riscv Xv6.Pbs Xv6.Smp Xv6.SmpMoves Xv6.SmpInv
open Xv6.Process (ProcState)

/-- Only accounting and priorities differ. -/
structure Accounts (p p' : Proc) : Prop where
  state : p'.state = p.state
  chan : p'.chan = p.chan
  killed : p'.killed = p.killed
  xstate : p'.xstate = p.xstate
  pid : p'.pid = p.pid
  parent : p'.parent = p.parent

/-- How the section at `pc` may change slot `p`. -/
inductive Wrote (me : Option Slot) (ch : Choice) (pc : Pc) (d : Shared) (e : Effect) (p : Slot) :
    Prop
  | same (h : e.sh.proc p = d.proc p)
  | accounts (h : Accounts (d.proc p) (e.sh.proc p))
  | store (bad : Bool) (hpc : pc = .user) (hme : me = some p) (hch : ch = .store bad)
      (h : e.sh.proc p = { d.proc p with killed := if bad then 1 else 0 })
  | setkilled (k : Pc) (hpc : pc = .setkilled k) (hme : me = some p)
      (h : e.sh.proc p = { d.proc p with killed := 1 })
  | kill (pid : ℤ) (n : ℕ) (hpc : pc = .kill pid n) (hn : slotAt n = some p)
      (h : e.sh.proc p = PbsRuns.kill pid (d.proc p))
  | alloc (n : ℕ) (hpc : pc = .allocproc n) (hn : slotAt n = some p)
      (hst : (d.proc p).state = .UNUSED)
      (h : e.sh.proc p = usedProc d.nextpid d.ticks (d.proc p))
  | unalloc (n : ℕ) (hpc : pc = .allocproc n) (hn : slotAt n = some p)
      (hst : (d.proc p).state = .UNUSED)
      (h : e.sh.proc p = freeproc (usedProc d.nextpid d.ticks (d.proc p)))
  | forkParent (i : Slot) (hpc : pc = .forkParent p) (hme : me = some i)
      (h : e.sh.proc p = { d.proc p with parent := some i })
  | forkStart (hpc : pc = .forkStart p) (h : e.sh.proc p = { d.proc p with state := .RUNNABLE })
  | reparent (i : Slot) (status : ℤ) (n : ℕ) (hpc : pc = .reparent status n) (hme : me = some i)
      (hn : slotAt n = some p) (hpar : (d.proc p).parent = some i)
      (h : e.sh.proc p = { d.proc p with parent := some initproc })
  | exit (status : ℤ) (hpc : pc = .exitLock status) (hme : me = some p)
      (h : e.sh.proc p = { d.proc p with xstate := status, state := .ZOMBIE, etime := d.ticks })
  | reap (i : Slot) (x : Bool) (hpc : pc = .waitChild x p) (hme : me = some i)
      (hst : (d.proc p).state = .ZOMBIE) (h : e.sh.proc p = freeproc (d.proc p))
      (hlog : e.sh.log = d.log ++ [.freed p, .returned i p (d.proc p).pid (d.proc p).xstate])
  | sleep (chan : ℕ) (lk : Lock) (k : Pc) (hpc : pc = .sleep chan lk k) (hme : me = some p)
      (h : e.sh.proc p = { d.proc p with chan := some chan, state := .SLEEPING })
  | asleep (lk : Lock) (k : Pc) (hpc : pc = .asleep lk k) (hme : me = some p)
      (h : e.sh.proc p = { d.proc p with chan := none })
  | yield (k : Pc) (hpc : pc = .yield k) (hme : me = some p)
      (h : e.sh.proc p = { d.proc p with state := .RUNNABLE })
  | wakeup (chan n : ℕ) (k : Pc) (hpc : pc = .wakeup chan n k) (hn : slotAt n = some p)
      (hne : me ≠ some p) (h : e.sh.proc p = PbsRuns.wakeup chan (d.proc p))

variable {me : Option Slot} {pc k : Pc} {d d' : Shared} {e : Effect} {p q i : Slot} {b : Build}
  {ch : Choice} {n : ℕ}

lemma Wrote.on {f : Proc → Proc} (he : e.sh.proc = (d.on q f).proc)
    (hq : e.sh.proc q = f (d.proc q) → Wrote me ch pc d e q) : ∀ p, Wrote me ch pc d e p := by
  intro p
  by_cases hp : p = q
  · subst hp
    exact hq (by rw [he, on_self])
  · exact .same (by rw [he, on_other hp])

lemma accounts_tick (b : Build) (p : Proc) : Accounts p (tick b p) := by
  unfold tick PbsRuns.update_time
  cases b
  · dsimp only
    split_ifs <;> exact ⟨rfl, rfl, rfl, rfl, rfl, rfl⟩
  · rcases hs : p.state with _ | _ | _ | _ | _ | _ <;> constructor <;> simp [hs]

lemma accounts_setpriority (pid priority : ℤ) (p : Proc) :
    Accounts p (PbsRuns.setpriority pid priority p) := by
  unfold PbsRuns.setpriority
  split_ifs <;> exact ⟨rfl, rfl, rfl, rfl, rfl, rfl⟩

lemma accounts_dp (p : Proc) : Accounts p (dp_priority p).2 := ⟨rfl, rfl, rfl, rfl, rfl, rfl⟩

lemma sysSetpriorityEnd_wrote {pid : ℤ} {old : Option ℤ} (p : Slot) :
    Wrote me ch pc d (sysSetpriorityEnd pid old d) p := by
  unfold sysSetpriorityEnd
  split
  · exact .same rfl
  · split_ifs
    · exact .same rfl
    · split
      · exact .same rfl
      · exact Wrote.on rfl (fun h => .accounts (by rw [h]; exact accounts_dp _)) p

lemma usertrap_wrote (p : Slot) : Wrote (some i) ch .user d (usertrap i d ch) p := by
  cases ch
  case store bad => exact Wrote.on rfl (fun h => .store bad rfl rfl rfl h) p
  all_goals exact .same rfl

lemma allocproc_wrote (p : Slot) :
    Wrote (some i) ch (.allocproc n) d (procCode i ch d (.allocproc n)) p := by
  simp only [procCode]
  rcases hn : slotAt n with _ | q
  · exact .same rfl
  dsimp only
  split_ifs with h1 h2
  · exact .same rfl
  · push Not at h1
    by_cases hp : p = q
    · subst hp
      refine .unalloc n rfl hn h1 ?_
      change ((_ : Shared).on p freeproc).proc p = _
      rw [on_self]
      exact congrArg _ (on_self _)
    · refine .same ?_
      change ((_ : Shared).on q freeproc).proc p = _
      rw [on_other hp]
      exact on_other hp
  · push Not at h1
    exact Wrote.on rfl (fun h => .alloc n rfl hn h1 h) p

/-- **Every section writes in one of these ways.** -/
lemma code_wrote (h : Wf me pc) (hs : ¬ Switches pc) (p : Slot) :
    Wrote me ch pc d (code b me ch d pc) p := by
  cases pc
  case wakeup chan n k =>
    simp only [code]
    rcases hn : slotAt n with _ | q
    · exact .same rfl
    · dsimp only
      split_ifs with hq
      · exact .same rfl
      · exact Wrote.on rfl (fun h => .wakeup chan n k rfl hn (Ne.symm hq) h) p
  case update_time n k =>
    simp only [code]
    rcases hn : slotAt n with _ | q
    · exact .same rfl
    · exact Wrote.on rfl (fun h => .accounts (by rw [h]; exact accounts_tick b _)) p
  case notify lk k =>
    simp only [code]
    split <;> exact .same rfl
  case scan n best priority =>
    obtain rfl := h.1
    simp only [code, schedCode]
    rcases hn : slotAt n with _ | q
    · exact .same rfl
    · dsimp only
      split_ifs
      · exact .same rfl
      · exact Wrote.on rfl (fun h => .accounts (by rw [h]; exact accounts_dp _)) p
      · exact Wrote.on rfl (fun h => .accounts (by rw [h]; exact accounts_dp _)) p
  case rr n =>
    obtain rfl := h
    simp only [code, schedCode]
    rcases hn : slotAt n with _ | q
    · exact .same rfl
    · dsimp only
      split_ifs <;> exact .same rfl
  case kerneltrap k => rcases me with _ | i <;> exact .same rfl
  case unlock lk k => exact .same rfl
  case clockintr k => exact .same rfl
  case device lk k => exact .same rfl
  case sched k => exact absurd trivial hs
  case swtchTo p k => exact absurd trivial hs
  case switched p k => exact absurd trivial hs
  all_goals
    obtain ⟨i, rfl⟩ : ∃ i, me = some i := by
      rcases me with _ | i
      · simp [Wf] at h
      · exact ⟨i, rfl⟩
    simp only [code]
  case user => exact usertrap_wrote p
  case setkilled k => exact Wrote.on rfl (fun h => .setkilled k rfl rfl h) p
  case kill pid n =>
    simp only [procCode]
    rcases hn : slotAt n with _ | q
    · exact .same rfl
    · exact Wrote.on rfl (fun h => .kill pid n rfl hn h) p
  case setpriority pid priority n old =>
    simp only [procCode]
    rcases hn : slotAt n with _ | q
    · exact sysSetpriorityEnd_wrote p
    · exact Wrote.on rfl (fun h => .accounts (by rw [h]; exact accounts_setpriority _ _ _)) p
  case allocproc n => exact allocproc_wrote p
  case forkParent np => exact Wrote.on rfl (fun h => .forkParent i rfl rfl h) p
  case forkStart np => exact Wrote.on rfl (fun h => .forkStart rfl h) p
  case exit status =>
    simp only [procCode]
    split_ifs
    · exact .same rfl
    · split <;> exact .same rfl
  case reparent status n =>
    simp only [procCode]
    rcases hn : slotAt n with _ | q
    · exact .same rfl
    · dsimp only
      split_ifs with hpar
      · exact Wrote.on rfl (fun h => .reparent i status n rfl rfl hn hpar h) p
      · exact .same rfl
  case exitLock status =>
    exact Wrote.on (f := fun p => { p with xstate := status, state := .ZOMBIE, etime := d.ticks })
      rfl (fun h => .exit status rfl rfl h) p
  case waitScan x n havekids =>
    simp only [procCode]
    rcases hn : slotAt n with _ | q <;> exact .same rfl
  case waitChild x pp =>
    simp only [procCode]
    split_ifs with h1 h2
    · exact .same rfl
    · exact .same rfl
    · push Not at h1
      exact Wrote.on rfl (fun h => .reap i x rfl rfl h1 h rfl) p
  case sleep chan lk k => exact Wrote.on rfl (fun h => .sleep chan lk k rfl rfl h) p
  case asleep lk k => exact Wrote.on rfl (fun h => .asleep lk k rfl rfl h) p
  case yield k => exact Wrote.on rfl (fun h => .yield k rfl rfl h) p
  case holding lk k =>
    simp only [procCode]
    split <;> exact .same rfl
  all_goals exact .same rfl

/-! ### The record -/

/-- What the section at `pc` records. -/
inductive Logged (me : Option Slot) (pc : Pc) (d : Shared) (e : Effect) : Prop
  | same (h : e.sh.log = d.log)
  | unalloc (n : ℕ) (p : Slot) (hpc : pc = .allocproc n) (hst : (d.proc p).state = .UNUSED)
      (hn : slotAt n = some p) (h : e.sh.log = d.log ++ [.freed p])
  | exit (i : Slot) (status : ℤ) (hpc : pc = .exitLock status) (hme : me = some i)
      (h : e.sh.log = d.log ++ [.exited i (d.proc i).pid status])
  | reap (i : Slot) (x : Bool) (p : Slot) (hpc : pc = .waitChild x p) (hme : me = some i)
      (hst : (d.proc p).state = .ZOMBIE) (hfree : e.sh.proc p = freeproc (d.proc p))
      (h : e.sh.log = d.log ++ [.freed p, .returned i p (d.proc p).pid (d.proc p).xstate])

lemma sysSetpriorityEnd_log (pid : ℤ) (old : Option ℤ) (d : Shared) :
    (sysSetpriorityEnd pid old d).sh.log = d.log := by
  unfold sysSetpriorityEnd
  split
  · rfl
  · split_ifs
    · rfl
    · split <;> rfl

lemma code_logged (h : Wf me pc) (hs : ¬ Switches pc) :
    Logged me pc d (code b me ch d pc) := by
  cases pc
  case wakeup chan n k =>
    simp only [code]
    rcases slotAt n with _ | q
    · exact .same rfl
    · dsimp only
      split_ifs <;> exact .same rfl
  case update_time n k =>
    simp only [code]
    rcases slotAt n with _ | q <;> exact .same rfl
  case notify lk k =>
    simp only [code]
    split <;> exact .same rfl
  case scan n best priority =>
    obtain rfl := h.1
    simp only [code, schedCode]
    rcases slotAt n with _ | q
    · exact .same rfl
    · dsimp only
      split_ifs <;> exact .same rfl
  case rr n =>
    obtain rfl := h
    simp only [code, schedCode]
    rcases slotAt n with _ | q
    · exact .same rfl
    · dsimp only
      split_ifs <;> exact .same rfl
  case kerneltrap k => rcases me with _ | i <;> exact .same rfl
  case unlock lk k => exact .same rfl
  case clockintr k => exact .same rfl
  case device lk k => exact .same rfl
  case sched k => exact absurd trivial hs
  case swtchTo p k => exact absurd trivial hs
  case switched p k => exact absurd trivial hs
  all_goals
    obtain ⟨i, rfl⟩ : ∃ i, me = some i := by
      rcases me with _ | i
      · simp [Wf] at h
      · exact ⟨i, rfl⟩
    simp only [code]
  case user => cases ch <;> exact .same rfl
  case kill pid n =>
    simp only [procCode]
    rcases slotAt n with _ | q <;> exact .same rfl
  case setpriority pid priority n old =>
    simp only [procCode]
    rcases slotAt n with _ | q
    · exact .same (sysSetpriorityEnd_log pid old d)
    · exact .same rfl
  case allocproc n =>
    simp only [procCode]
    rcases hn : slotAt n with _ | q
    · exact .same rfl
    · dsimp only
      split_ifs with h1 h2
      · exact .same rfl
      · push Not at h1
        exact .unalloc n q rfl h1 hn rfl
      · exact .same rfl
  case exit status =>
    simp only [procCode]
    split_ifs
    · exact .same rfl
    · split <;> exact .same rfl
  case reparent status n =>
    simp only [procCode]
    rcases slotAt n with _ | q
    · exact .same rfl
    · dsimp only
      split_ifs <;> exact .same rfl
  case exitLock status => exact .exit i status rfl rfl rfl
  case waitScan x n havekids =>
    simp only [procCode]
    rcases slotAt n with _ | q <;> exact .same rfl
  case waitChild x pp =>
    simp only [procCode]
    split_ifs with h1 h2
    · exact .same rfl
    · exact .same rfl
    · push Not at h1
      exact .reap i x pp rfl rfl h1 (on_self _) rfl
  case holding lk k =>
    simp only [procCode]
    split <;> exact .same rfl
  all_goals exact .same rfl

end Xv6.SmpWrites
