import Xv6.Smp

/-!
What a section of the kernel can do, said once: which locks it keeps, which states it changes and
where it goes on. Locks are taken in the order of their ranks.
-/

namespace Xv6.SmpMoves

open Xv6.Riscv Xv6.Pbs Xv6.Smp
open Xv6.Process (ProcState)

/-! ### Points of the code -/

/-- The order in which locks are taken: process locks last, by their slots. -/
def rank : Lock → ℕ
  | .proc p => p.val + 1
  | _ => 0

/-- No process lock among them. -/
def Low (ls : List Lock) : Prop := ∀ l ∈ ls, rank l = 0

/-- Where a thread can be switched to. -/
def Resumes : Pc → Prop
  | .asleep _ _ | .yielded _ => True
  | _ => False

/-- The thread of `me` can get there: its calls return with the locks they were made with. -/
def Wf (me : Option Slot) : Pc → Prop
  | .killed yes no => me.isSome ∧ Wf me yes ∧ Wf me no ∧ held me no = held me yes ∧ Low (held me yes)
  | .setkilled k | .yield k | .yielded k | .client _ k | .holding _ k =>
    me.isSome ∧ Wf me k ∧ held me k = []
  | .sleep _ lk k | .asleep lk k | .relock lk k =>
    me.isSome ∧ Wf me k ∧ held me k = [lk] ∧ rank lk = 0
  | .sched k => me.isSome ∧ Wf me k ∧ (k = .exited ∨ Resumes k)
  | .wakeup _ _ k => Wf me k ∧ Low (held me k)
  | .unlock lk k => Wf me k ∧ held me k = [] ∧ rank lk = 0
  | .clockintr k | .update_time _ k | .kerneltrap k | .device _ k | .notify _ k =>
    Wf me k ∧ held me k = []
  | .scan n best _ => me = none ∧ ∀ p ∈ best, p.val < n
  | .rr _ => me = none
  | .swtchTo _ k | .switched _ k => me = none ∧ Wf me k ∧ held me k = []
  | _ => me.isSome

/-- The slots a `fork` under way has reserved. -/
def claims : Pc → List Slot
  | .forkParent np | .forkStart np => [np]
  | .killed yes no => claims yes ++ claims no
  | .setkilled k | .yield k | .yielded k | .client _ k | .holding _ k | .sleep _ _ k | .asleep _ k
  | .relock _ k | .sched k | .wakeup _ _ k | .unlock _ k | .clockintr k | .update_time _ k
  | .kerneltrap k | .device _ k | .notify _ k => claims k
  | _ => []

/-- The processes a scheduler has chosen from. -/
def cand : Pc → List Slot
  | .scan _ best _ => best.toList
  | .swtchTo p _ => [p]
  | _ => []

/-- The state of the process whose thread executes there. -/
def stateOf : Pc → ProcState
  | .sched .exited => .ZOMBIE
  | .sched (.asleep _ _) => .SLEEPING
  | .sched _ => .RUNNABLE
  | _ => .RUNNING

variable {me : Option Slot} {pc k : Pc} {l w : Lock} {n : ℕ} {p i : Slot}

@[simp] lemma rank_proc (p : Slot) : rank (.proc p) = p.val + 1 := rfl

@[simp] lemma rank_wait_lock : rank .wait_lock = 0 := rfl

@[simp] lemma rank_tickslock : rank .tickslock = 0 := rfl

@[simp] lemma rank_other (n : ℕ) : rank (.other n) = 0 := rfl

lemma slotAt_some (h : slotAt n = some p) : p.val = n := by
  unfold slotAt at h
  split_ifs at h
  cases h
  rfl

lemma rank_slotAt (h : (slotAt n).map Lock.proc = some w) : rank w = n + 1 := by
  obtain ⟨p, hp, rfl⟩ := Option.map_eq_some_iff.mp h
  simp only [rank, slotAt_some hp]

lemma rank_ownLock (h : ownLock me = some w) : rank w ≠ 0 := by
  rcases me with _ | i
  · simp [ownLock] at h
  · simp only [ownLock, Option.some.injEq] at h
    subst h
    simp [rank]

/-- **The lock order**: what a thread holds comes before what it wants. -/
lemma rank_lt (h : Wf me pc) (hw : want me pc = some w) (hl : l ∈ held me pc) :
    rank l < rank w := by
  cases pc
  case killed yes no =>
    have h1 := rank_ownLock hw
    have h2 := h.2.2.2.2 l hl
    omega
  case wakeup chan n k =>
    have h2 := h.2 l hl
    simp only [want] at hw
    split_ifs at hw
    have h1 := rank_slotAt hw
    omega
  case scan n best pri =>
    have h1 := rank_slotAt hw
    obtain ⟨q, hq, rfl⟩ := List.mem_map.mp hl
    have h2 := h.2 q (Option.mem_toList.mp hq)
    rw [h1, rank_proc]
    omega
  case exitLock status =>
    have h1 := rank_ownLock hw
    rw [List.mem_singleton.mp hl, rank_wait_lock]
    omega
  case sleep chan lk k =>
    have h1 := rank_ownLock hw
    rw [List.mem_singleton.mp hl, h.2.2.2]
    omega
  case waitChild x pp =>
    cases hw
    rw [List.mem_singleton.mp hl, rank_wait_lock, rank_proc]
    omega
  case update_time n k =>
    rw [List.mem_singleton.mp hl, rank_tickslock, rank_slotAt hw]
    omega
  all_goals first | (simp [want] at hw; done) | simp [held] at hl

lemma low_nil : Low [] := fun _ h => absurd h (by simp)

lemma low_singleton (h : rank l = 0) : Low [l] := fun l' h' => by
  rw [List.mem_singleton.mp h']
  exact h

lemma low_of_eq {ls : List Lock} (h : held me k = ls) (hl : Low ls) : Low (held me k) := h ▸ hl

lemma stateOf_low (h : Wf me pc) (hl : Low (held me pc)) : stateOf pc = .RUNNING := by
  cases pc
  case sched k =>
    obtain ⟨i, rfl⟩ := Option.isSome_iff_exists.mp h.1
    have h1 := hl (.proc i) (by simp [held, ownLock])
    simp at h1
  all_goals rfl

lemma cand_held (h : p ∈ cand pc) : Lock.proc p ∈ held me pc := by
  cases pc <;> simp_all [cand, held]

lemma cand_low (hl : Low (held me pc)) : cand pc = [] := by
  refine List.eq_nil_iff_forall_not_mem.mpr fun p hp => ?_
  have h1 := hl _ (cand_held hp)
  simp at h1

lemma claims_none (h : Wf none pc) : claims pc = [] := by
  induction pc <;> simp_all [Wf, claims]

/-- A step around `swtch`. -/
def Switches : Pc → Prop
  | .sched _ | .swtchTo _ _ | .switched _ _ => True
  | _ => False

lemma stateOf_stays (hs : ¬ Switches pc) : stateOf pc = .RUNNING := by
  cases pc
  case sched k => exact absurd trivial hs
  all_goals rfl

/-! ### What a section does -/

/-- How a section may change the state of process `p`. -/
inductive Changes (me : Option Slot) (w : Option Lock) (d : Shared) (pc : Pc) (e : Effect)
    (p : Slot) : Prop
  | same (h : (e.sh.proc p).state = (d.proc p).state)
  | self (h : me = some p)
  | wake (hw : w = some (.proc p)) (h : (d.proc p).state = .SLEEPING)
      (h' : (e.sh.proc p).state = .RUNNABLE)
  | alloc (h : e.start = some p)
  | reap (hw : w = some (.proc p)) (h : (d.proc p).state = .ZOMBIE)
      (h' : (e.sh.proc p).state = .UNUSED)
  | start (hw : w = some (.proc p)) (h : p ∈ claims pc) (h' : (e.sh.proc p).state = .RUNNABLE)
      (hc : claims e.pc = [])

/-- **What a section does** that begins with the acquisition of `w`, if of any: it keeps what it
holds but for the locks it releases, and it changes the state of another process only under its
lock. -/
structure Moves (me : Option Slot) (w : Option Lock) (d : Shared) (pc : Pc) (e : Effect) :
    Prop where
  wf : Wf me e.pc
  holds : ∀ l, l ∈ held me e.pc ↔ (l ∈ held me pc ∨ w = some l) ∧ l ∉ e.free
  freed : ∀ l ∈ e.free, l ∈ held me pc ∨ w = some l
  changes : ∀ p, Changes me w d pc e p
  self : ∀ i, me = some i → (d.proc i).state = .RUNNING →
    (∀ np ∈ claims pc, (d.proc np).state = .USED) → (e.sh.proc i).state = stateOf e.pc
  claim : ∀ np ∈ claims e.pc, np ∈ claims pc ∨ e.start = some np
  fresh : ∀ p, e.start = some p → w = some (.proc p) ∧ (d.proc p).state = .UNUSED ∧
    (e.sh.proc p).state = .USED
  chosen : ∀ p ∈ cand e.pc, p ∈ cand pc ∨ w = some (.proc p) ∧ (d.proc p).state = .RUNNABLE
  stays : ∀ p k, e.pc ≠ .switched p k

variable {w : Option Lock} {d d' : Shared} {pc' : Pc} {free : List Lock} {ch : Choice} {b : Build}

lemma Moves.quiet (hst : ∀ p, (d'.proc p).state = (d.proc p).state) (hwf : Wf me pc')
    (hlow : Low (held me pc'))
    (hheld : ∀ l, l ∈ held me pc' ↔ (l ∈ held me pc ∨ w = some l) ∧ l ∉ free)
    (hfree : ∀ l ∈ free, l ∈ held me pc ∨ w = some l) (hc : ∀ np ∈ claims pc', np ∈ claims pc) :
    Moves me w d pc (.to pc' d' free) where
  wf := hwf
  holds := hheld
  freed := hfree
  changes p := .same (hst p)
  self i _ hi _ := by
    change (d'.proc i).state = stateOf pc'
    rw [stateOf_low hwf hlow]
    exact (hst i).trans hi
  claim np hnp := Or.inl (hc np hnp)
  fresh p hp := by simp [Effect.to] at hp
  chosen p hp := by
    rw [show (Effect.to pc' d' free).pc = pc' from rfl, cand_low hlow] at hp
    simp at hp
  stays p k hpc := by
    have h1 := hlow (.proc p) (by rw [show pc' = .switched p k from hpc]; simp [held])
    simp at h1

lemma on_state {f : Proc → Proc} (hf : (f (d.proc p)).state = (d.proc p).state) (q : Slot) :
    ((d.on p f).proc q).state = (d.proc q).state := by
  unfold Shared.on
  dsimp only
  by_cases hq : q = p
  · subst hq
    rw [Function.update_self, hf]
  · rw [Function.update_of_ne hq]

lemma Moves.alone {q : Slot} (hw : w = some (.proc q))
    (hst : ∀ p, (d'.proc p).state = (d.proc p).state) (hwf : Wf me pc')
    (hlow : Low (held me pc)) (heq : held me pc' = held me pc)
    (hc : ∀ np ∈ claims pc', np ∈ claims pc) : Moves me w d pc (.to pc' d' [.proc q]) := by
  refine Moves.quiet hst hwf (low_of_eq heq hlow) (fun l => ?_) (fun l hl => ?_) hc
  · rw [heq, hw, List.mem_singleton, Option.some.injEq]
    constructor
    · intro hl
      refine ⟨Or.inl hl, ?_⟩
      rintro rfl
      have := hlow _ hl
      simp at this
    · rintro ⟨hl | rfl, hne⟩
      · exact hl
      · exact absurd rfl hne
  · rw [List.mem_singleton.mp hl]
    exact Or.inr hw

lemma Moves.inner (hst : ∀ p, (d'.proc p).state = (d.proc p).state) (hwf : Wf me pc')
    (hlow : Low (held me pc)) (heq : held me pc' = held me pc)
    (hc : ∀ np ∈ claims pc', np ∈ claims pc) : Moves me none d pc (.to pc' d' []) := by
  refine Moves.quiet hst hwf (low_of_eq heq hlow) (fun l => ?_) (fun l hl => absurd hl (by simp)) hc
  rw [heq]
  simp

/-! ### The sections of a process -/

@[simp] lemma held_usertrapEnd (t : Bool) : held me (usertrapEnd t) = [] := rfl

@[simp] lemma claims_usertrapEnd (t : Bool) : claims (usertrapEnd t) = [] := by
  cases t <;> rfl

lemma wf_usertrapEnd (i : Slot) (t : Bool) : Wf (some i) (usertrapEnd t) := by
  cases t <;> simp [usertrapEnd, Wf, held, low_nil]

lemma held_syscall (call : Syscall) : held me (syscall call) = [] := by
  cases call <;> rfl

lemma claims_syscall (call : Syscall) : claims (syscall call) = [] := by
  cases call <;> rfl

lemma wf_syscall (i : Slot) (call : Syscall) : Wf (some i) (syscall call) := by
  cases call <;> simp [syscall, Wf, wf_usertrapEnd]

lemma usertrap_moves : Moves (some i) none d .user (usertrap i d ch) := by
  cases ch
  case syscall call =>
    refine Moves.inner (fun _ => rfl) ?_ low_nil rfl ?_
    · exact ⟨rfl, rfl, wf_syscall i call, held_syscall call, low_nil⟩
    · simp [claims, claims_syscall]
  case store bad =>
    exact Moves.inner (on_state rfl) (wf_usertrapEnd i false) low_nil rfl (by simp)
  case fault =>
    exact Moves.inner (fun _ => rfl) ⟨rfl, wf_usertrapEnd i false, rfl⟩ low_nil rfl
      (by simp [claims])
  all_goals exact Moves.inner (fun _ => rfl) rfl low_nil rfl fun _ h => h

lemma kill_state (pid : ℤ) (p : Proc) :
    (PbsRuns.kill pid p).state = p.state ∨
      p.state = .SLEEPING ∧ (PbsRuns.kill pid p).state = .RUNNABLE := by
  unfold PbsRuns.kill
  split_ifs with h1 h2
  · exact Or.inr ⟨h2, rfl⟩
  · exact Or.inl rfl
  · exact Or.inl rfl

lemma wakeup_state (chan : ℕ) (p : Proc) :
    (PbsRuns.wakeup chan p).state = p.state ∨
      p.state = .SLEEPING ∧ (PbsRuns.wakeup chan p).state = .RUNNABLE := by
  unfold PbsRuns.wakeup
  split_ifs with h1
  · exact Or.inr ⟨h1.1, rfl⟩
  · exact Or.inl rfl

/-- A section that may wake the process whose lock it takes. -/
lemma Moves.wakes {q : Slot} {f : Proc → Proc} (hw : w = some (.proc q))
    (hf : (f (d.proc q)).state = (d.proc q).state ∨
      (d.proc q).state = .SLEEPING ∧ (f (d.proc q)).state = .RUNNABLE)
    (hwf : Wf me pc') (hlow : Low (held me pc)) (heq : held me pc' = held me pc)
    (hc : ∀ np ∈ claims pc', np ∈ claims pc) :
    Moves me w d pc (.to pc' (d.on q f) [.proc q]) := by
  have hm : Moves me w d pc (.to pc' d [.proc q]) := Moves.alone hw (fun _ => rfl) hwf hlow heq hc
  rcases hf with hf | ⟨h1, h2⟩
  · exact Moves.alone hw (on_state hf) hwf hlow heq hc
  · have hother : ∀ p, p ≠ q → ((d.on q f).proc p).state = (d.proc p).state := fun p hp => by
      unfold Shared.on
      dsimp only
      rw [Function.update_of_ne hp]
    have hq : ((d.on q f).proc q).state = .RUNNABLE := by
      unfold Shared.on
      dsimp only
      rw [Function.update_self, h2]
    refine ⟨hm.wf, hm.holds, hm.freed, fun p => ?_, fun i hme hi hcl => ?_, hm.claim, ?_, hm.chosen,
      hm.stays⟩
    · by_cases hp : p = q
      · subst hp
        exact .wake hw h1 hq
      · exact .same (hother p hp)
    · have hne : i ≠ q := by
        rintro rfl
        rw [hi] at h1
        cases h1
      exact (hother i hne).trans (hm.self i hme hi hcl)
    · intro p hp
      simp [Effect.to] at hp

/-- A process takes its own lock, releases the others it holds and is about to switch. -/
lemma Moves.leaves (hwf : Wf (some i) (.sched k)) (hfree : held (some i) pc = free)
    (hlow : Low free) (hself : (d'.proc i).state = stateOf (.sched k))
    (hc : ∀ np ∈ claims k, np ∈ claims pc)
    (hother : ∀ p, p ≠ i → (d'.proc p).state = (d.proc p).state) :
    Moves (some i) (some (.proc i)) d pc (.to (.sched k) d' free) where
  wf := hwf
  holds l := by
    change l ∈ [Lock.proc i] ↔ _ ∧ l ∉ free
    rw [hfree, List.mem_singleton, Option.some.injEq]
    constructor
    · rintro rfl
      refine ⟨Or.inr rfl, fun hl => ?_⟩
      have := hlow _ hl
      simp at this
    · rintro ⟨hl | rfl, hne⟩
      · exact absurd hl hne
      · rfl
  freed l hl := Or.inl (hfree ▸ hl)
  changes p := by
    by_cases hp : p = i
    · exact .self (by rw [hp])
    · exact .same (hother p hp)
  self j hj _ _ := by
    cases hj
    exact hself
  claim np hnp := Or.inl (hc np hnp)
  fresh p hp := by simp [Effect.to] at hp
  chosen p hp := by simp [Effect.to, cand] at hp
  stays p k hpc := by simp [Effect.to] at hpc

lemma on_other {f : Proc → Proc} {q : Slot} (h : q ≠ p) : (d.on p f).proc q = d.proc q := by
  unfold Shared.on
  exact Function.update_of_ne h _ _

lemma on_self (f : Proc → Proc) : (d.on p f).proc p = f (d.proc p) := by
  unfold Shared.on
  exact Function.update_self _ _ _

@[simp] lemma record_proc (es : List Event) : (d.record es).proc = d.proc := rfl

lemma allocproc_moves :
    Moves (some i) (want (some i) (.allocproc n)) d (.allocproc n) (procCode i ch d (.allocproc n)) := by
  unfold want procCode
  dsimp only
  rcases hs : slotAt n with _ | p
  · exact Moves.inner (fun _ => rfl) (wf_usertrapEnd i false) low_nil rfl (by simp)
  dsimp only
  split_ifs with h1 h2
  · exact Moves.alone rfl (fun _ => rfl) rfl low_nil rfl fun _ h => h
  · -- the slot is given back at once
    push Not at h1
    refine Moves.alone rfl (fun q => ?_) (wf_usertrapEnd i false) low_nil rfl (by simp)
    by_cases hq : q = p
    · subst hq
      rw [record_proc, on_self, h1]
      rfl
    · rw [record_proc, on_other hq]
      exact congrArg _ (on_other hq)
  · push Not at h1
    have hused : ((d.on p (usedProc d.nextpid d.ticks)).proc p).state = .USED := by
      rw [on_self]
      rfl
    refine ⟨rfl, fun l => ?_, fun l hl => Or.inr ?_, fun q => ?_, fun j hj hrun _ => ?_,
      fun np hnp => Or.inr ?_, fun q hq => ?_, fun q hq => ?_, fun q k hpc => ?_⟩
    · simp [held, eq_comm]
    · rw [List.mem_singleton.mp hl]
      rfl
    · by_cases hq : q = p
      · exact .alloc (by rw [hq])
      · exact .same (congrArg _ (on_other hq))
    · cases hj
      have hne : i ≠ p := by
        rintro rfl
        rw [h1] at hrun
        cases hrun
      exact (congrArg _ (on_other hne)).trans hrun
    · rw [List.mem_singleton.mp hnp]
    · cases hq
      exact ⟨rfl, h1, hused⟩
    · simp [cand] at hq
    · simp at hpc

lemma forkStart_moves {np : Slot} :
    Moves (some i) (some (.proc np)) d (.forkStart np) (procCode i ch d (.forkStart np)) := by
  have hm : Moves (some i) (some (.proc np)) d (.forkStart np)
      (.to (usertrapEnd false) d [.proc np]) :=
    Moves.alone rfl (fun _ => rfl) (wf_usertrapEnd i false) low_nil rfl (by simp)
  have hother : ∀ q, q ≠ np →
      ((d.on np fun p => { p with state := .RUNNABLE }).proc q).state = (d.proc q).state :=
    fun q hq => by rw [on_other hq]
  refine ⟨hm.wf, hm.holds, hm.freed, fun p => ?_, fun j hj hi hcl => ?_, hm.claim, ?_, hm.chosen,
      hm.stays⟩
  · by_cases hp : p = np
    · subst hp
      exact .start rfl (by simp [claims]) (by simp [procCode, Effect.to, on_self])
        (claims_usertrapEnd false)
    · exact .same (hother p hp)
  · -- the reserved slot is not the caller's
    have hne : j ≠ np := by
      rintro rfl
      have := hcl j (by simp [claims])
      rw [hi] at this
      cases this
    exact (hother j hne).trans (hm.self j hj hi hcl)
  · intro p hp
    simp [procCode, Effect.to] at hp

lemma holds_nil {pp : Slot} (l : Lock) : l ∈ ([] : List Lock) ↔
    (l ∈ [Lock.wait_lock] ∨ some (Lock.proc pp) = some l) ∧ l ∉ [.proc pp, .wait_lock] := by
  simp only [List.not_mem_nil, List.mem_cons, Option.some.injEq, false_iff, or_false, not_and,
    not_not]
  rintro (rfl | rfl)
  · exact Or.inr rfl
  · exact Or.inl rfl

lemma freed_both {pp : Slot} (l : Lock) (hl : l ∈ [Lock.proc pp, .wait_lock]) :
    l ∈ [Lock.wait_lock] ∨ some (Lock.proc pp) = some l := by
  simp only [List.mem_cons, List.not_mem_nil, or_false] at hl
  rcases hl with rfl | rfl
  · exact Or.inr rfl
  · exact Or.inl (by simp)

lemma waitChild_moves {x : Bool} {pp : Slot} :
    Moves (some i) (some (.proc pp)) d (.waitChild x pp) (procCode i ch d (.waitChild x pp)) := by
  have hm : Moves (some i) (some (.proc pp)) d (.waitChild x pp)
      (.to (usertrapEnd false) d [.proc pp, .wait_lock]) :=
    Moves.quiet (fun _ => rfl) (wf_usertrapEnd i false) low_nil holds_nil freed_both (by simp)
  unfold procCode
  dsimp only
  split_ifs with h1 h2
  · exact Moves.alone rfl (fun _ => rfl) rfl (low_singleton rfl) rfl fun _ h => h
  · exact hm
  · push Not at h1
    have hother : ∀ q, q ≠ pp → ((d.on pp freeproc).proc q).state = (d.proc q).state :=
      fun q hq => by rw [on_other hq]
    refine ⟨hm.wf, hm.holds, hm.freed, fun p => ?_, fun j hj hi hcl => ?_, hm.claim, ?_, hm.chosen,
      hm.stays⟩
    · by_cases hp : p = pp
      · subst hp
        refine .reap rfl h1 ?_
        simp [Effect.to, on_self, freeproc]
      · exact .same (hother p hp)
    · -- the caller is not a zombie
      have hne : j ≠ pp := by
        rintro rfl
        rw [hi] at h1
        cases h1
      exact (hother j hne).trans (hm.self j hj hi hcl)
    · intro p hp
      simp [Effect.to] at hp

lemma Moves.takes (hst : ∀ p, (d'.proc p).state = (d.proc p).state) (hl : rank l = 0)
    (hwf : Wf me pc') (hnil : held me pc = []) (heq : held me pc' = [l])
    (hc : ∀ np ∈ claims pc', np ∈ claims pc) : Moves me (some l) d pc (.to pc' d' []) := by
  refine Moves.quiet hst hwf (low_of_eq heq (low_singleton hl)) (fun l' => ?_)
    (fun l' hl' => absurd hl' (by simp)) hc
  rw [heq, hnil]
  simp [eq_comm]

lemma Moves.drops (hst : ∀ p, (d'.proc p).state = (d.proc p).state) (hwf : Wf me pc')
    (heq : held me pc = [l]) (hnil : held me pc' = [])
    (hc : ∀ np ∈ claims pc', np ∈ claims pc) : Moves me none d pc (.to pc' d' [l]) := by
  refine Moves.quiet hst hwf (low_of_eq hnil low_nil) (fun l' => ?_) (fun l' hl' => ?_) hc
  · rw [heq, hnil]
    simp
  · rw [heq]
    exact Or.inl hl'

lemma Moves.visits (hst : ∀ p, (d'.proc p).state = (d.proc p).state) (hwf : Wf me pc')
    (hnil : held me pc = []) (hnil' : held me pc' = [])
    (hc : ∀ np ∈ claims pc', np ∈ claims pc) : Moves me (some l) d pc (.to pc' d' [l]) := by
  refine Moves.quiet hst hwf (low_of_eq hnil' low_nil) (fun l' => ?_) (fun l' hl' => ?_) hc
  · rw [hnil, hnil']
    simp [eq_comm]
  · rw [List.mem_singleton.mp hl']
    exact Or.inr rfl

lemma setpriorityEnd_moves {pid : ℤ} {old : Option ℤ} (hw : w = none) (hnil : held (some i) pc = []) :
    Moves (some i) w d pc (sysSetpriorityEnd pid old d) := by
  subst hw
  have hend : ∀ d' : Shared, (∀ p, (d'.proc p).state = (d.proc p).state) →
      Moves (some i) none d pc (.to (usertrapEnd false) d' []) := fun d' hd =>
    Moves.inner hd (wf_usertrapEnd i false) (low_of_eq hnil low_nil) (by rw [hnil]; rfl) (by simp)
  unfold sysSetpriorityEnd
  split
  · exact hend d fun _ => rfl
  · split_ifs
    · exact hend d fun _ => rfl
    · split
      · exact hend d fun _ => rfl
      · split_ifs
        · exact Moves.inner (on_state rfl) ⟨rfl, wf_usertrapEnd i false, rfl⟩
            (low_of_eq hnil low_nil) (by rw [hnil]; rfl) (by simp [claims])
        · exact hend _ (on_state rfl)

lemma setpriority_state (pid priority : ℤ) (p : Proc) :
    (PbsRuns.setpriority pid priority p).state = p.state := by
  unfold PbsRuns.setpriority
  split_ifs <;> rfl

lemma exit_moves {status : ℤ} : Moves (some i) none d (.exit status)
    (procCode i ch d (.exit status)) := by
  have hstay : ∀ pc', Wf (some i) pc' → held (some i) pc' = [] → claims pc' = [] →
      Moves (some i) none d (.exit status) (.to pc' d []) := fun pc' hwf hnil hc =>
    Moves.inner (fun _ => rfl) hwf low_nil hnil (by simp [hc])
  unfold procCode
  dsimp only
  split_ifs
  · exact hstay _ rfl rfl rfl
  · split
    · exact hstay _ ⟨rfl, rfl, rfl⟩ rfl rfl
    · exact hstay _ rfl rfl rfl

lemma reparent_moves {status : ℤ} : Moves (some i) none d (.reparent status n)
    (procCode i ch d (.reparent status n)) := by
  have hlow : Low [Lock.wait_lock] := low_singleton rfl
  unfold procCode
  dsimp only
  rcases slotAt n with _ | p
  · dsimp only
    split <;> exact Moves.inner (fun _ => rfl) ⟨rfl, hlow⟩ hlow rfl (by simp [claims])
  · dsimp only
    split_ifs
    · exact Moves.inner (on_state rfl) ⟨rfl, hlow⟩ hlow rfl (by simp [claims])
    · exact Moves.inner (fun _ => rfl) rfl hlow rfl (by simp [claims])

lemma waitScan_moves {x havekids : Bool} : Moves (some i) none d (.waitScan x n havekids)
    (procCode i ch d (.waitScan x n havekids)) := by
  have hlow : Low [Lock.wait_lock] := low_singleton rfl
  have hstay : ∀ pc', Wf (some i) pc' → held (some i) pc' = [.wait_lock] → claims pc' = [] →
      Moves (some i) none d (.waitScan x n havekids) (.to pc' d []) := fun pc' hwf heq hc =>
    Moves.inner (fun _ => rfl) hwf hlow heq (by simp [hc])
  have hback : Wf (some i) (.unlock .wait_lock (usertrapEnd false)) :=
    ⟨wf_usertrapEnd i false, rfl, rfl⟩
  have hagain : Wf (some i) (.sleep (procChan i) .wait_lock (.waitScan x 0 false)) :=
    ⟨rfl, rfl, rfl, rfl⟩
  unfold procCode
  dsimp only
  rcases slotAt n with _ | p
  · dsimp only
    split_ifs
    · exact hstay _ hback rfl rfl
    · exact hstay _ hback rfl rfl
    · exact hstay _ hagain rfl rfl
    · exact hstay _ ⟨rfl, hback, hagain, rfl, hlow⟩ rfl rfl
  · dsimp only
    split_ifs
    · exact hstay _ rfl rfl rfl
    · exact hstay _ rfl rfl rfl

lemma sysSleepLoop_moves {ticks0 : ℕ} : Moves (some i) none d (.sysSleepLoop n ticks0)
    (procCode i ch d (.sysSleepLoop n ticks0)) := by
  have hlow : Low [Lock.tickslock] := low_singleton rfl
  have hback : Wf (some i) (.unlock .tickslock (usertrapEnd false)) :=
    ⟨wf_usertrapEnd i false, rfl, rfl⟩
  unfold procCode
  dsimp only
  split_ifs
  · exact Moves.inner (fun _ => rfl) ⟨rfl, hback, ⟨rfl, rfl, rfl, rfl⟩, rfl, hlow⟩ hlow rfl
      (by simp [claims])
  · exact Moves.inner (fun _ => rfl) hback hlow rfl (by simp [claims])

lemma holding_moves {lk : ℕ} (h : Wf (some i) (.holding lk k)) :
    Moves (some i) none d (.holding lk k) (procCode i ch d (.holding lk k)) := by
  have hlow : Low [Lock.other lk] := low_singleton rfl
  unfold procCode
  dsimp only
  split
  · exact Moves.inner (fun _ => rfl) ⟨h, hlow⟩ hlow rfl fun _ h => h
  · exact Moves.inner (fun _ => rfl) ⟨rfl, h, rfl, rfl⟩ hlow rfl fun _ h => h
  · exact Moves.inner (fun _ => rfl) ⟨rfl, h, h, rfl, hlow⟩ hlow rfl (by simp [claims])
  · exact Moves.drops (fun _ => rfl) h.2.1 rfl h.2.2 fun _ h => h

/-! ### The sections of the scheduler and of interrupt handlers -/

lemma Moves.scans (hst : ∀ p, (d'.proc p).state = (d.proc p).state) (hwf : Wf none pc')
    (hholds : ∀ l, l ∈ held none pc' ↔ (l ∈ held none pc ∨ w = some l) ∧ l ∉ free)
    (hfreed : ∀ l ∈ free, l ∈ held none pc ∨ w = some l) (hc : claims pc' = [])
    (hcand : ∀ p ∈ cand pc', p ∈ cand pc ∨ w = some (.proc p) ∧ (d.proc p).state = .RUNNABLE)
    (hstays : ∀ p k, pc' ≠ .switched p k) : Moves none w d pc (.to pc' d' free) where
  wf := hwf
  holds := hholds
  freed := hfreed
  changes p := .same (hst p)
  self i hi := by cases hi
  claim np hnp := by
    rw [show (Effect.to pc' d' free).pc = pc' from rfl, hc] at hnp
    simp at hnp
  fresh p hp := by simp [Effect.to] at hp
  chosen := hcand
  stays := hstays

lemma scan_moves {best : Option Slot} {priority : ℤ} (h : Wf none (.scan n best priority)) :
    Moves none (want none (.scan n best priority)) d (.scan n best priority)
      (schedCode d (.scan n best priority)) := by
  obtain ⟨-, hlt⟩ := h
  unfold want schedCode
  dsimp only
  rcases hs : slotAt n with _ | p
  · dsimp only
    rcases best with _ | q
    · exact Moves.scans (fun _ => rfl) ⟨rfl, by simp⟩ (by simp [held]) (by simp) rfl (by simp [cand])
        (by simp)
    · exact Moves.scans (fun _ => rfl) ⟨rfl, ⟨rfl, by simp⟩, rfl⟩ (by simp [held]) (by simp) rfl
        (by simp [cand]) (by simp)
  have hp := slotAt_some hs
  have hne : ∀ q ∈ best, q ≠ p := by
    rintro q hq rfl
    have := hlt q hq
    omega
  have hlt' : ∀ q ∈ best, q.val < n + 1 := fun q hq => by
    have := hlt q hq
    omega
  dsimp only
  split_ifs with h1 h2
  · refine Moves.scans (fun _ => rfl) ⟨rfl, hlt'⟩ (fun l => ?_) (by simp) rfl
      (fun q hq => Or.inl hq) (by simp)
    simp only [held, List.mem_map, Option.mem_toList, List.mem_singleton, Option.map_some,
      Option.some.injEq]
    constructor
    · rintro ⟨q, hq, rfl⟩
      refine ⟨Or.inl ⟨q, hq, rfl⟩, fun hc => hne q hq ?_⟩
      cases hc
      rfl
    · rintro ⟨h3 | rfl, h4⟩
      · exact h3
      · exact absurd rfl h4
  · -- `p` takes the place of the best, whose lock is released
    push Not at h1
    refine Moves.scans (on_state rfl) ⟨rfl, ?_⟩ (fun l => ?_) (fun l hl => Or.inl hl) rfl
      (fun q hq => Or.inr ?_) (by simp)
    · intro q hq
      cases hq
      omega
    · simp only [held, List.mem_map, Option.mem_toList, Option.map_some, Option.some.injEq]
      constructor
      · rintro ⟨q, rfl, rfl⟩
        refine ⟨Or.inr rfl, ?_⟩
        rintro ⟨q', hq', heq⟩
        cases heq
        exact hne p hq' rfl
      · rintro ⟨h3 | rfl, h4⟩
        · exact absurd h3 h4
        · exact ⟨p, rfl, rfl⟩
    · simp only [cand, Option.mem_toList, Option.some.injEq] at hq
      subst hq
      exact ⟨rfl, h1⟩
  · refine Moves.scans (on_state rfl) ⟨rfl, hlt'⟩ (fun l => ?_) (by simp) rfl
      (fun q hq => Or.inl hq) (by simp)
    simp only [held, List.mem_map, Option.mem_toList, List.mem_singleton, Option.map_some,
      Option.some.injEq]
    constructor
    · rintro ⟨q, hq, rfl⟩
      refine ⟨Or.inl ⟨q, hq, rfl⟩, fun hc => hne q hq ?_⟩
      cases hc
      rfl
    · rintro ⟨h3 | rfl, h4⟩
      · exact h3
      · exact absurd rfl h4

lemma rr_moves : Moves none (want none (.rr n)) d (.rr n) (schedCode d (.rr n)) := by
  unfold want schedCode
  dsimp only
  rcases hs : slotAt n with _ | p
  · exact Moves.scans (fun _ => rfl) rfl (by simp [held]) (by simp) rfl (by simp [cand]) (by simp)
  dsimp only
  split_ifs with h1
  · refine Moves.scans (fun _ => rfl) ⟨rfl, rfl, rfl⟩ (by simp [held, eq_comm]) (by simp) rfl ?_
      (by simp)
    intro q hq
    rw [List.mem_singleton.mp hq]
    exact Or.inr ⟨rfl, h1⟩
  · exact Moves.scans (fun _ => rfl) rfl (by simp [held, eq_comm]) (by simp) rfl (by simp [cand])
      (by simp)

lemma tick_state (b : Build) (p : Proc) : (tick b p).state = p.state := by
  unfold tick PbsRuns.update_time
  cases b
  · dsimp only
    split_ifs <;> rfl
  · rcases hs : p.state with _ | _ | _ | _ | _ | _ <;> simp [hs]

lemma wakeup_moves {chan : ℕ} (h : Wf me (.wakeup chan n k)) :
    Moves me (want me (.wakeup chan n k)) d (.wakeup chan n k)
      (code b me ch d (.wakeup chan n k)) := by
  unfold want code
  dsimp only
  rcases hs : slotAt n with _ | p
  · have hif : (if (none : Option Slot) = me then none else Option.map Lock.proc none) = none := by
      split_ifs <;> rfl
    rw [hif]
    exact Moves.inner (fun _ => rfl) h.1 h.2 rfl fun _ h => h
  · dsimp only
    split_ifs
    · exact Moves.inner (fun _ => rfl) h h.2 rfl fun _ h => h
    · exact Moves.wakes rfl (wakeup_state chan _) h h.2 rfl fun _ h => h

lemma update_time_moves (h : Wf me (.update_time n k)) :
    Moves me (want me (.update_time n k)) d (.update_time n k)
      (code b me ch d (.update_time n k)) := by
  have hlow : Low [Lock.tickslock] := low_singleton rfl
  unfold want code
  dsimp only
  rcases hs : slotAt n with _ | p
  · exact Moves.inner (fun _ => rfl) ⟨⟨h.1, h.2, rfl⟩, hlow⟩ hlow rfl fun _ h => h
  · exact Moves.alone rfl (on_state (tick_state b _)) h hlow rfl fun _ h => h

lemma notify_moves {lk : ℕ} (h : Wf me (.notify lk k)) :
    Moves me none d (.notify lk k) (code b me ch d (.notify lk k)) := by
  have hlow : Low [Lock.other lk] := low_singleton rfl
  unfold code
  dsimp only
  split
  · exact Moves.inner (fun _ => rfl) ⟨h, hlow⟩ hlow rfl fun _ h => h
  · exact Moves.drops (fun _ => rfl) h.1 rfl h.2 fun _ h => h

/-- **Every section is a move.** -/
lemma code_moves (h : Wf me pc) (hs : ¬ Switches pc) :
    Moves me (want me pc) d pc (code b me ch d pc) := by
  cases pc
  case wakeup chan n k => exact wakeup_moves h
  case unlock lk k => exact Moves.drops (fun _ => rfl) h.1 rfl h.2.1 fun _ h => h
  case clockintr k =>
    exact Moves.takes (fun _ => rfl) rfl h rfl rfl fun _ h => h
  case update_time n k => exact update_time_moves h
  case device lk k => exact Moves.takes (fun _ => rfl) rfl h rfl rfl fun _ h => h
  case notify lk k => exact notify_moves h
  case kerneltrap k =>
    rcases me with _ | i
    · exact Moves.inner (fun _ => rfl) h.1 low_nil h.2 fun _ h => h
    · unfold code procCode
      dsimp only
      split_ifs
      · exact Moves.inner (fun _ => rfl) ⟨rfl, h.1, h.2⟩ low_nil rfl fun _ h => h
      · exact Moves.inner (fun _ => rfl) h.1 low_nil h.2 fun _ h => h
  case scan n best priority =>
    obtain ⟨rfl, -⟩ := id h
    exact scan_moves h
  case rr n =>
    obtain rfl := h
    exact rr_moves
  case sched k => exact absurd trivial hs
  case swtchTo p k => exact absurd trivial hs
  case switched p k => exact absurd trivial hs
  all_goals
    obtain ⟨i, rfl⟩ : ∃ i, me = some i := by
      rcases me with _ | i
      · simp [Wf] at h
      · exact ⟨i, rfl⟩
    unfold code
    dsimp only
  case user => exact usertrap_moves
  case killed yes no =>
    obtain ⟨-, hy, hn, heq, hlow⟩ := h
    unfold procCode
    dsimp only
    split_ifs
    · exact Moves.alone rfl (fun _ => rfl) hy hlow rfl fun _ h => List.mem_append_left _ h
    · exact Moves.alone rfl (fun _ => rfl) hn hlow heq fun _ h => List.mem_append_right _ h
  case setkilled k => exact Moves.alone rfl (on_state rfl) h.2.1 low_nil h.2.2 fun _ h => h
  case kill pid n =>
    unfold want procCode
    dsimp only
    rcases hs : slotAt n with _ | p
    · exact Moves.inner (fun _ => rfl) (wf_usertrapEnd i false) low_nil rfl (by simp)
    · dsimp only
      split_ifs
      · exact Moves.wakes rfl (kill_state pid _) (wf_usertrapEnd i false) low_nil rfl (by simp)
      · exact Moves.wakes rfl (kill_state pid _) rfl low_nil rfl fun _ h => h
  case setpriority pid priority n old =>
    unfold want procCode
    dsimp only
    rcases hs : slotAt n with _ | p
    · exact setpriorityEnd_moves rfl rfl
    · exact Moves.alone rfl (on_state (setpriority_state pid priority _)) rfl low_nil rfl
        fun _ h => h
  case allocproc n => exact allocproc_moves
  case forkParent np => exact Moves.visits (on_state rfl) rfl rfl rfl fun _ h => h
  case forkStart np => exact forkStart_moves
  case exit status => exact exit_moves
  case exitWait status => exact Moves.takes (fun _ => rfl) rfl rfl rfl rfl fun _ h => h
  case reparent status n => exact reparent_moves
  case exitLock status =>
    refine Moves.leaves ⟨rfl, rfl, Or.inl rfl⟩ rfl (low_singleton rfl) ?_ (fun _ h => h) ?_
    · rw [record_proc, on_self]
      rfl
    · intro p hp
      rw [record_proc, on_other hp]
  case wait x => exact Moves.takes (fun _ => rfl) rfl rfl rfl rfl fun _ h => h
  case waitScan x n havekids => exact waitScan_moves
  case waitChild x pp => exact waitChild_moves
  case sleep chan lk k =>
    refine Moves.leaves ⟨rfl, h, Or.inr trivial⟩ rfl (low_singleton h.2.2.2) ?_ (fun _ h => h) ?_
    · rw [on_self]
      rfl
    · intro p hp
      rw [on_other hp]
  case asleep lk k =>
    exact Moves.drops (on_state rfl) h rfl rfl fun _ h => h
  case relock lk k => exact Moves.takes (fun _ => rfl) h.2.2.2 h.2.1 rfl h.2.2.1 fun _ h => h
  case yield k =>
    refine Moves.leaves ⟨rfl, h, Or.inr trivial⟩ rfl low_nil ?_ (fun _ h => h) ?_
    · rw [on_self]
      rfl
    · intro p hp
      rw [on_other hp]
  case yielded k => exact Moves.drops (fun _ => rfl) h.2.1 rfl h.2.2 fun _ h => h
  case sys_sleep n => exact Moves.takes (fun _ => rfl) rfl rfl rfl rfl fun _ h => h
  case sysSleepLoop n ticks0 => exact sysSleepLoop_moves
  case sys_uptime => exact Moves.visits (fun _ => rfl) (wf_usertrapEnd i false) rfl rfl (by simp)
  case client lk k => exact Moves.takes (fun _ => rfl) rfl h rfl rfl fun _ h => h
  case holding lk k => exact holding_moves h
  all_goals exact Moves.inner (fun _ => rfl) rfl low_nil rfl fun _ h => h

end Xv6.SmpMoves
