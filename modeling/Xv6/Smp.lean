import Xv6.PbsRuns

/-!
Several processors running the kernel threads of `proc.c` and `trap.c` against shared memory.

Every process has a kernel thread and every processor a scheduler thread. A thread is where it
stands in the code, `Pc`, with the calls it has to return to; what it executes from there is one
step, from the acquisition of a lock to the next acquisition, the next `swtch` or the return to
user space. A thread that wants a lock another processor holds spins: its step changes nothing.
`sleep`, `yield` and `exit` leave the processor with the lock of their own process held, which the
scheduler releases; the scheduler hands the lock of the process it picks over to that process.

An interrupt may come whenever a thread holds no lock. The rest of the kernel is the code that
takes some other spinlock and, holding it, wakes up, sleeps, or looks at `killed`.
-/

namespace Xv6.Smp

open Xv6.Riscv Xv6.CInt Xv6.Pbs
open Xv6.Process (ProcState)

abbrev Slot := Fin NPROC

inductive Lock
  | wait_lock
  | tickslock
  | proc (p : Slot)
  | other (n : ℕ)
  deriving DecidableEq

/-- The scheduler that was compiled in. -/
inductive Build
  | RR | PBS
  deriving DecidableEq

/-! ### Where a thread stands -/

inductive Syscall
  | fork
  | exit (status : ℤ)
  | wait
  | waitx
  | kill (pid : ℤ)
  | sleep (n : ℕ)
  | uptime
  | setpriority (pid priority : ℤ)
  /-- A call that works under some other spinlock. -/
  | other (lk : ℕ)
  /-- A call that takes none of the locks. -/
  | plain
  deriving DecidableEq

/-- The point of the code a thread is about to execute. A continuation `k` is where it goes on after
the call; `n` is the position of a loop over the process table. -/
inductive Pc
  /-- In user space. -/
  | user
  | panic
  /-- `killed(p)`, and where to go on either answer. -/
  | killed (yes no : Pc)
  | setkilled (k : Pc)
  | kill (pid : ℤ) (n : ℕ)
  /-- `old` is the static priority found. -/
  | setpriority (pid priority : ℤ) (n : ℕ) (old : Option ℤ)
  | allocproc (n : ℕ)
  /-- `fork` about to set the parent of `np`. -/
  | forkParent (np : Slot)
  /-- `fork` about to make `np` runnable. -/
  | forkStart (np : Slot)
  | exit (status : ℤ)
  /-- `exit` about to take `wait_lock`. -/
  | exitWait (status : ℤ)
  | reparent (status : ℤ) (n : ℕ)
  /-- `exit` about to become a zombie. -/
  | exitLock (status : ℤ)
  /-- After the last `sched`. -/
  | exited
  | wait (x : Bool)
  | waitScan (x : Bool) (n : ℕ) (havekids : Bool)
  /-- `wait` or `waitx` about to look at the child `pp`. -/
  | waitChild (x : Bool) (pp : Slot)
  | sleep (chan : ℕ) (lk : Lock) (k : Pc)
  /-- `swtch` to the scheduler, to go on at `k` when picked again. -/
  | sched (k : Pc)
  /-- `sleep` after `sched`. -/
  | asleep (lk : Lock) (k : Pc)
  /-- `sleep` about to take its lock again. -/
  | relock (lk : Lock) (k : Pc)
  | yield (k : Pc)
  /-- `yield` after `sched`. -/
  | yielded (k : Pc)
  | wakeup (chan : ℕ) (n : ℕ) (k : Pc)
  | unlock (lk : Lock) (k : Pc)
  | sys_sleep (n : ℕ)
  | sysSleepLoop (n ticks0 : ℕ)
  | sys_uptime
  /-- The rest of the kernel about to take the lock `lk`, and with it. -/
  | client (lk : ℕ) (k : Pc)
  | holding (lk : ℕ) (k : Pc)
  | clockintr (k : Pc)
  | update_time (n : ℕ) (k : Pc)
  /-- The end of `kerneltrap` on a timer interrupt. -/
  | kerneltrap (k : Pc)
  /-- A device interrupt handler about to take its lock, and with it. -/
  | device (lk : ℕ) (k : Pc)
  | notify (lk : ℕ) (k : Pc)
  /-- The scan of the `PBS` build with `max_priority` and `priority`. -/
  | scan (n : ℕ) (best : Option Slot) (priority : ℤ)
  /-- The loop of the `RR` build. -/
  | rr (n : ℕ)
  /-- The scheduler about to `swtch` to the process it picked. -/
  | swtchTo (p : Slot) (k : Pc)
  /-- The scheduler after that `swtch`. -/
  | switched (p : Slot) (k : Pc)
  deriving DecidableEq

/-- The second look of `usertrap` at `killed`, on the way back to user space. -/
def usertrapEnd (timer : Bool) : Pc := .killed (.exit (-1)) (if timer then .yield .user else .user)

/-- A new process leaves its first `swtch` in `forkret`, which releases the lock. -/
def forkret : Pc := .yielded .user

def slotAt (n : ℕ) : Option Slot := if h : n < NPROC then some ⟨n, h⟩ else none

/-- The lock of the thread's own process. -/
def ownLock : Option Slot → Option Lock
  | some i => some (.proc i)
  | none => none

/-- The lock the thread of `me` acquires next, if it is about to acquire one. -/
def want (me : Option Slot) : Pc → Option Lock
  | .killed _ _ | .setkilled _ | .exitLock _ | .sleep _ _ _ | .yield _ => ownLock me
  | .kill _ n | .setpriority _ _ n _ | .allocproc n | .update_time n _ | .scan n _ _ | .rr n =>
    (slotAt n).map .proc
  | .wakeup _ n _ => if slotAt n = me then none else (slotAt n).map .proc
  | .forkParent _ | .exitWait _ | .wait _ => some .wait_lock
  | .forkStart p | .waitChild _ p => some (.proc p)
  | .relock lk _ => some lk
  | .sys_sleep _ | .sys_uptime | .clockintr _ => some .tickslock
  | .client lk _ | .device lk _ => some (.other lk)
  | _ => none

/-- The locks the thread of `me` holds there when it is executing. -/
def held (me : Option Slot) : Pc → List Lock
  | .killed yes _ => held me yes
  | .wakeup _ _ k => held me k
  | .reparent _ _ | .exitLock _ | .waitScan _ _ _ | .waitChild _ _ => [.wait_lock]
  | .sleep _ lk _ | .unlock lk _ => [lk]
  | .sched _ | .asleep _ _ | .yielded _ => (ownLock me).toList
  | .sysSleepLoop _ _ | .update_time _ _ => [.tickslock]
  | .holding lk _ | .notify lk _ => [.other lk]
  | .scan _ best _ => best.toList.map .proc
  | .swtchTo p _ | .switched p _ => [.proc p]
  | _ => []

/-! ### What it executes -/

/-- What becomes known of exits and of the calls that report them. -/
inductive Event
  | exited (p : Slot) (pid status : ℤ)
  | returned (parent p : Slot) (pid status : ℤ)
  | freed (p : Slot)
  deriving DecidableEq

/-- Memory shared by the processors, with a record of what happened. -/
structure Shared where
  proc : Slot → Proc
  ticks : ℕ
  nextpid : ℤ
  log : List Event

/-- What one step of a thread does: where it goes on, memory, the locks it releases, and the
process whose saved context it sets to `forkret`. -/
structure Effect where
  pc : Pc
  sh : Shared
  free : List Lock
  start : Option Slot

/-- The outcome of a step where the code alone does not decide it. -/
inductive Choice
  | go
  /-- Out of memory, or a user address that cannot be written. -/
  | fail
  | timer
  | device (lk : ℕ)
  | syscall (call : Syscall)
  /-- A store page fault, which kills the process or not. -/
  | store (bad : Bool)
  /-- An unexpected trap. -/
  | fault
  | wakeup (chan : ℕ)
  | sleep (chan : ℕ)
  | killed
  deriving DecidableEq

/-- The sleep channel of process `p`. -/
def procChan (p : Slot) : ℕ := p.val + 1

/-- The null pointer. -/
def nullChan : ℕ := 0

/-- The sleep channel of the clock. -/
def ticksChan : ℕ := NPROC + 1

def initproc : Slot := PbsRuns.slot0

/-- The slot of the first process `init` forks. -/
def slot1 : Slot := ⟨1, one_lt_NPROC⟩

/-- The first of two processors. -/
def cpu0 : Fin 2 := ⟨0, Nat.zero_lt_two⟩

/-- The second of two processors. -/
def cpu1 : Fin 2 := ⟨1, Nat.one_lt_two⟩

def Shared.on (d : Shared) (p : Slot) (f : Proc → Proc) : Shared :=
  { d with proc := Function.update d.proc p (f (d.proc p)) }

def Shared.record (d : Shared) (es : List Event) : Shared := { d with log := d.log ++ es }

/-- Go on at `pc`. -/
def Effect.to (pc : Pc) (d : Shared) (free : List Lock) : Effect := ⟨pc, d, free, none⟩

/-- The first point of a system call. -/
def syscall : Syscall → Pc
  | .fork => .allocproc 0
  | .exit status => .exit status
  | .wait => .wait false
  | .waitx => .wait true
  | .kill pid => .kill pid 0
  | .sleep n => .sys_sleep n
  | .uptime => .sys_uptime
  | .setpriority pid priority => .setpriority pid priority 0 none
  | .other lk => .client lk (usertrapEnd false)
  | .plain => usertrapEnd false

/-- `usertrap` on what happens in user space. -/
def usertrap (i : Slot) (d : Shared) : Choice → Effect
  | .syscall call => .to (.killed (.exit (-1)) (syscall call)) d []
  -- a plain assignment, without the lock
  | .store bad =>
    .to (usertrapEnd false) (d.on i fun p => { p with killed := if bad then 1 else 0 }) []
  | .fault => .to (.setkilled (usertrapEnd false)) d []
  | _ => .to .user d []

/-- The slot's turn in `update_time`. -/
def tick (b : Build) (p : Proc) : Proc :=
  match b with
  | .PBS => PbsRuns.update_time p
  | .RR => if p.state = .RUNNING then { p with rtime := uint (p.rtime + 1) } else p

/-- Whether `p`, of dynamic priority `dp`, takes the place of `max_priority`. -/
def takesPlace (proc : Slot → Proc) (best : Option Slot) (priority dp : ℤ) (p : Slot) : Prop :=
  match best with
  | none => True
  | some m => dp < priority ∨ dp = priority ∧
      ((proc p).pbs_num_sched < (proc m).pbs_num_sched ∨
        (proc p).pbs_num_sched = (proc m).pbs_num_sched ∧ (proc p).ctime < (proc m).ctime)

instance (proc : Slot → Proc) (best : Option Slot) (priority dp : ℤ) (p : Slot) :
    Decidable (takesPlace proc best priority dp p) := by
  unfold takesPlace
  cases best <;> infer_instance

/-- The rest of `sys_setpriority`: it looks at the processes without their locks. -/
def sysSetpriorityEnd (pid : ℤ) (old : Option ℤ) (d : Shared) : Effect :=
  match old with
  | none => .to (usertrapEnd false) d []
  | some old =>
    if old = -1 then .to (usertrapEnd false) d []
    else match (List.finRange NPROC).find? fun p => (d.proc p).pid = pid with
      | none => .to (usertrapEnd false) d []
      | some p =>
        .to (if (sdp_priority (d.proc p)).1 < (d.proc p).pbs_dynamic_priority
            then .yield (usertrapEnd false) else usertrapEnd false)
          (d.on p fun p => (sdp_priority p).2) []

/-- The step of a process at one of its own points of the code. -/
def procCode (i : Slot) (ch : Choice) (d : Shared) : Pc → Effect
  | .user => usertrap i d ch
  | .setkilled k => .to k (d.on i fun p => { p with killed := 1 }) [.proc i]
  | .kill pid n =>
    match slotAt n with
    | none => .to (usertrapEnd false) d []
    | some p =>
      .to (if (d.proc p).pid = pid then usertrapEnd false else .kill pid (n + 1))
        (d.on p (PbsRuns.kill pid)) [.proc p]
  | .setpriority pid priority n old =>
    match slotAt n with
    | none => sysSetpriorityEnd pid old d
    | some p =>
      .to (.setpriority pid priority (n + 1)
          (if (d.proc p).pid = pid then some (d.proc p).pbs_static_priority else old))
        (d.on p (PbsRuns.setpriority pid priority)) [.proc p]
  | .allocproc n =>
    match slotAt n with
    | none => .to (usertrapEnd false) d []
    | some p =>
      if (d.proc p).state ≠ .UNUSED then .to (.allocproc (n + 1)) d [.proc p]
      else
        let d' := { d.on p (usedProc d.nextpid d.ticks) with nextpid := int (d.nextpid + 1) }
        if ch = .fail then
          .to (usertrapEnd false) ((d'.on p freeproc).record [.freed p]) [.proc p]
        else ⟨.forkParent p, d', [.proc p], some p⟩
  | .forkParent np =>
    .to (.forkStart np) (d.on np fun p => { p with parent := some i }) [.wait_lock]
  | .forkStart np =>
    .to (usertrapEnd false) (d.on np fun p => { p with state := .RUNNABLE }) [.proc np]
  -- files and the current directory are closed under other locks
  | .exit status =>
    if i = initproc then .to .panic d []
    else match ch with
      | .syscall (.other lk) => .to (.client lk (.exit status)) d []
      | _ => .to (.exitWait status) d []
  | .exitWait status => .to (.reparent status 0) d []
  | .reparent status n =>
    match slotAt n with
    | none =>
      .to (match (d.proc i).parent with
        | some q => .wakeup (procChan q) 0 (.exitLock status)
        | none => .wakeup nullChan 0 (.exitLock status)) d []
    | some p =>
      if (d.proc p).parent = some i then
        .to (.wakeup (procChan initproc) 0 (.reparent status (n + 1)))
          (d.on p fun p => { p with parent := some initproc }) []
      else .to (.reparent status (n + 1)) d []
  | .exitLock status =>
    .to (.sched .exited)
      ((d.on i fun p => { p with xstate := status, state := .ZOMBIE, etime := d.ticks }).record
        [.exited i (d.proc i).pid status]) [.wait_lock]
  | .wait x => .to (.waitScan x 0 false) d []
  | .waitScan x n havekids =>
    match slotAt n with
    | some p =>
      .to (if (d.proc p).parent = some i then .waitChild x p else .waitScan x (n + 1) havekids) d []
    | none =>
      let back := Pc.unlock .wait_lock (usertrapEnd false)
      let again := Pc.sleep (procChan i) .wait_lock (.waitScan x 0 false)
      .to (if havekids = false then back
        else if x then (if (d.proc i).killed ≠ 0 then back else again)
        else .killed back again) d []
  | .waitChild x pp =>
    if (d.proc pp).state ≠ .ZOMBIE then .to (.waitScan x (pp.val + 1) true) d [.proc pp]
    else if ch = .fail then .to (usertrapEnd false) d [.proc pp, .wait_lock]
    else .to (usertrapEnd false) ((d.on pp freeproc).record
      [.freed pp, .returned i pp (d.proc pp).pid (d.proc pp).xstate]) [.proc pp, .wait_lock]
  | .sleep chan lk k =>
    .to (.sched (.asleep lk k))
      (d.on i fun p => { p with chan := some chan, state := .SLEEPING }) [lk]
  | .asleep lk k => .to (.relock lk k) (d.on i fun p => { p with chan := none }) [.proc i]
  | .relock _ k => .to k d []
  | .yield k => .to (.sched (.yielded k)) (d.on i fun p => { p with state := .RUNNABLE }) []
  | .yielded k => .to k d [.proc i]
  | .killed yes no => .to (if (d.proc i).killed ≠ 0 then yes else no) d [.proc i]
  | .sys_sleep n => .to (.sysSleepLoop n d.ticks) d []
  | .sysSleepLoop n ticks0 =>
    let back := Pc.unlock .tickslock (usertrapEnd false)
    .to (if uint (d.ticks + 2 ^ 32 - ticks0) < n then
        .killed back (.sleep ticksChan .tickslock (.sysSleepLoop n ticks0))
      else back) d []
  | .sys_uptime => .to (usertrapEnd false) d [.tickslock]
  | .client lk k => .to (.holding lk k) d []
  | .holding lk k =>
    match ch with
    | .wakeup chan => .to (.wakeup chan 0 (.holding lk k)) d []
    | .sleep chan => .to (.sleep chan (.other lk) (.holding lk k)) d []
    | .killed => .to (.killed (.holding lk k) (.holding lk k)) d []
    | _ => .to k d [.other lk]
  | .kerneltrap k => .to (if (d.proc i).state = .RUNNING then .yield k else k) d []
  | pc => .to pc d []

/-- The step of a scheduler thread at one of its own points of the code. -/
def schedCode (d : Shared) : Pc → Effect
  | .scan n best priority =>
    match slotAt n with
    | none =>
      .to (match best with
        | some p => .swtchTo p (.scan 0 none 101)
        | none => .scan 0 none 101) d []
    | some p =>
      if (d.proc p).state ≠ .RUNNABLE then .to (.scan (n + 1) best priority) d [.proc p]
      else
        let dp := (dp_priority (d.proc p)).1
        let d' := d.on p fun p => (dp_priority p).2
        if takesPlace d'.proc best priority dp p then
          .to (.scan (n + 1) (some p) dp) d' (best.toList.map .proc)
        else .to (.scan (n + 1) best priority) d' [.proc p]
  | .rr n =>
    match slotAt n with
    | none => .to (.rr 0) d []
    | some p =>
      if (d.proc p).state = .RUNNABLE then .to (.swtchTo p (.rr (n + 1))) d []
      else .to (.rr (n + 1)) d [.proc p]
  | .kerneltrap k => .to k d []
  | pc => .to pc d []

/-- The step of a thread from `pc`, with the lock it wanted there. -/
def code (b : Build) (me : Option Slot) (ch : Choice) (d : Shared) : Pc → Effect
  | .wakeup chan n k =>
    match slotAt n with
    | none => .to k d []
    | some p =>
      if some p = me then .to (.wakeup chan (n + 1) k) d []
      else .to (.wakeup chan (n + 1) k) (d.on p (PbsRuns.wakeup chan)) [.proc p]
  | .unlock lk k => .to k d [lk]
  | .clockintr k => .to (.update_time 0 k) { d with ticks := uint (d.ticks + 1) } []
  | .update_time n k =>
    match slotAt n with
    | none => .to (.wakeup ticksChan 0 (.unlock .tickslock k)) d []
    | some p => .to (.update_time (n + 1) k) (d.on p (tick b)) [.proc p]
  | .device lk k => .to (.notify lk k) d []
  | .notify lk k =>
    match ch with
    | .wakeup chan => .to (.wakeup chan 0 (.notify lk k)) d []
    | _ => .to k d [.other lk]
  | pc =>
    match me with
    | some i => procCode i ch d pc
    | none => schedCode d pc

/-! ### The machine -/

variable {N : ℕ}

structure State (N : ℕ) where
  sh : Shared
  /-- The processor that holds a lock. -/
  owner : Lock → Option (Fin N)
  /-- `c->proc`. -/
  cproc : Fin N → Option Slot
  /-- The process whose kernel thread processor `c` executes, if it is not in the scheduler. -/
  cur : Fin N → Option Slot
  thread : Slot → Pc
  sched : Fin N → Pc

/-- Where processor `c` stands. -/
def State.pc (s : State N) (c : Fin N) : Pc :=
  match s.cur c with
  | some i => s.thread i
  | none => s.sched c

def State.setPc (s : State N) (c : Fin N) (pc : Pc) : State N :=
  match s.cur c with
  | some i => { s with thread := Function.update s.thread i pc }
  | none => { s with sched := Function.update s.sched c pc }

/-- The lock `l` is taken by `c`, if there is one. -/
def take (owner : Lock → Option (Fin N)) (c : Fin N) : Option Lock → Lock → Option (Fin N)
  | some l => Function.update owner l (some c)
  | none => owner

def drop (owner : Lock → Option (Fin N)) (free : List Lock) : Lock → Option (Fin N) :=
  fun l => if l ∈ free then none else owner l

/-- The context saved for a new process. -/
def startThread (thread : Slot → Pc) : Option Slot → Slot → Pc
  | some p => Function.update thread p forkret
  | none => thread

/-- Processor `c` executes its thread up to the next acquisition, with the lock it wanted. -/
def exec (b : Build) (s : State N) (c : Fin N) (ch : Choice) : State N :=
  let e := code b (s.cur c) ch s.sh (s.pc c)
  { s with
    sh := e.sh
    owner := drop (take s.owner c (want (s.cur c) (s.pc c))) e.free
    thread := startThread s.thread e.start }.setPc c e.pc

/-- The state of the process a scheduler switches to. -/
def picked (b : Build) (p : Proc) : Proc :=
  match b with
  | .PBS => PbsRuns.pick p
  | .RR => { p with state := .RUNNING }

def Choice.isInterrupt : Choice → Bool
  | .timer | .device _ => true
  | _ => false

/-- Where an interrupt takes processor `c` from `pc`. -/
def interrupt (c : Fin N) (ch : Choice) (pc : Pc) : Pc :=
  match ch with
  | .timer =>
    let back := if pc = .user then usertrapEnd true else .kerneltrap pc
    if c.val = 0 then .clockintr back else back
  | .device lk => .device lk (if pc = .user then usertrapEnd false else pc)
  | _ => pc

def step (b : Build) (s : State N) (c : Fin N) (ch : Choice) : State N :=
  if ch.isInterrupt then
    if held (s.cur c) (s.pc c) = [] then s.setPc c (interrupt c ch (s.pc c)) else s
  else match want (s.cur c) (s.pc c) with
    | some l => if s.owner l = none then exec b s c ch else s
    | none =>
      match s.cur c, s.pc c with
      | some i, .sched k =>
        { s with cur := Function.update s.cur c none, thread := Function.update s.thread i k }
      | none, .swtchTo p k =>
        { s with
          sh := s.sh.on p (picked b)
          cproc := Function.update s.cproc c (some p)
          cur := Function.update s.cur c (some p)
          sched := Function.update s.sched c (.switched p k) }
      | none, .switched p k =>
        { s with
          owner := drop s.owner [.proc p]
          cproc := Function.update s.cproc c none
          sched := Function.update s.sched c k }
      | _, _ => exec b s c ch

/-- The first point of `scheduler`. -/
def scheduler : Build → Pc
  | .PBS => .scan 0 none 101
  | .RR => .rr 0

/-- After `userinit`, with all processors in `scheduler`. -/
def boot (b : Build) (N : ℕ) : State N where
  sh :=
    { proc := Function.update (fun _ => zeroProc) initproc
        { usedProc 1 0 zeroProc with state := .RUNNABLE }
      ticks := 0
      nextpid := 2
      log := [] }
  owner := fun _ => none
  cproc := fun _ => none
  cur := fun _ => none
  thread := Function.update (fun _ => .exited) initproc forkret
  sched := fun _ => scheduler b

/-- The processors that move, one after the other, and what happens to them. -/
def run (b : Build) (s : State N) (es : List (Fin N × Choice)) : State N :=
  es.foldl (fun s e => step b s e.1 e.2) s

end Xv6.Smp
