import Xv6.SmpFamily

/-!
Every process has a living parent, and no parent sleeps through the death of a child.

`exit` wakes its parent up before it becomes a zombie, and `reparent` hands zombies to `init` before
it wakes `init` up. Both hold `wait_lock` all the way, and a parent that is woken up in `wait` needs
it to go on.
-/

namespace Xv6.SmpTree

open Xv6.Riscv Xv6.Pbs Xv6.Smp Xv6.SmpMoves Xv6.SmpInv Xv6.SmpWrites Xv6.SmpWakeup Xv6.SmpFamily
open Xv6.Process (ProcState)

variable {N : ℕ} {s s' : State N} {b : Build} {c c' : Fin N} {ch : Choice} {p q i np : Slot}
  {lk : Lock} {k pc : Pc} {d d' : Shared} {me : Option Slot} {e : Effect}

/-! ### Points of the code -/

/-- The thread of `i` sleeps under `wait_lock` only in `wait`, `init` does not exit, and `fork` makes
only slots with property `P` runnable. -/
def Tidy (i : Slot) (P : Slot → Prop) : Pc → Prop
  | .killed yes no => Tidy i P yes ∧ Tidy i P no
  | .setkilled k | .sched k | .yield k | .yielded k | .wakeup _ _ k | .unlock _ k | .client _ k
  | .holding _ k | .clockintr k | .update_time _ k | .kerneltrap k | .device _ k | .notify _ k =>
    Tidy i P k
  | .forkStart np => P np
  | .exitWait _ | .reparent _ _ | .exitLock _ => i ≠ initproc
  | .sleep chan lk k =>
    (lk = .wait_lock → chan = procChan i ∧ ∃ x, k = .waitScan x 0 false) ∧ Tidy i P k
  | .asleep lk k | .relock lk k => (lk = .wait_lock → ∃ x, k = .waitScan x 0 false) ∧ Tidy i P k
  | _ => True

variable {P Q : Slot → Prop}

lemma Tidy.mono (h : Tidy i P pc) (hPQ : ∀ np ∈ claims pc, P np → Q np) : Tidy i Q pc := by
  induction pc
  case forkStart np => exact hPQ np (by simp [claims]) h
  case killed yes no h1 h2 =>
    exact ⟨h1 h.1 fun np hnp => hPQ np (List.mem_append_left _ hnp),
      h2 h.2 fun np hnp => hPQ np (List.mem_append_right _ hnp)⟩
  case sleep chan lk k ih => exact ⟨h.1, ih h.2 hPQ⟩
  case asleep lk k ih => exact ⟨h.1, ih h.2 hPQ⟩
  case relock lk k ih => exact ⟨h.1, ih h.2 hPQ⟩
  all_goals first
    | exact h
    | next ih => exact ih h hPQ

lemma tidy_usertrapEnd (t : Bool) : Tidy i P (usertrapEnd t) := by
  cases t <;> exact ⟨trivial, trivial⟩

lemma tidy_syscall (call : Syscall) : Tidy i P (syscall call) := by
  cases call
  case other lk => exact tidy_usertrapEnd false
  case plain => exact tidy_usertrapEnd false
  all_goals trivial

lemma sysSetpriorityEnd_pc (pid : ℤ) (old : Option ℤ) (d : Shared) :
    (sysSetpriorityEnd pid old d).pc = usertrapEnd false ∨
      (sysSetpriorityEnd pid old d).pc = .yield (usertrapEnd false) := by
  unfold sysSetpriorityEnd
  split
  · exact Or.inl rfl
  · split_ifs
    · exact Or.inl rfl
    · split
      · exact Or.inl rfl
      · dsimp only [Effect.to]
        split_ifs
        · exact Or.inr rfl
        · exact Or.inl rfl

/-- Every section of a process leaves its thread tidy. -/
lemma code_tidy (h : Tidy i P pc) (hs : ¬ Switches pc) (hP : ∀ np, pc = .forkParent np → P np) :
    Tidy i P (code b (some i) ch d pc).pc := by
  cases pc
  case sched k => exact absurd trivial hs
  case swtchTo p k => exact absurd trivial hs
  case switched p k => exact absurd trivial hs
  case wakeup chan n k =>
    simp only [code]
    rcases slotAt n with _ | q
    · exact h
    · dsimp only
      split_ifs <;> exact h
  case update_time n k =>
    simp only [code]
    rcases slotAt n with _ | q <;> exact h
  case notify lk k =>
    simp only [code]
    split <;> exact h
  case clockintr k => exact h
  case device lk k => exact h
  case unlock lk k => exact h
  all_goals simp only [code, procCode]
  case user =>
    cases ch
    case syscall call => exact ⟨trivial, tidy_syscall call⟩
    case store bad => exact tidy_usertrapEnd false
    case fault => exact tidy_usertrapEnd false
    all_goals trivial
  case killed yes no =>
    dsimp only [Effect.to]
    split_ifs
    · exact h.1
    · exact h.2
  case kill pid n =>
    rcases slotAt n with _ | q
    · exact tidy_usertrapEnd false
    · dsimp only [Effect.to]
      split_ifs
      · exact tidy_usertrapEnd false
      · trivial
  case setpriority pid priority n old =>
    rcases slotAt n with _ | q
    · rcases sysSetpriorityEnd_pc pid old d with h1 | h1 <;> rw [h1] <;> exact tidy_usertrapEnd false
    · trivial
  case allocproc n =>
    rcases slotAt n with _ | q
    · exact tidy_usertrapEnd false
    · dsimp only
      split_ifs
      · trivial
      · exact tidy_usertrapEnd false
      · trivial
  case forkParent np => exact hP np rfl
  case forkStart np => exact tidy_usertrapEnd false
  case exit status =>
    split_ifs with hi
    · trivial
    · split
      · trivial
      · exact hi
  case reparent status n =>
    rcases slotAt n with _ | q
    · dsimp only [Effect.to]
      split <;> exact h
    · dsimp only
      split_ifs <;> exact h
  case waitScan x n havekids =>
    rcases slotAt n with _ | q
    · have hback : Tidy i P (.unlock .wait_lock (usertrapEnd false)) := tidy_usertrapEnd false
      have hagain : Tidy i P (.sleep (procChan i) .wait_lock (.waitScan x 0 false)) :=
        ⟨fun _ => ⟨rfl, x, rfl⟩, trivial⟩
      dsimp only [Effect.to]
      split_ifs
      · exact hback
      · exact hback
      · exact hagain
      · exact ⟨hback, hagain⟩
    · dsimp only [Effect.to]
      split_ifs <;> trivial
  case waitChild x pp =>
    split_ifs
    · trivial
    · exact tidy_usertrapEnd false
    · exact tidy_usertrapEnd false
  case exitLock status => trivial
  case sleep chan lk k => exact ⟨fun hl => (h.1 hl).2, h.2⟩
  case relock lk k => exact h.2
  case sysSleepLoop n ticks0 =>
    dsimp only [Effect.to]
    split_ifs
    · exact ⟨tidy_usertrapEnd false, ⟨(absurd · (by simp)), trivial⟩⟩
    · exact tidy_usertrapEnd false
  case sys_uptime => exact tidy_usertrapEnd false
  case holding lk k =>
    split
    · exact h
    · exact ⟨(absurd · (by simp)), h⟩
    · exact ⟨h, h⟩
    · exact h
  case kerneltrap k =>
    dsimp only [Effect.to]
    split_ifs <;> exact h
  all_goals exact h

lemma interrupt_tidy (h : Tidy i P pc) : Tidy i P (interrupt c ch pc) := by
  have hend := fun t => tidy_usertrapEnd (i := i) (P := P) t
  unfold interrupt
  split
  · by_cases hu : pc = .user
    · simp only [if_pos hu]
      split_ifs <;> exact hend true
    · simp only [if_neg hu]
      split_ifs <;> exact h
  · split_ifs
    · exact hend false
    · exact h
  · exact h

/-! ### Asleep in `wait` -/

/-- Between the `sleep` of `wait` or `waitx` and its return. -/
def InWait (pc : Pc) : Prop :=
  ∃ x, pc = .sched (.asleep .wait_lock (.waitScan x 0 false)) ∨
    pc = .asleep .wait_lock (.waitScan x 0 false)

/-- Process `q` sleeps in `wait` or `waitx`. -/
def AsleepIn (s : State N) (q : Slot) : Prop := (s.sh.proc q).state = .SLEEPING ∧ InWait (s.thread q)

/-- Who falls asleep calls `sleep`. -/
lemma wrote_sleeps (hw : Wrote me ch pc d e p) (h : (e.sh.proc p).state = .SLEEPING) :
    (d.proc p).state = .SLEEPING ∨ ∃ chan lk k, pc = .sleep chan lk k ∧ me = some p ∧
      (e.sh.proc p).chan = some chan := by
  rcases hw with
    h1 | h1 | ⟨bad, -, -, -, h1⟩ | ⟨k, -, -, h1⟩ | ⟨pid, n, -, -, h1⟩ | ⟨n, -, -, -, h1⟩ |
    ⟨n, -, -, -, h1⟩ | ⟨i, -, -, h1⟩ | ⟨-, h1⟩ | ⟨i, st, n, -, -, -, -, h1⟩ | ⟨st, -, -, h1⟩ |
    ⟨i, x, -, -, -, h1, -⟩ | ⟨chan, lk, k, hpc, hme, h1⟩ | ⟨lk, k, -, -, h1⟩ | ⟨k, -, -, h1⟩ |
    ⟨chan, n, k, -, -, -, h1⟩
  case sleep => exact Or.inr ⟨chan, lk, k, hpc, hme, by rw [h1]⟩
  case accounts => exact Or.inl (h1.state ▸ h)
  case kill =>
    rw [h1] at h
    rcases kill_state pid (d.proc p) with h2 | ⟨h2, -⟩
    · exact Or.inl (h2 ▸ h)
    · exact Or.inl h2
  case wakeup =>
    rw [h1] at h
    rcases wakeup_state chan (d.proc p) with h2 | ⟨h2, -⟩
    · exact Or.inl (h2 ▸ h)
    · exact Or.inl h2
  all_goals
    rw [h1] at h
    first
      | exact Or.inl h
      | cases h

lemma running_of_stays (h : Inv s) (hc : s.cur c = some p) (hs : ¬ Switches (s.pc c)) :
    (s.sh.proc p).state = .RUNNING := by
  rw [h.running c p hc, ← pc_some hc]
  exact stateOf_stays hs

lemma exec_eq : exec b s c ch =
    moved s c (want (s.cur c) (s.pc c)) (code b (s.cur c) ch s.sh (s.pc c)) := rfl

lemma exec_sh : (exec b s c ch).sh = (code b (s.cur c) ch s.sh (s.pc c)).sh := by
  rw [exec_eq, moved_sh]

/-! ### The invariant -/

/-- What the thread of `i`, on a processor, knows by holding `wait_lock`. -/
inductive Local (s : State N) (i : Slot) : Pc → Prop
  | reparent {st : ℤ} {n : ℕ} (h : ∀ p : Slot, p.val < n → (s.sh.proc p).parent ≠ some i) :
      Local s i (.reparent st n)
  | toInit {chan m : ℕ} {st : ℤ} {n : ℕ}
      (h : ∀ p : Slot, p.val < n → (s.sh.proc p).parent ≠ some i) :
      Local s i (.wakeup chan m (.reparent st n))
  | toParent {chan m : ℕ} {st : ℤ} (h : ∀ p, (s.sh.proc p).parent ≠ some i)
      (hq : ∀ q, (s.sh.proc i).parent = some q →
        chan = procChan q ∧ (q.val < m → ¬ AsleepIn s q)) :
      Local s i (.wakeup chan m (.exitLock st))
  | exitLock {st : ℤ} (h : ∀ p, (s.sh.proc p).parent ≠ some i)
      (hq : ∀ q, (s.sh.proc i).parent = some q → ¬ AsleepIn s q) : Local s i (.exitLock st)
  | waitScan {x : Bool} {n : ℕ} {havekids : Bool} (h : ∀ p : Slot, p.val < n →
        (s.sh.proc p).parent = some i → (s.sh.proc p).state ≠ .ZOMBIE) :
      Local s i (.waitScan x n havekids)
  | waitChild {x : Bool} {pp : Slot} (hpar : (s.sh.proc pp).parent = some i)
      (h : ∀ p : Slot, p.val < pp.val →
        (s.sh.proc p).parent = some i → (s.sh.proc p).state ≠ .ZOMBIE) :
      Local s i (.waitChild x pp)
  | killed {chan : ℕ} {k k' : Pc}
      (h : ∀ p, (s.sh.proc p).parent = some i → (s.sh.proc p).state ≠ .ZOMBIE) :
      Local s i (.killed (.unlock .wait_lock k) (.sleep chan .wait_lock k'))
  | sleep {chan : ℕ} {k : Pc}
      (h : ∀ p, (s.sh.proc p).parent = some i → (s.sh.proc p).state ≠ .ZOMBIE) :
      Local s i (.sleep chan .wait_lock k)
  | unlock {k : Pc} : Local s i (.unlock .wait_lock k)
  | other {pc : Pc} (h : Lock.wait_lock ∉ held (some i) pc) : Local s i pc

/-- Processor `c` is about to wake `q` up, with `wait_lock` held. -/
def Wakes (s : State N) (c : Fin N) (q : Slot) : Prop :=
  ∃ n k, s.pc c = .wakeup (procChan q) n k ∧ Lock.wait_lock ∈ held (s.cur c) k ∧ n ≤ q.val

structure Family (s : State N) : Prop where
  init : Alive (s.sh.proc initproc)
  tidy : ∀ i, Tidy i (fun np => (s.sh.proc np).parent ≠ none) (s.thread i)
  unused : ∀ p, (s.sh.proc p).state = .UNUSED → (s.sh.proc p).parent = none
  parent : ∀ p q, (s.sh.proc p).parent = some q → Alive (s.sh.proc q)
  orphan : ∀ p, p ≠ initproc → Alive (s.sh.proc p) ∨ (s.sh.proc p).state = .ZOMBIE →
    (s.sh.proc p).parent ≠ none
  chan : ∀ q, AsleepIn s q → (s.sh.proc q).chan = some (procChan q)
  zombie : ∀ p q, (s.sh.proc p).parent = some q → (s.sh.proc p).state = .ZOMBIE → AsleepIn s q →
    ∃ c, Wakes s c q
  locals : ∀ c i, s.cur c = some i → Local s i (s.pc c)

lemma Wakes.owner (h : Inv s) (hw : Wakes s c q) : s.owner .wait_lock = some c := by
  obtain ⟨n, k, hpc, hk, -⟩ := hw
  rw [h.own, hpc]
  exact hk

/-- No parent changes, nobody becomes a zombie and nobody falls asleep in `wait`. -/
structure Calm (s s' : State N) : Prop where
  parent : ∀ p, (s'.sh.proc p).parent = (s.sh.proc p).parent
  zombie : ∀ p, (s'.sh.proc p).state = .ZOMBIE → (s.sh.proc p).state = .ZOMBIE
  asleep : ∀ q, AsleepIn s' q → AsleepIn s q

lemma Local.calm (hc : Calm s s') (h : Local s i pc) : Local s' i pc := by
  have hkids : (∀ p, (s.sh.proc p).parent = some i → (s.sh.proc p).state ≠ .ZOMBIE) →
      ∀ p, (s'.sh.proc p).parent = some i → (s'.sh.proc p).state ≠ .ZOMBIE := fun h1 p h2 h3 =>
    h1 p (by rw [← hc.parent p]; exact h2) (hc.zombie p h3)
  have hbelow : ∀ {n : ℕ}, (∀ p : Slot, p.val < n → (s.sh.proc p).parent = some i →
      (s.sh.proc p).state ≠ .ZOMBIE) → ∀ p : Slot, p.val < n → (s'.sh.proc p).parent = some i →
      (s'.sh.proc p).state ≠ .ZOMBIE := fun h1 p hp h2 h3 =>
    h1 p hp (by rw [← hc.parent p]; exact h2) (hc.zombie p h3)
  cases h with
  | reparent h =>
    refine .reparent fun p hp => ?_
    rw [hc.parent]
    exact h p hp
  | toInit h =>
    refine .toInit fun p hp => ?_
    rw [hc.parent]
    exact h p hp
  | toParent h hq =>
    refine .toParent (fun p => ?_) fun q hpar => ?_
    · rw [hc.parent]
      exact h p
    · rw [hc.parent] at hpar
      exact ⟨(hq q hpar).1, fun hm hsl => (hq q hpar).2 hm (hc.asleep q hsl)⟩
  | exitLock h hq =>
    refine .exitLock (fun p => ?_) fun q hpar hsl => ?_
    · rw [hc.parent]
      exact h p
    · rw [hc.parent] at hpar
      exact hq q hpar (hc.asleep q hsl)
  | waitScan h => exact .waitScan (hbelow h)
  | waitChild hpar h => exact .waitChild (by rw [hc.parent]; exact hpar) (hbelow h)
  | killed h => exact .killed (hkids h)
  | sleep h => exact .sleep (hkids h)
  | unlock => exact .unlock
  | other h => exact .other h

/-! ### Sections keep it -/

section

variable {n : ℕ} (h : Inv s) (f : Family s) (hs : ¬ Switches (s.pc c))

include h hs

lemma exec_wrote (b : Build) (ch : Choice) (p : Slot) :
    Wrote (s.cur c) ch (s.pc c) s.sh (code b (s.cur c) ch s.sh (s.pc c)) p :=
  code_wrote (h.wf c) hs p

lemma exec_kin (b : Build) (ch : Choice) (p : Slot) :
    Kin (s.cur c) (s.pc c) s.sh (code b (s.cur c) ch s.sh (s.pc c)) p :=
  kin_of_wrote (exec_wrote h hs b ch p)

lemma exec_start (hst : (code b (s.cur c) ch s.sh (s.pc c)).start = some p) :
    (s.sh.proc p).state = .UNUSED :=
  ((code_moves (h.wf c) hs).fresh p hst).2.1

lemma exec_used (hused : (s.sh.proc np).state = .USED) :
    ((exec b s c ch).sh.proc np).state ≠ .UNUSED := by
  rw [exec_sh]
  intro hun
  rcases exec_kin h hs b ch np with ⟨hst, -, -, -⟩ | ⟨hst, -, -⟩ | ⟨hst, -, -⟩ |
    ⟨i, -, -, hst, -, -, -⟩ | ⟨-, hst, -⟩ | ⟨i, st, n, -, -, -, -, hst, -, -, -⟩ |
    ⟨st, -, -, hst, -, -, -⟩ | ⟨-, hst, -⟩
  · rcases hst with hst | ⟨hst, -⟩
    · rw [hst, hused] at hun
      cases hun
    · rw [hused] at hst
      cases hst
  · rw [hused] at hst
    cases hst
  · rcases hst with hst | ⟨hst, -⟩ <;> rw [hused] at hst <;> cases hst
  · rw [hst, hused] at hun
    cases hun
  · rw [hun] at hst
    cases hst
  · rw [hst, hused] at hun
    cases hun
  · rw [hun] at hst
    cases hst
  · rcases hst with hst | hst <;> rw [hun] at hst <;> cases hst

include f

/-- Who is asleep in `wait` after a section was so before, or has just called `sleep` there. -/
lemma exec_asleep (hq : AsleepIn (exec b s c ch) q) :
    (s.cur c ≠ some q ∧ AsleepIn s q ∧
      ((exec b s c ch).sh.proc q).chan = (s.sh.proc q).chan) ∨
    (s.cur c = some q ∧ (∃ x, s.pc c = .sleep (procChan q) .wait_lock (.waitScan x 0 false)) ∧
      ((exec b s c ch).sh.proc q).chan = some (procChan q)) := by
  obtain ⟨hsl, hin⟩ := hq
  rw [exec_sh] at hsl ⊢
  rw [exec_eq] at hin
  have hwrote := exec_wrote h hs b ch q
  have hsleeps := wrote_sleeps hwrote hsl
  by_cases hc : s.cur c = some q
  · refine Or.inr ⟨hc, ?_⟩
    rcases hsleeps with h1 | ⟨chan, lk, k, hpc, -, hchan⟩
    · rw [running_of_stays h hc hs] at h1
      cases h1
    · have htidy := f.tidy q
      rw [← pc_some hc, hpc] at htidy
      rw [moved_thread_self hc, hc, hpc] at hin
      obtain ⟨x, hin | hin⟩ := hin
      · cases hin
        obtain ⟨rfl, -⟩ := htidy.1 rfl
        exact ⟨⟨x, hpc⟩, hchan⟩
      · cases hin
  · refine Or.inl ⟨hc, ?_⟩
    rcases hsleeps with h1 | ⟨chan, lk, k, -, hme, -⟩
    · refine ⟨⟨h1, ?_⟩, ((wrote_other hwrote hc (Or.inl h1)).sleeping hsl).2⟩
      rwa [moved_thread_other hc] at hin
      intro hst
      rw [exec_start h hs hst] at h1
      cases h1
    · exact absurd hme hc

/-- Who holds `wait_lock` sees calm. -/
lemma exec_calm (hw : Free s (want (s.cur c) (s.pc c))) (hlk : s.owner .wait_lock = some c')
    (hne : c' ≠ c) : Calm s (exec b s c ch) := by
  have hheld : Lock.wait_lock ∉ held (s.cur c) (s.pc c) := fun h1 => by
    rw [← h.own, hlk] at h1
    exact hne (Option.some.inj h1)
  have hwant : want (s.cur c) (s.pc c) ≠ some .wait_lock := fun h1 => by
    rw [hw _ h1] at hlk
    cases hlk
  refine ⟨fun p => ?_, fun p hz => ?_, fun q hq => ?_⟩
  · rw [exec_sh]
    rcases exec_kin h hs b ch p with ⟨-, hpar, -, -⟩ | ⟨-, -, hpar⟩ | ⟨hst, -, hpar⟩ |
      ⟨i, hpc, -, -, -, -, -⟩ | ⟨-, -, hpar⟩ | ⟨i, st, n, hpc, -, -, -, -, -, -, -⟩ |
      ⟨st, -, -, -, hpar, -, -⟩ | ⟨-, -, hpar⟩
    · exact hpar
    · exact hpar
    · rcases hst with hst | ⟨-, x, hpc⟩
      · rw [hpar, f.unused p hst]
      · rw [hpc] at hheld
        simp [held] at hheld
    · rw [hpc] at hwant
      simp [want] at hwant
    · exact hpar
    · rw [hpc] at hheld
      simp [held] at hheld
    · exact hpar
    · exact hpar
  · rw [exec_sh] at hz
    rcases (kin_zombie (exec_kin h hs b ch p) hz).2 with ⟨h1, -⟩ | ⟨st, hpc, -, -⟩
    · exact h1
    · rw [hpc] at hheld
      simp [held] at hheld
  · rcases exec_asleep h f hs hq with ⟨-, h1, -⟩ | ⟨-, ⟨x, hpc⟩, -⟩
    · exact h1
    · rw [hpc] at hheld
      simp [held] at hheld

lemma exec_parent_alive (hpar : (s.sh.proc p).parent = some q) :
    Alive ((exec b s c ch).sh.proc q) := by
  rw [exec_sh]
  rcases kin_alive (exec_kin h hs b ch q) (f.parent p q hpar) with h1 | ⟨st, hpc, hme⟩
  · exact h1
  · have hl := f.locals c q hme
    rw [hpc] at hl
    cases hl with
    | exitLock h1 => exact absurd hpar (h1 p)
    | other h1 => simp [held] at h1

lemma exec_init : Alive ((exec b s c ch).sh.proc initproc) := by
  rw [exec_sh]
  rcases kin_alive (exec_kin h hs b ch initproc) f.init with h1 | ⟨st, hpc, hme⟩
  · exact h1
  · have htidy := f.tidy initproc
    rw [← pc_some hme, hpc] at htidy
    exact absurd rfl htidy

lemma exec_parent (hpar : ((exec b s c ch).sh.proc p).parent = some q) :
    Alive ((exec b s c ch).sh.proc q) := by
  rw [exec_sh] at hpar
  rcases kin_parent (exec_kin h hs b ch p) hpar with h1 | ⟨hpc, hme⟩ |
    ⟨i, st, n, -, -, -, -, rfl⟩
  · exact exec_parent_alive h f hs h1
  · rw [exec_sh]
    have hrun : Alive (s.sh.proc q) := Or.inr (Or.inr (running_of_stays h hme hs))
    rcases kin_alive (exec_kin h hs b ch q) hrun with h1 | ⟨st, hpc', -⟩
    · exact h1
    · rw [hpc] at hpc'
      cases hpc'
  · exact exec_init h f hs

omit f in
lemma exec_orphan (hpar : (s.sh.proc p).parent ≠ none)
    (hst : ((exec b s c ch).sh.proc p).state ≠ .UNUSED) :
    ((exec b s c ch).sh.proc p).parent ≠ none := by
  rw [exec_sh] at hst ⊢
  intro h1
  rcases kin_orphan (exec_kin h hs b ch p) h1 with h2 | h2
  · exact hpar h2
  · exact hst h2

lemma exec_tidy (i : Slot) : Tidy i (fun np => ((exec b s c ch).sh.proc np).parent ≠ none)
    ((exec b s c ch).thread i) := by
  by_cases hc : s.cur c = some i
  · have hpc : (exec b s c ch).thread i = (code b (some i) ch s.sh (s.pc c)).pc := by
      rw [exec_eq, moved_thread_self hc, hc]
    have hold := f.tidy i
    rw [← pc_some hc] at hold
    rw [hpc]
    refine code_tidy (hold.mono fun np hnp hpar => ?_) hs fun np hfork => ?_
    · rw [pc_some hc] at hnp
      exact exec_orphan h hs hpar (exec_used h hs (h.claim i np hnp))
    · rw [exec_sh, hc, hfork]
      simp [code, procCode, Effect.to, on_self]
  · by_cases hst : (code b (s.cur c) ch s.sh (s.pc c)).start = some i
    · rw [exec_eq, moved_thread_start hc hst]
      exact trivial
    · rw [show (exec b s c ch).thread i = s.thread i by rw [exec_eq, moved_thread_other hc hst]]
      exact (f.tidy i).mono fun np hnp hpar =>
        exec_orphan h hs hpar (exec_used h hs (h.claim i np hnp))

lemma exec_unused (hun : ((exec b s c ch).sh.proc p).state = .UNUSED) :
    ((exec b s c ch).sh.proc p).parent = none := by
  rw [exec_sh] at hun ⊢
  rcases exec_kin h hs b ch p with ⟨hst, hpar, -, -⟩ | ⟨-, hst, -⟩ | ⟨-, -, hpar⟩ |
    ⟨i, hpc, -, hst, -, -, -⟩ | ⟨-, hst, -⟩ | ⟨i, st, n, -, -, -, hold, hst, -, -, -⟩ |
    ⟨st, -, -, hst, -, -, -⟩ | ⟨-, hst, -⟩
  · rcases hst with hst | ⟨-, hst⟩
    · rw [hpar]
      exact f.unused p (hst ▸ hun)
    · rw [hun] at hst
      cases hst
  · rw [hun] at hst
    cases hst
  · exact hpar
  · obtain ⟨-, -, -, hused⟩ := h.claim_used c (by rw [hpc]; simp [claims] : p ∈ claims (s.pc c))
    rw [hst, hused] at hun
    cases hun
  · rw [hun] at hst
    cases hst
  · rw [f.unused p (hst ▸ hun)] at hold
    cases hold
  · rw [hun] at hst
    cases hst
  · rcases hst with hst | hst <;> rw [hun] at hst <;> cases hst

lemma exec_family_orphan (hp : p ≠ initproc) (hst : Alive ((exec b s c ch).sh.proc p) ∨
    ((exec b s c ch).sh.proc p).state = .ZOMBIE) :
    ((exec b s c ch).sh.proc p).parent ≠ none := by
  have hused : ((exec b s c ch).sh.proc p).state ≠ .UNUSED := by
    rintro hun
    unfold Alive at hst
    rw [hun] at hst
    simp at hst
  refine exec_orphan h hs ?_ hused
  rw [exec_sh] at hst
  have hrun : s.cur c = some p → Alive (s.sh.proc p) := fun hc =>
    Or.inr (Or.inr (running_of_stays h hc hs))
  rcases kin_born (exec_kin h hs b ch p) hrun hst with h1 | hpc
  · exact f.orphan p hp h1
  · -- `fork` has set the parent of the slot it starts
    have hwf := h.wf c
    rw [hpc] at hwf
    obtain ⟨i, hi⟩ := Option.isSome_iff_exists.mp hwf
    have htidy := f.tidy i
    rw [← pc_some hi, hpc] at htidy
    exact htidy

lemma exec_chan (hq : AsleepIn (exec b s c ch) q) :
    ((exec b s c ch).sh.proc q).chan = some (procChan q) := by
  rcases exec_asleep h f hs hq with ⟨-, h1, h2⟩ | ⟨-, -, h2⟩
  · rw [h2]
    exact f.chan q h1
  · exact h2

lemma exec_wakes (hpc : s.pc c = .wakeup (procChan q) n k)
    (hk : Lock.wait_lock ∈ held (s.cur c) k) (hn : n ≤ q.val)
    (hq : AsleepIn (exec b s c ch) q) : Wakes (exec b s c ch) c q := by
  have hslot : slotAt n = some ⟨n, lt_of_le_of_lt hn q.isLt⟩ := dif_pos _
  rcases exec_asleep h f hs hq with ⟨hne, h1, -⟩ | ⟨-, ⟨x, h1⟩, -⟩
  · refine ⟨n + 1, k, ?_, by rw [exec_eq, moved_cur]; exact hk, ?_⟩
    · rw [exec_eq, moved_pc_self, hpc]
      simp only [code, hslot]
      split_ifs <;> rfl
    · by_contra hlt
      obtain rfl : n = q.val := by omega
      refine wakeup_awake (fun _ => f.chan q h1 : _ → _ = some (procChan q)) (?_ : (_ : ProcState) = _)
      rw [← hq.1, exec_sh, hpc]
      simp only [code, hslot, Fin.eta]
      rw [if_neg (Ne.symm hne)]
      simp [Effect.to, on_self]
  · rw [hpc] at h1
    cases h1

omit f in
lemma exec_pc_other (hne : c' ≠ c) : (exec b s c ch).pc c' = s.pc c' :=
  moved_pc_other h (code_moves (h.wf c) hs) hne

/-- **A zombie's parent is not asleep, or about to be woken up.** -/
lemma exec_zombie (hpar : ((exec b s c ch).sh.proc p).parent = some q)
    (hz : ((exec b s c ch).sh.proc p).state = .ZOMBIE) (hq : AsleepIn (exec b s c ch) q) :
    ∃ c', Wakes (exec b s c ch) c' q := by
  have hq' := hq
  rw [exec_sh] at hpar hz
  have hkin := exec_kin h hs b ch p
  rcases exec_asleep h f hs hq with ⟨hme, h1, -⟩ | ⟨hme, ⟨x, hpc⟩, -⟩
  · rcases kin_parent hkin hpar with h2 | ⟨-, h2⟩ | ⟨i, st, n, hpc, hi, hn, hold, rfl⟩
    · rcases (kin_zombie hkin hz).2 with ⟨h3, -⟩ | ⟨st, hpc, hp, -⟩
      · obtain ⟨c0, hwakes⟩ := f.zombie p q h2 h3 h1
        by_cases hne : c0 = c
        · subst hne
          obtain ⟨n, k, hpc, hk, hn⟩ := hwakes
          exact ⟨c0, exec_wakes h f hs hpc hk hn hq'⟩
        · obtain ⟨n, k, hpc, hk, hn⟩ := hwakes
          refine ⟨c0, n, k, ?_, by rw [exec_eq, moved_cur]; exact hk, hn⟩
          rw [exec_pc_other h hs hne, hpc]
      · -- `exit` has woken the parent up and holds `wait_lock` since
        have hl := f.locals c p hp
        rw [hpc] at hl
        cases hl with
        | exitLock _ h4 => exact absurd h1 (h4 q h2)
        | other h4 => simp [held] at h4
    · exact absurd h2 hme
    · -- `reparent` goes on to wake `init` up
      refine ⟨c, 0, .reparent st (n + 1), ?_, by simp [held], Nat.zero_le _⟩
      rw [exec_eq, moved_pc_self, hpc, hi]
      simp only [code, procCode, hn, if_pos hold]
      rfl
  · have hl := f.locals c q hme
    rw [hpc] at hl
    have h2 : (s.sh.proc p).parent = some q := by
      rcases kin_parent hkin hpar with h2 | ⟨h2, -⟩ | ⟨i, st, n, h2, -, -, -, -⟩
      · exact h2
      · rw [hpc] at h2
        cases h2
      · rw [hpc] at h2
        cases h2
    have h3 : (s.sh.proc p).state = .ZOMBIE := by
      rcases (kin_zombie hkin hz).2 with ⟨h3, -⟩ | ⟨st, h3, -, -⟩
      · exact h3
      · rw [hpc] at h3
        cases h3
    cases hl with
    | sleep h4 => exact absurd h3 (h4 p h2)
    | other h4 => simp [held] at h4

end

/-! ### What the holder of `wait_lock` knows -/

section

variable (h : Inv s) (f : Family s) (hs : ¬ Switches (s.pc c)) (hc : s.cur c = some i)

include hc

lemma exec_sh_self (hpc : s.pc c = pc) :
    (exec b s c ch).sh = (code b (some i) ch s.sh pc).sh := by
  rw [exec_sh, hc, hpc]

lemma exec_wakeup_parent {chan m : ℕ} (hpc : s.pc c = .wakeup chan m k) (p : Slot) :
    ((exec b s c ch).sh.proc p).parent = (s.sh.proc p).parent := by
  rw [exec_sh_self hc hpc]
  simp only [code]
  rcases slotAt m with _ | q
  · rfl
  · dsimp only
    split_ifs
    · rfl
    · by_cases hp : p = q
      · subst hp
        simp only [Effect.to, on_self]
        exact (wakeup_zombie chan _).1
      · simp only [Effect.to, on_other hp]

include f in
lemma local_reparent {st : ℤ} {n : ℕ} (hpc : s.pc c = .reparent st n)
    (hbelow : ∀ p : Slot, p.val < n → (s.sh.proc p).parent ≠ some i) :
    Local (exec b s c ch) i (code b (some i) ch s.sh (.reparent st n)).pc := by
  have hsh : (exec b s c ch).sh = _ := exec_sh_self hc hpc
  have hinit : i ≠ initproc := by
    have htidy := f.tidy i
    rw [← pc_some hc, hpc] at htidy
    exact htidy
  rcases hn : slotAt n with _ | q
  · have hsame : (exec b s c ch).sh = s.sh := by
      rw [hsh]
      simp [code, procCode, hn, Effect.to]
    have hall : ∀ p, ((exec b s c ch).sh.proc p).parent ≠ some i := fun p => by
      rw [hsame]
      exact hbelow p (lt_of_lt_of_le p.isLt (slotAt_none hn))
    simp only [code, procCode, hn, Effect.to]
    rcases hpar : (s.sh.proc i).parent with _ | q
    · exact .toParent hall fun q hq => by rw [hsame, hpar] at hq; cases hq
    · refine .toParent hall fun q' hq => ?_
      rw [hsame, hpar] at hq
      cases hq
      exact ⟨rfl, fun hlt => by omega⟩
  · have hq := slotAt_some hn
    by_cases hold : (s.sh.proc q).parent = some i
    · have hnew : (exec b s c ch).sh = s.sh.on q fun p => { p with parent := some initproc } := by
        rw [hsh]
        simp only [code, procCode, hn, if_pos hold, Effect.to]
      simp only [code, procCode, hn, if_pos hold, Effect.to]
      refine .toInit fun p hp => ?_
      rw [hnew]
      by_cases hpq : p = q
      · subst hpq
        rw [on_self]
        exact fun h1 => hinit (Option.some.inj h1).symm
      · rw [on_other hpq]
        exact hbelow p (by have := Fin.val_ne_of_ne hpq; omega)
    · have hsame : (exec b s c ch).sh = s.sh := by
        rw [hsh]
        simp only [code, procCode, hn, if_neg hold, Effect.to]
      simp only [code, procCode, hn, if_neg hold, Effect.to]
      refine .reparent fun p hp => ?_
      rw [hsame]
      by_cases hpq : p = q
      · rw [hpq]
        exact hold
      · exact hbelow p (by have := Fin.val_ne_of_ne hpq; omega)

lemma local_toInit {chan m : ℕ} {st : ℤ} {n : ℕ} (hpc : s.pc c = .wakeup chan m (.reparent st n))
    (hbelow : ∀ p : Slot, p.val < n → (s.sh.proc p).parent ≠ some i) :
    Local (exec b s c ch) i (code b (some i) ch s.sh (.wakeup chan m (.reparent st n))).pc := by
  have hnew : ∀ p : Slot, p.val < n → ((exec b s c ch).sh.proc p).parent ≠ some i := fun p hp => by
    rw [exec_wakeup_parent hc hpc]
    exact hbelow p hp
  simp only [code]
  rcases slotAt m with _ | q
  · exact .reparent hnew
  · dsimp only
    split_ifs <;> exact .toInit hnew

include h f hs in
lemma local_toParent {chan m : ℕ} {st : ℤ} (hpc : s.pc c = .wakeup chan m (.exitLock st))
    (hall : ∀ p, (s.sh.proc p).parent ≠ some i) (hq : ∀ q, (s.sh.proc i).parent = some q →
      chan = procChan q ∧ (q.val < m → ¬ AsleepIn s q)) :
    Local (exec b s c ch) i (code b (some i) ch s.sh (.wakeup chan m (.exitLock st))).pc := by
  have hpar := fun p => (exec_wakeup_parent hc hpc p :
    ((exec b s c ch).sh.proc p).parent = _)
  have hnew : ∀ p, ((exec b s c ch).sh.proc p).parent ≠ some i := fun p => by
    rw [hpar]
    exact hall p
  have hkeeps : ∀ q, AsleepIn (exec b s c ch) q → AsleepIn s q := fun q hsl => by
    rcases exec_asleep h f hs hsl with ⟨-, h1, -⟩ | ⟨-, ⟨x, h1⟩, -⟩
    · exact h1
    · rw [hpc] at h1
      cases h1
  rcases hm : slotAt m with _ | r
  · simp only [code, hm, Effect.to]
    refine .exitLock hnew fun q h1 hsl => ?_
    rw [hpar] at h1
    exact (hq q h1).2 (lt_of_lt_of_le q.isLt (slotAt_none hm)) (hkeeps q hsl)
  · have hgo : (code b (some i) ch s.sh (.wakeup chan m (.exitLock st))).pc =
        .wakeup chan (m + 1) (.exitLock st) := by
      simp only [code, hm]
      split_ifs <;> rfl
    rw [hgo]
    refine .toParent hnew fun q h1 => ?_
    rw [hpar] at h1
    obtain ⟨hchan, hpassed⟩ := hq q h1
    refine ⟨hchan, fun hlt hsl => ?_⟩
    by_cases hqm : q.val < m
    · exact hpassed hqm (hkeeps q hsl)
    · -- its slot has just been passed
      rw [hchan] at hpc
      obtain ⟨n', k', hpc', -, hn'⟩ := exec_wakes h f hs hpc (by simp [held]) (by omega) hsl
      rw [exec_eq, moved_pc_self, hc, hpc, ← hchan, hgo] at hpc'
      cases hpc'
      omega

lemma local_waitScan {x havekids : Bool} {n : ℕ} (hpc : s.pc c = .waitScan x n havekids)
    (hbelow : ∀ p : Slot, p.val < n → (s.sh.proc p).parent = some i →
      (s.sh.proc p).state ≠ .ZOMBIE) :
    Local (exec b s c ch) i (code b (some i) ch s.sh (.waitScan x n havekids)).pc := by
  have hsame : (exec b s c ch).sh = s.sh := by
    rw [exec_sh_self hc hpc]
    simp only [code, procCode]
    rcases slotAt n with _ | q <;> rfl
  rcases hn : slotAt n with _ | q
  · have hall : ∀ p, ((exec b s c ch).sh.proc p).parent = some i →
        ((exec b s c ch).sh.proc p).state ≠ .ZOMBIE := fun p => by
      rw [hsame]
      exact hbelow p (lt_of_lt_of_le p.isLt (slotAt_none hn))
    simp only [code, procCode, hn, Effect.to]
    split_ifs
    · exact .unlock
    · exact .unlock
    · exact .sleep hall
    · exact .killed hall
  · have hq := slotAt_some hn
    simp only [code, procCode, hn, Effect.to]
    split_ifs with hpar
    · refine .waitChild (by rw [hsame]; exact hpar) fun p hp => ?_
      rw [hsame]
      exact hbelow p (by omega)
    · refine .waitScan fun p hp => ?_
      rw [hsame]
      by_cases hpq : p = q
      · rw [hpq]
        exact fun h1 => absurd h1 hpar
      · exact hbelow p (by have := Fin.val_ne_of_ne hpq; omega)

lemma local_waitChild {x : Bool} {pp : Slot} (hpc : s.pc c = .waitChild x pp)
    (hbelow : ∀ p : Slot, p.val < pp.val → (s.sh.proc p).parent = some i →
      (s.sh.proc p).state ≠ .ZOMBIE) :
    Local (exec b s c ch) i (code b (some i) ch s.sh (.waitChild x pp)).pc := by
  have hsh : (exec b s c ch).sh = _ := exec_sh_self hc hpc
  simp only [code, procCode] at hsh ⊢
  split_ifs with h1 h2
  · rw [if_pos h1] at hsh
    have hsame : (exec b s c ch).sh = s.sh := hsh
    refine .waitScan fun p hp => ?_
    rw [hsame]
    by_cases hpq : p = pp
    · rw [hpq]
      exact fun _ => h1
    · exact hbelow p (by have := Fin.val_ne_of_ne hpq; omega)
  · exact .other (by simp [Effect.to])
  · exact .other (by simp [Effect.to])

include h f hs

/-- Without `wait_lock` there is nothing to know before it is taken. -/
lemma local_other (hno : Lock.wait_lock ∉ held (some i) (s.pc c)) :
    Local (exec b s c ch) i (code b (some i) ch s.sh (s.pc c)).pc := by
  have hwf := h.wf c
  rw [hc] at hwf
  have htidy := f.tidy i
  rw [← pc_some hc] at htidy
  by_cases hwant : want (some i) (s.pc c) = some .wait_lock
  · generalize s.pc c = pc at hwant htidy hno
    cases pc
    case forkParent np => exact .other (by simp [code, procCode, Effect.to, held])
    case exitWait st => exact .reparent fun p hp => by omega
    case wait x => exact .waitScan fun p hp => by omega
    case relock lk k =>
      obtain rfl : lk = .wait_lock := Option.some.inj hwant
      obtain ⟨x, rfl⟩ := htidy.1 rfl
      exact .waitScan fun p hp => by omega
    case wakeup chan n k =>
      simp only [want] at hwant
      split_ifs at hwant
      rcases hn : slotAt n with _ | q <;> rw [hn] at hwant <;> cases hwant
    all_goals simp [want, ownLock] at hwant
  · refine .other fun hl => ?_
    have hm := @code_moves _ _ s.sh ch b hwf hs
    rcases ((hm.holds _).mp hl).1 with h1 | h1
    · exact hno h1
    · exact hwant h1

/-- **What a thread knows follows it**, to wherever the section takes it. -/
lemma exec_local : Local (exec b s c ch) i (code b (some i) ch s.sh (s.pc c)).pc := by
  have hl := f.locals c i hc
  have hwf := h.wf c
  generalize hpc : s.pc c = pc at hl hwf ⊢
  cases hl with
  | reparent h1 => exact local_reparent f hc hpc h1
  | toInit h1 => exact local_toInit hc hpc h1
  | toParent h1 h2 => exact local_toParent h f hs hc hpc h1 h2
  | exitLock h1 h2 => exact .other (by simp [code, procCode, Effect.to, held, ownLock])
  | waitScan h1 => exact local_waitScan hc hpc h1
  | waitChild h1 h2 => exact local_waitChild hc hpc h2
  | killed h1 =>
    have hsame : (exec b s c ch).sh = s.sh := exec_sh_self hc hpc
    simp only [code, procCode, Effect.to]
    split_ifs
    · exact .unlock
    · refine .sleep fun p => ?_
      rw [hsame]
      exact h1 p
  | sleep h1 => exact .other (by simp [code, procCode, Effect.to, held, ownLock])
  | unlock =>
    refine .other ?_
    rw [hc] at hwf
    simp [code, Effect.to, hwf.2.1]
  | other h1 =>
    rw [← hpc] at h1 ⊢
    exact local_other h f hs hc h1

end

/-- **A section keeps the invariant.** -/
lemma Family.exec (h : Inv s) (f : Family s) (hw : Free s (want (s.cur c) (s.pc c)))
    (hs : ¬ Switches (s.pc c)) (b : Build) (ch : Choice) : Family (exec b s c ch) where
  init := exec_init h f hs
  tidy := exec_tidy h f hs
  unused _ := exec_unused h f hs
  parent _ _ := exec_parent h f hs
  orphan _ := exec_family_orphan h f hs
  chan _ := exec_chan h f hs
  zombie _ _ := exec_zombie h f hs
  locals c' j hj := by
    rw [exec_eq, moved_cur] at hj
    by_cases hne : c' = c
    · subst hne
      have hl : Local (Smp.exec b s c' ch) j _ := exec_local h f hs hj
      rwa [show (Smp.exec b s c' ch).pc c' = (code b (some j) ch s.sh (s.pc c')).pc by
        rw [exec_eq, moved_pc_self, hj]]
    · rw [exec_pc_other h hs hne]
      have hl := f.locals c' j hj
      by_cases hlk : s.owner .wait_lock = some c'
      · exact hl.calm (exec_calm h f hs hw hlk hne)
      · refine .other fun h1 => hlk ?_
        rw [h.own, hj]
        exact h1

/-! ### The other steps -/

/-- A step of processor `c` that writes no parent and wakes nobody up: at most a runnable process is
running now. -/
structure Quiet (s s' : State N) (c : Fin N) : Prop where
  other : ∀ c', c' ≠ c → s'.cur c' = s.cur c' ∧ s'.pc c' = s.pc c'
  parent : ∀ p, (s'.sh.proc p).parent = (s.sh.proc p).parent
  state : ∀ p, (s'.sh.proc p).state = (s.sh.proc p).state ∨
    (s.sh.proc p).state = .RUNNABLE ∧ (s'.sh.proc p).state = .RUNNING
  chan : ∀ p, (s'.sh.proc p).chan = (s.sh.proc p).chan
  asleep : ∀ q, (s'.sh.proc q).state = .SLEEPING → InWait (s'.thread q) → InWait (s.thread q)
  tidy : ∀ i P, Tidy i P (s.thread i) → Tidy i P (s'.thread i)
  wakes : ∀ q, ¬ Wakes s c q
  self : ∀ i, s'.cur c = some i → Lock.wait_lock ∉ held (some i) (s'.pc c)

lemma Quiet.state_eq (hq : Quiet s s' c) {st : ProcState} (hne : st ≠ .RUNNING)
    (hst : (s'.sh.proc p).state = st) : (s.sh.proc p).state = st := by
  rcases hq.state p with h1 | ⟨-, h1⟩
  · exact h1.symm.trans hst
  · exact absurd (hst.symm.trans h1) hne

lemma Quiet.alive_iff (hq : Quiet s s' c) : Alive (s'.sh.proc p) ↔ Alive (s.sh.proc p) := by
  unfold Alive
  rcases hq.state p with h1 | ⟨h1, h2⟩
  · rw [h1]
  · rw [h1, h2]
    simp

lemma Quiet.calm (hq : Quiet s s' c) : Calm s s' :=
  ⟨hq.parent, fun _ hz => hq.state_eq (by simp) hz,
    fun q h1 => ⟨hq.state_eq (by simp) h1.1, hq.asleep q h1.1 h1.2⟩⟩

lemma Family.quiet (f : Family s) (hq : Quiet s s' c) : Family s' where
  init := hq.alive_iff.mpr f.init
  tidy i := by
    simp only [hq.parent]
    exact hq.tidy i _ (f.tidy i)
  unused p hun := (hq.parent p).trans (f.unused p (hq.state_eq (by simp) hun))
  parent p q hpar := hq.alive_iff.mpr (f.parent p q ((hq.parent p).symm.trans hpar))
  orphan p hp hst := by
    rw [hq.parent]
    exact f.orphan p hp (hst.imp hq.alive_iff.mp (hq.state_eq (by simp)))
  chan q hsl := (hq.chan q).trans (f.chan q (hq.calm.asleep q hsl))
  zombie p q hpar hz hsl := by
    obtain ⟨c0, h1⟩ := f.zombie p q ((hq.parent p).symm.trans hpar) (hq.calm.zombie p hz)
      (hq.calm.asleep q hsl)
    have hne : c0 ≠ c := by
      rintro rfl
      exact hq.wakes q h1
    obtain ⟨n, k, hpc, hk, hn⟩ := h1
    obtain ⟨hcur, hsame⟩ := hq.other c0 hne
    exact ⟨c0, n, k, hsame.trans hpc, by rw [hcur]; exact hk, hn⟩
  locals c' j hj := by
    by_cases hne : c' = c
    · subst hne
      exact .other (hq.self j hj)
    · obtain ⟨hcur, hsame⟩ := hq.other c' hne
      rw [hcur] at hj
      rw [hsame]
      exact (f.locals c' j hj).calm hq.calm

lemma not_wakes (h1 : ∀ chan n k, s.pc c ≠ .wakeup chan n k) : ¬ Wakes s c q := by
  rintro ⟨n, k, h2, -⟩
  exact h1 _ n k h2

/-- An interrupt comes when the thread holds no lock. -/
lemma quiet_interrupted (h : Inv s) (hl : held (s.cur c) (s.pc c) = [])
    (hother : ∀ c', c' ≠ c →
      (moved s c none ⟨interrupt c ch (s.pc c), s.sh, [], none⟩).cur c' = s.cur c' ∧
      (moved s c none ⟨interrupt c ch (s.pc c), s.sh, [], none⟩).pc c' = s.pc c') :
    Quiet s (moved s c none ⟨interrupt c ch (s.pc c), s.sh, [], none⟩) c where
  other := hother
  parent p := by rw [moved_sh]
  state p := by rw [moved_sh]; exact Or.inl rfl
  chan p := by rw [moved_sh]
  asleep q hst hin := by
    rw [moved_sh] at hst
    have hq : s.cur c ≠ some q := fun hq => by
      rw [running_of_stays h hq fun h1 => held_switches (h.wf c) h1 hl] at hst
      cases hst
    rwa [moved_thread_other hq (by simp)] at hin
  tidy i P ht := by
    by_cases hi : s.cur c = some i
    · rw [moved_thread_self hi, pc_some hi]
      exact interrupt_tidy ht
    · rwa [moved_thread_other hi (by simp)]
  wakes q := by
    rintro ⟨n, k, hpc, hk, -⟩
    rw [hpc] at hl
    rw [show held (s.cur c) k = [] from hl] at hk
    cases hk
  self i hi h1 := by
    rw [moved_cur] at hi
    rw [moved_pc_self, ← hi] at h1
    rcases (((interrupt_moves h hl ch).holds _).mp h1).1 with h2 | h2
    · rw [hl] at h2
      cases h2
    · cases h2

/-- **One step keeps the invariant.** -/
lemma step_family (h : Inv s) (f : Family s) (b : Build) (c : Fin N) (ch : Choice) :
    Family (step b s c ch) := by
  have hother : ∀ c', c' ≠ c → (step b s c ch).cur c' = s.cur c' ∧
      (step b s c ch).pc c' = s.pc c' := fun c' hne => step_other h b hne ch
  have hstep := step_stepped h b c ch
  generalize step b s c ch = s' at hstep hother
  cases hstep with
  | stays => exact f
  | interrupted hl => exact f.quiet (quiet_interrupted h hl hother)
  | moves hw hs => exact f.exec h hw hs b ch
  | @leaves i k hc hk =>
    have hthread : ∀ j, Function.update s.thread i k j = s.thread j ∨
        j = i ∧ Function.update s.thread i k j = k := fun j => by
      by_cases hj : j = i
      · exact Or.inr ⟨hj, by rw [hj, Function.update_self]⟩
      · exact Or.inl (Function.update_of_ne hj _ _)
    refine f.quiet (c := c) ⟨hother, fun _ => rfl, fun _ => Or.inl rfl, fun _ => rfl, fun q _ hin => ?_,
      fun j P ht => ?_, fun q => not_wakes fun chan n k' hpc => ?_, fun j hj => ?_⟩
    · dsimp only at hin
      rcases hthread q with h1 | ⟨rfl, h1⟩ <;> rw [h1] at hin
      · exact hin
      · obtain ⟨x, rfl | rfl⟩ := hin
        · have hwf := h.thread q
          rw [hk] at hwf
          rcases hwf.2.2 with h2 | h2 <;> cases h2
        · exact ⟨x, Or.inl hk⟩
    · dsimp only
      rcases hthread j with h1 | ⟨rfl, h1⟩ <;> rw [h1]
      · exact ht
      · rw [hk] at ht
        exact ht
    · rw [pc_some hc, hk] at hpc
      cases hpc
    · dsimp only at hj
      rw [Function.update_self] at hj
      cases hj
  | @enters p k hc hk =>
    obtain ⟨hrun, -, hres⟩ := h.picks hc hk
    have hpick : ∀ q, ((s.sh.on p (picked b)).proc q).parent = (s.sh.proc q).parent ∧
        ((s.sh.on p (picked b)).proc q).chan = (s.sh.proc q).chan := fun q => by
      by_cases hq : q = p
      · subst hq
        rw [on_self]
        cases b <;> exact ⟨rfl, rfl⟩
      · rw [on_other hq]
        exact ⟨rfl, rfl⟩
    refine f.quiet (c := c) ⟨hother, fun q => (hpick q).1, fun q => ?_, fun q => (hpick q).2,
      fun q _ hin => hin, fun j P ht => ht, fun q => not_wakes fun chan n k' hpc => ?_,
      fun j hj => ?_⟩
    · dsimp only
      by_cases hq : q = p
      · subst hq
        rw [on_self, picked_state]
        exact Or.inr ⟨hrun, rfl⟩
      · rw [on_other hq]
        exact Or.inl rfl
    · rw [pc_none hc, hk] at hpc
      cases hpc
    · rw [pc_some hj]
      dsimp only at hj ⊢
      rw [Function.update_self] at hj
      cases hj
      rw [held_resumes hres]
      simp
  | backs hc hk =>
    refine f.quiet (c := c) ⟨hother, fun _ => rfl, fun _ => Or.inl rfl, fun _ => rfl,
      fun _ _ hin => hin, fun _ _ ht => ht, fun q => not_wakes fun chan n k' hpc => ?_,
      fun j hj => ?_⟩
    · rw [pc_none hc, hk] at hpc
      cases hpc
    · dsimp only at hj
      rw [hc] at hj
      cases hj

lemma run_family (b : Build) (es : List (Fin N × Choice)) : ∀ {s : State N}, Inv s → Family s →
    Family (run b s es) := by
  induction es with
  | nil => intro s _ f; exact f
  | cons e es ih => intro s h f; exact ih (step_inv h b e.1 e.2) (step_family h f b e.1 e.2)

lemma boot_family (b : Build) (N : ℕ) : Family (boot b N) := by
  have hproc : ∀ p, p ≠ initproc → (boot b N).sh.proc p = zeroProc := fun p hp => by
    simp [boot, hp]
  have hinit : ((boot b N).sh.proc initproc).state = .RUNNABLE ∧
      ((boot b N).sh.proc initproc).parent = none := by
    simp [boot, usedProc, zeroProc]
  have hnone : ∀ p, ((boot b N).sh.proc p).parent = none := fun p => by
    by_cases hp : p = initproc
    · rw [hp]
      exact hinit.2
    · rw [hproc p hp]
      rfl
  have hthread : ∀ i, (boot b N).thread i = forkret ∨ (boot b N).thread i = .exited := by
    intro i
    by_cases hi : i = initproc
    · subst hi
      exact Or.inl (by simp [boot])
    · exact Or.inr (by simp [boot, hi])
  have hawake : ∀ q, ¬ AsleepIn (boot b N) q := by
    rintro q ⟨-, x, h1 | h1⟩ <;> rcases hthread q with h2 | h2 <;> rw [h2] at h1 <;> cases h1
  refine ⟨Or.inr (Or.inl hinit.1), fun i => ?_, fun p _ => hnone p, fun p q hpar => ?_,
    fun p hp hst => ?_, fun q hq => absurd hq (hawake q), fun p q _ _ hq => absurd hq (hawake q),
    fun c i hi => ?_⟩
  · rcases hthread i with h1 | h1 <;> rw [h1] <;> trivial
  · rw [hnone] at hpar
    cases hpar
  · rw [hproc p hp] at hst
    unfold Alive at hst
    simp [zeroProc] at hst
  · cases hi

/-- **The invariant holds in every reachable state.** -/
lemma reachable_family (b : Build) (N : ℕ) (es : List (Fin N × Choice)) :
    Family (run b (boot b N) es) :=
  run_family b es (boot_inv b N) (boot_family b N)

end Xv6.SmpTree
