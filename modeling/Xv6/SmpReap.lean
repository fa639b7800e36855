import Xv6.SmpTree

/-!
Every zombie is reaped once.

The record tells the story of a slot: an exit, the return of that exit by a `wait` or `waitx` of the
parent, the next exit, and so on. A zombie is a slot whose last exit has not been returned.
-/

namespace Xv6.SmpReap

open Xv6.Riscv Xv6.Pbs Xv6.Smp Xv6.SmpMoves Xv6.SmpInv Xv6.SmpWrites Xv6.SmpWakeup Xv6.SmpFamily
open Xv6.SmpTree
open Xv6.Process (ProcState)

variable {N : ℕ} {s s' : State N} {b : Build} {c c' : Fin N} {ch : Choice} {p q i : Slot}
  {pc : Pc} {d : Shared} {l : List Event} {e : Event}

/-! ### The story of a slot -/

/-- An exit of `p` or the return of one. -/
def About (p : Slot) : Event → Bool
  | .exited p' _ _ => p' = p
  | .returned _ p' _ _ => p' = p
  | .freed _ => false

/-- The last exit or return of `p`. -/
def last (p : Slot) (l : List Event) : Option Event := (l.filter (About p)).getLast?

/-- The exit of `p` that has not been returned yet. -/
def pending (p : Slot) (l : List Event) : Option (ℤ × ℤ) :=
  match last p l with
  | some (.exited _ pid st) => some (pid, st)
  | _ => none

/-- What may be recorded after `l`: an exit of a slot whose last exit has been returned, or the return
of the last exit, with its pid and status. -/
def Follows (l : List Event) : Event → Prop
  | .exited p _ _ => pending p l = none
  | .returned _ p pid st => pending p l = some (pid, st)
  | .freed _ => True

lemma pending_append_self (pid st : ℤ) : pending p (l ++ [.exited p pid st]) = some (pid, st) := by
  simp [pending, last, About]

lemma pending_append_returned (pid st : ℤ) : pending p (l ++ [.returned q p pid st]) = none := by
  simp [pending, last, About]

lemma pending_append_other (h : About p e = false) : pending p (l ++ [e]) = pending p l := by
  simp [pending, last, h]

/-- Each event follows what was recorded before it. -/
def Told (l : List Event) : Prop := ∀ l1 e l2, l = l1 ++ e :: l2 → Follows l1 e

lemma Told.append (h : Told l) (he : Follows l e) : Told (l ++ [e]) := by
  intro l1 e' l2 heq
  rcases List.eq_nil_or_concat l2 with rfl | ⟨l3, e3, rfl⟩
  · obtain ⟨rfl, h1⟩ := List.append_inj' heq rfl
    obtain rfl := List.singleton_inj.mp h1
    exact he
  · rw [List.concat_eq_append, ← List.cons_append, ← List.append_assoc] at heq
    exact h l1 e' l3 (List.append_inj' heq rfl).1

/-! ### The record agrees with the processes -/

/-- The pid and status that a `wait` of the parent will return. -/
def exitOf (p : Proc) : Option (ℤ × ℤ) := if p.state = .ZOMBIE then some (p.pid, p.xstate) else none

lemma exitOf_none {p : Proc} (h : p.state ≠ .ZOMBIE) : exitOf p = none := if_neg h

/-- The exits that have not been returned are those of the zombies. -/
structure Ledger (d : Shared) : Prop where
  told : Told d.log
  pending : ∀ p, pending p d.log = exitOf (d.proc p)

/-- Sections other than those of `exit` and `wait` neither make zombies nor free them. -/
lemma kin_exitOf {me : Option Slot} {e : Effect} (hk : Kin me pc d e p)
    (hrun : me = some p → (d.proc p).state = .RUNNING)
    (hclaim : ∀ np ∈ claims pc, (d.proc np).state = .USED) (hexit : ∀ st, pc ≠ .exitLock st)
    (hreap : ∀ x, pc ≠ .waitChild x p) : exitOf (e.sh.proc p) = exitOf (d.proc p) := by
  have hdead : ∀ {st st' : ProcState}, (d.proc p).state = st → (e.sh.proc p).state = st' →
      st ≠ .ZOMBIE → st' ≠ .ZOMBIE → exitOf (e.sh.proc p) = exitOf (d.proc p) := by
    intro st st' h1 h2 h3 h4
    rw [exitOf_none (h2 ▸ h4), exitOf_none (h1 ▸ h3)]
  have hsame : (e.sh.proc p).state = (d.proc p).state → (e.sh.proc p).pid = (d.proc p).pid →
      (e.sh.proc p).xstate = (d.proc p).xstate → exitOf (e.sh.proc p) = exitOf (d.proc p) := by
    intro h1 h2 h3
    unfold exitOf
    rw [h1, h2, h3]
  rcases hk with ⟨hst, -, hpid, hx⟩ | ⟨hst, hst', -⟩ | ⟨hst, hst', -⟩ |
    ⟨i, -, -, hst, -, hpid, hx⟩ | ⟨hpc, hst, -⟩ | ⟨i, st, n, -, -, -, -, hst, -, hpid, hx⟩ |
    ⟨st, hpc, -, -, -, -, -⟩ | ⟨hme, hst, -⟩
  · rcases hst with hst | ⟨hst, hst'⟩
    · exact hsame hst hpid hx
    · exact hdead hst hst' (by simp) (by simp)
  · exact hdead hst hst' (by simp) (by simp)
  · rcases hst with hst | ⟨-, x, hpc⟩
    · exact hdead hst hst' (by simp) (by simp)
    · exact absurd hpc (hreap x)
  · exact hsame hst hpid hx
  · exact hdead (hclaim p (by rw [hpc]; simp [claims])) hst (by simp) (by simp)
  · exact hsame hst hpid hx
  · exact absurd hpc (hexit st)
  · rcases hst with hst | hst <;> exact hdead (hrun hme) hst (by simp) (by simp)

lemma Ledger.same {d' : Shared} (hd : Ledger d) (hlog : d'.log = d.log)
    (hproc : ∀ p, exitOf (d'.proc p) = exitOf (d.proc p)) : Ledger d' :=
  ⟨hlog ▸ hd.told, fun p => by rw [hlog, hproc, hd.pending]⟩

lemma ledger_exit (hd : Ledger d) (hrun : (d.proc i).state = .RUNNING) (st : ℤ) :
    Ledger (code b (some i) ch d (.exitLock st)).sh := by
  have hlog : (code b (some i) ch d (.exitLock st)).sh.log =
      d.log ++ [.exited i (d.proc i).pid st] := rfl
  refine ⟨?_, fun p => ?_⟩
  · rw [hlog]
    refine hd.told.append ?_
    change SmpReap.pending i d.log = none
    rw [hd.pending, exitOf_none (by rw [hrun]; simp)]
  · rw [hlog]
    by_cases hp : p = i
    · subst hp
      rw [pending_append_self]
      simp [code, procCode, Effect.to, record_proc, on_self, exitOf]
    · rw [pending_append_other (by simp [About, Ne.symm hp]), hd.pending]
      simp [code, procCode, Effect.to, record_proc, on_other hp]

lemma ledger_waitChild (hd : Ledger d) (x : Bool) (pp : Slot) :
    Ledger (code b (some i) ch d (.waitChild x pp)).sh := by
  simp only [code, procCode]
  split_ifs with h1 h2
  · exact hd
  · exact hd
  · push Not at h1
    have hlog : ((d.on pp freeproc).record
        [.freed pp, .returned i pp (d.proc pp).pid (d.proc pp).xstate]).log =
        (d.log ++ [.freed pp]) ++ [.returned i pp (d.proc pp).pid (d.proc pp).xstate] := by
      simp [Shared.record, Shared.on]
    have hfreed : ∀ p, SmpReap.pending p (d.log ++ [.freed pp]) = exitOf (d.proc p) := fun p => by
      rw [pending_append_other rfl, hd.pending]
    refine ⟨?_, fun p => ?_⟩
    · rw [Effect.to, hlog]
      refine (hd.told.append (e := .freed pp) trivial).append ?_
      change SmpReap.pending pp _ = _
      rw [hfreed, exitOf, if_pos h1]
    · rw [Effect.to, hlog]
      by_cases hp : p = pp
      · subst hp
        rw [pending_append_returned, record_proc, on_self, exitOf_none]
        simp [freeproc]
      · rw [pending_append_other (by simp [About, Ne.symm hp]), hfreed, record_proc, on_other hp]

lemma exec_ledger (h : Inv s) (hd : Ledger s.sh) (hs : ¬ Switches (s.pc c)) (b : Build)
    (ch : Choice) : Ledger (exec b s c ch).sh := by
  rw [exec_sh]
  have hrun : ∀ p, s.cur c = some p → (s.sh.proc p).state = .RUNNING := fun p hc =>
    running_of_stays h hc hs
  have hwf := h.wf c
  have hkin := exec_kin h hs b ch
  have hlogged : Logged _ _ s.sh (code b _ ch s.sh _) := code_logged hwf hs
  have hclaim : ∀ np ∈ claims (s.pc c), (s.sh.proc np).state = .USED := fun np hnp =>
    (h.claim_used c hnp).choose_spec.2.2
  by_cases hexit : ∃ st, s.pc c = .exitLock st
  · obtain ⟨st, hpc⟩ := hexit
    rw [hpc] at hwf ⊢
    obtain ⟨i, hi⟩ := Option.isSome_iff_exists.mp hwf
    rw [hi]
    exact ledger_exit hd (hrun i hi) st
  by_cases hreap : ∃ x pp, s.pc c = .waitChild x pp
  · obtain ⟨x, pp, hpc⟩ := hreap
    rw [hpc] at hwf ⊢
    obtain ⟨i, hi⟩ := Option.isSome_iff_exists.mp hwf
    rw [hi]
    exact ledger_waitChild hd x pp
  push Not at hexit hreap
  have hproc := fun p => kin_exitOf (hkin p) (hrun p) hclaim hexit fun x => hreap x p
  cases hlogged with
  | same hlog => exact hd.same hlog hproc
  | unalloc n p hpc hst hn hlog =>
    refine ⟨?_, fun q => ?_⟩
    · rw [hlog]
      exact hd.told.append trivial
    · rw [hlog, pending_append_other rfl, hd.pending, hproc]
  | exit i st hpc => exact absurd hpc (hexit st)
  | reap i x p hpc => exact absurd hpc (hreap x p)

lemma step_ledger (h : Inv s) (hd : Ledger s.sh) (b : Build) (c : Fin N) (ch : Choice) :
    Ledger (step b s c ch).sh := by
  have hstep := step_stepped h b c ch
  generalize step b s c ch = s' at hstep
  cases hstep with
  | stays => exact hd
  | interrupted hl =>
    rw [moved_sh]
    exact hd
  | moves hw hs => exact exec_ledger h hd hs b ch
  | leaves hc hk => exact hd
  | @enters p k hc hk =>
    refine hd.same rfl fun q => ?_
    by_cases hq : q = p
    · subst hq
      dsimp only
      rw [on_self, exitOf_none (by rw [picked_state]; simp),
        exitOf_none (by rw [(h.picks hc hk).1]; simp)]
    · dsimp only
      rw [on_other hq]
  | backs hc hk => exact hd

lemma run_ledger (b : Build) (es : List (Fin N × Choice)) : ∀ {s : State N}, Inv s → Ledger s.sh →
    Ledger (run b s es).sh := by
  induction es with
  | nil => intro s _ hd; exact hd
  | cons e es ih => intro s h hd; exact ih (step_inv h b e.1 e.2) (step_ledger h hd b e.1 e.2)

lemma boot_ledger (b : Build) (N : ℕ) : Ledger (boot b N).sh := by
  refine ⟨fun l1 e l2 heq => ?_, fun p => ?_⟩
  · change [] = _ at heq
    simp at heq
  · change none = _
    rw [exitOf_none]
    by_cases hp : p = initproc
    · subst hp
      simp [boot]
    · simp [boot, hp, zeroProc]

/-! ### Returns -/

/-- The return of an exit `e`, in a step of processor `c` from `s`: the call is one of the parent of
the zombie, and returns its pid and status. -/
def Returned (s : State N) (c : Fin N) : Event → Prop
  | .returned q p pid st =>
    s.cur c = some q ∧ (∃ x, s.pc c = .waitChild x p) ∧ (s.sh.proc p).parent = some q ∧
      (s.sh.proc p).state = .ZOMBIE ∧ (s.sh.proc p).pid = pid ∧ (s.sh.proc p).xstate = st
  | _ => True

lemma step_returned (h : Inv s) (f : Family s) (b : Build) (c : Fin N) (ch : Choice) :
    ∃ new, (step b s c ch).sh.log = s.sh.log ++ new ∧ ∀ e ∈ new, Returned s c e := by
  have hnone : ∀ {d : Shared}, d.log = s.sh.log →
      ∃ new, d.log = s.sh.log ++ new ∧ ∀ e ∈ new, Returned s c e := fun hlog =>
    ⟨[], by rw [hlog, List.append_nil], by simp⟩
  have hstep := step_stepped h b c ch
  generalize step b s c ch = s' at hstep
  cases hstep with
  | stays => exact hnone rfl
  | interrupted hl => exact hnone (by rw [moved_sh])
  | moves hw hs =>
    rw [moved_sh]
    cases (code_logged (h.wf c) hs : Logged _ _ s.sh (code b _ ch s.sh _)) with
    | same hlog => exact hnone hlog
    | unalloc n p hpc hst hn hlog =>
      refine ⟨_, hlog, fun e he => ?_⟩
      rw [List.mem_singleton.mp he]
      trivial
    | exit i st hpc hme hlog =>
      refine ⟨_, hlog, fun e he => ?_⟩
      rw [List.mem_singleton.mp he]
      trivial
    | reap i x p hpc hme hst hfree hlog =>
      refine ⟨_, hlog, fun e he => ?_⟩
      have hl := f.locals c i hme
      rw [hpc] at hl
      have hpar : (s.sh.proc p).parent = some i := by
        cases hl with
        | waitChild h1 => exact h1
        | other h1 => simp [held] at h1
      rcases List.mem_pair.mp he with rfl | rfl
      · trivial
      · exact ⟨hme, ⟨x, hpc⟩, hpar, hst, rfl, rfl⟩
  | leaves hc hk => exact hnone rfl
  | enters hc hk => exact hnone rfl
  | backs hc hk => exact hnone rfl

/-- **Every child is reaped once, and no zombie is orphaned.** For every interleaving on any number of
processors, whenever `wait_lock` is free: every process but `init` that is runnable, running,
sleeping or a zombie has a parent, neither unused nor a zombie, and a process that sleeps in `wait`
or `waitx` has no zombie child. What is recorded of a slot is an exit, then its return with the pid
and status of that exit, then the next exit, so no exit is returned twice; and a step that records a
return is one of the parent of the zombie at that time. -/
theorem reaped_once (b : Build) (N : ℕ) (es : List (Fin N × Choice)) :
    let s := run b (boot b N) es
    (s.owner .wait_lock = none →
      (∀ p, p ≠ initproc → Alive (s.sh.proc p) ∨ (s.sh.proc p).state = .ZOMBIE →
        ∃ q, (s.sh.proc p).parent = some q ∧ (s.sh.proc q).state ≠ .UNUSED ∧
          (s.sh.proc q).state ≠ .ZOMBIE) ∧
      ∀ p q, AsleepIn s q → (s.sh.proc p).parent = some q → (s.sh.proc p).state ≠ .ZOMBIE) ∧
    Told s.sh.log ∧
    ∀ c ch, ∃ new, (step b s c ch).sh.log = s.sh.log ++ new ∧ ∀ e ∈ new, Returned s c e := by
  intro s
  have h : Inv s := reachable_inv b N es
  have f : Family s := reachable_family b N es
  have hd : Ledger s.sh := run_ledger b es (boot_inv b N) (boot_ledger b N)
  refine ⟨fun hlk => ⟨fun p hp hst => ?_, fun p q hq hpar hz => ?_⟩, hd.told,
    fun c ch => step_returned h f b c ch⟩
  · obtain ⟨q, hq⟩ := Option.ne_none_iff_exists'.mp (f.orphan p hp hst)
    refine ⟨q, hq, ?_⟩
    rcases f.parent p q hq with h1 | h1 | h1 <;> rw [h1] <;> simp
  · obtain ⟨c, hwakes⟩ := f.zombie p q hpar hz hq
    rw [hwakes.owner h] at hlk
    cases hlk

end Xv6.SmpReap
