import Xv6.SmpWrites

/-!
No wakeup is lost. A process that holds `lk` and calls `sleep(chan, lk)` takes its own lock before it
releases `lk`, so whoever gets `lk` after it finds it either asleep on `chan` or still on its way
there with its lock held. From then on until it has `lk` back it cannot go to sleep again.
-/

namespace Xv6.SmpWakeup

open Xv6.Riscv Xv6.Pbs Xv6.Smp Xv6.SmpMoves Xv6.SmpInv Xv6.SmpWrites
open Xv6.Process (ProcState)

/-- The thread stands at `t`, perhaps under an interrupt handler. -/
def Over (t : Pc) : Pc → Prop
  | .clockintr k | .update_time _ k | .kerneltrap k | .device _ k | .notify _ k | .wakeup _ _ k
  | .unlock _ k | .yield k | .sched k | .yielded k => Over t k
  | pc => pc = t

/-- The thread has released `lk` in `sleep` and has not got it back. -/
def Past (lk : Lock) (k pc : Pc) : Prop :=
  pc = .sched (.asleep lk k) ∨ pc = .asleep lk k ∨ Over (.relock lk k) pc

/-- Process `p` is in a call of `sleep(chan, lk)`, past the release. -/
structure Waiting (s : State N) (p : Slot) (chan : ℕ) (lk : Lock) (k : Pc) : Prop where
  past : Past lk k (s.thread p)
  alive : (s.sh.proc p).state = .SLEEPING ∨ (s.sh.proc p).state = .RUNNABLE ∨
    (s.sh.proc p).state = .RUNNING
  chan : (s.sh.proc p).state = .SLEEPING → (s.sh.proc p).chan = some chan

variable {N : ℕ} {s s' : State N} {b : Build} {c c' : Fin N} {ch : Choice} {p i : Slot} {chan : ℕ}
  {lk : Lock} {k k' pc : Pc} {d : Shared}

/-! ### Where the sleeper goes -/

lemma over_relock : Over (.relock lk k) (.relock lk k) := rfl

/-- A handler on top of `sleep` stays there until it has returned. -/
lemma code_over (h : Over (.relock lk k) pc) (hne : pc ≠ .relock lk k) (hs : ¬ Switches pc) :
    Over (.relock lk k) (code b (some i) ch d pc).pc := by
  cases pc
  case wakeup chan n x =>
    simp only [code]
    rcases slotAt n with _ | q
    · exact h
    · dsimp only
      split_ifs <;> exact h
  case update_time n x =>
    simp only [code]
    rcases slotAt n with _ | q <;> exact h
  case notify l x =>
    simp only [code]
    split <;> exact h
  case kerneltrap x =>
    simp only [code, procCode]
    split_ifs <;> exact h
  case clockintr x => exact h
  case device l x => exact h
  case unlock l x => exact h
  case yield x => exact h
  case yielded x => exact h
  case sched x => exact absurd trivial hs
  case relock l x => exact absurd h hne
  all_goals cases h

lemma interrupt_over (h : Over (.relock lk k) pc) : Over (.relock lk k) (interrupt c ch pc) := by
  have hu : pc ≠ .user := by
    rintro rfl
    cases h
  unfold interrupt
  split
  · simp only [if_neg hu]
    split_ifs <;> exact h
  · simp only [if_neg hu]
    exact h
  · exact h

lemma stateOf_over (h : Over (.relock lk k) pc) (hwf : Wf (some i) pc) :
    stateOf pc = .RUNNABLE ∨ stateOf pc = .RUNNING := by
  cases pc
  case sched x =>
    obtain ⟨-, -, rfl | hx⟩ := hwf
    · cases h
    · cases x
      case asleep l y => cases h
      case yielded y => exact Or.inl rfl
      all_goals exact hx.elim
  all_goals exact Or.inr rfl

/-- Asleep, waiting for the processor, or on it. -/
def Alive (p : Proc) : Prop := p.state = .SLEEPING ∨ p.state = .RUNNABLE ∨ p.state = .RUNNING

lemma kill_chan (pid : ℤ) (p : Proc) : (PbsRuns.kill pid p).chan = p.chan := by
  unfold PbsRuns.kill
  split_ifs <;> rfl

lemma wakeup_chan (c : ℕ) (p : Proc) : (PbsRuns.wakeup c p).chan = p.chan := by
  unfold PbsRuns.wakeup
  split_ifs <;> rfl

/-- What the others can do to a process: wake it up. -/
structure Woken (p p' : Proc) : Prop where
  alive : Alive p'
  sleeping : p'.state = .SLEEPING → p.state = .SLEEPING ∧ p'.chan = p.chan

lemma Woken.refl {q q' : Proc} (h : Alive q) (hs : q'.state = q.state) (hc : q'.chan = q.chan) :
    Woken q q' := by
  refine ⟨?_, fun h1 => ⟨hs ▸ h1, hc⟩⟩
  unfold Alive
  rw [hs]
  exact h

/-- Another thread puts nobody to sleep. -/
lemma wrote_other {me : Option Slot} {e : Effect} (hw : Wrote me ch pc d e p) (hme : me ≠ some p)
    (h : Alive (d.proc p)) : Woken (d.proc p) (e.sh.proc p) := by
  have hdead : ∀ {st : ProcState}, (d.proc p).state = st → st ≠ .SLEEPING → st ≠ .RUNNABLE →
      st ≠ .RUNNING → False := fun h1 h2 h3 h4 => by
    rcases h with h | h | h
    · exact h2 (h1.symm.trans h)
    · exact h3 (h1.symm.trans h)
    · exact h4 (h1.symm.trans h)
  have hwakes : ∀ {q : Proc}, (q.state = (d.proc p).state ∨
      (d.proc p).state = .SLEEPING ∧ q.state = .RUNNABLE) → q.chan = (d.proc p).chan →
      Woken (d.proc p) q := by
    intro q h1 h2
    rcases h1 with h1 | ⟨-, h1⟩
    · exact Woken.refl h h1 h2
    · exact ⟨Or.inr (Or.inl h1), fun h3 => by rw [h1] at h3; cases h3⟩
  rcases hw with
    h1 | h1 | ⟨bad, -, hm, -, -⟩ | ⟨k, -, hm, -⟩ | ⟨pid, n, -, -, h1⟩ | ⟨n, -, -, hst, -⟩ |
    ⟨n, -, -, hst, -⟩ | ⟨i, -, -, h1⟩ | ⟨-, h1⟩ | ⟨i, st, n, -, -, -, -, h1⟩ | ⟨st, -, hm, -⟩ |
    ⟨i, x, -, -, hst, -, -⟩ | ⟨chan, lk, k, -, hm, -⟩ | ⟨lk, k, -, hm, -⟩ | ⟨k, -, hm, -⟩ |
    ⟨chan, n, k, -, -, -, h1⟩
  · rw [h1]
    exact Woken.refl h rfl rfl
  · exact Woken.refl h h1.state h1.chan
  · exact absurd hm hme
  · exact absurd hm hme
  · rw [h1]
    exact hwakes (kill_state pid _) (kill_chan pid _)
  · exact (hdead hst (by simp) (by simp) (by simp)).elim
  · exact (hdead hst (by simp) (by simp) (by simp)).elim
  · rw [h1]
    exact Woken.refl h rfl rfl
  · rw [h1]
    exact ⟨Or.inr (Or.inl rfl), fun h2 => by cases h2⟩
  · rw [h1]
    exact Woken.refl h rfl rfl
  · exact absurd hm hme
  · exact (hdead hst (by simp) (by simp) (by simp)).elim
  · exact absurd hm hme
  · exact absurd hm hme
  · exact absurd hm hme
  · rw [h1]
    exact hwakes (wakeup_state chan _) (wakeup_chan chan _)

lemma Waiting.woken (h : Waiting s p chan lk k) (hpast : Past lk k (s'.thread p))
    (hw : Woken (s.sh.proc p) (s'.sh.proc p)) : Waiting s' p chan lk k :=
  ⟨hpast, hw.alive, fun h1 => (hw.sleeping h1).2.trans (h.chan (hw.sleeping h1).1)⟩

/-- The sleeper gets its lock back and returns. -/
def Returns (s s' : State N) (p : Slot) (lk : Lock) (k : Pc) : Prop :=
  s.thread p = .relock lk k ∧ s.owner lk = none ∧ s'.thread p = k

/-- **One step of a sleeper's wait**: it is waiting still, and not asleep again if it was awake,
or it returns with its lock. -/
lemma step_waiting (hinv : Inv s) (h : Waiting s p chan lk k) (b : Build) (c : Fin N)
    (ch : Choice) :
    (Waiting (step b s c ch) p chan lk k ∧ ((s.sh.proc p).state ≠ .SLEEPING →
      ((step b s c ch).sh.proc p).state ≠ .SLEEPING)) ∨
    Returns s (step b s c ch) p lk k := by
  have hinv' := step_inv hinv b c ch
  have hstep := step_stepped hinv b c ch
  generalize step b s c ch = s' at hstep hinv'
  have hwoken : ∀ {s' : State N}, Past lk k (s'.thread p) → Woken (s.sh.proc p) (s'.sh.proc p) →
      (Waiting s' p chan lk k ∧ ((s.sh.proc p).state ≠ .SLEEPING →
        (s'.sh.proc p).state ≠ .SLEEPING)) ∨ Returns s s' p lk k := fun hpast hw =>
    Or.inl ⟨h.woken hpast hw, fun h1 h2 => h1 (hw.sleeping h2).1⟩
  have hself : Woken (s.sh.proc p) (s.sh.proc p) := Woken.refl h.alive rfl rfl
  -- the sleeper's own steps leave it awake
  have hown : ∀ {s' : State N}, Inv s' → s'.cur c = some p → Over (.relock lk k) (s'.thread p) →
      (Waiting s' p chan lk k ∧ ((s.sh.proc p).state ≠ .SLEEPING →
        (s'.sh.proc p).state ≠ .SLEEPING)) ∨ Returns s s' p lk k := by
    intro s' hi hc hover
    have hst := hi.running c p hc
    have hne : (s'.sh.proc p).state ≠ .SLEEPING := by
      rw [hst]
      rcases stateOf_over hover (hi.thread p) with h1 | h1 <;> rw [h1] <;> simp
    refine Or.inl ⟨⟨Or.inr (Or.inr hover), ?_, fun h1 => absurd h1 hne⟩, fun _ => hne⟩
    rw [hst]
    exact Or.inr (stateOf_over hover (hi.thread p))
  cases hstep with
  | stays => exact hwoken h.past hself
  | interrupted hl =>
    by_cases hc : s.cur c = some p
    · rw [hc, pc_some hc] at hl
      rcases h.past with h1 | h1 | h1
      · rw [h1] at hl
        simp [held, ownLock] at hl
      · rw [h1] at hl
        simp [held, ownLock] at hl
      · refine hown hinv' (by rw [moved_cur, hc]) ?_
        rw [moved_thread_self hc, pc_some hc]
        exact interrupt_over h1
    · refine hwoken ?_ ?_
      · rw [moved_thread_other hc (by simp)]
        exact h.past
      · rw [moved_sh]
        exact hself
  | moves hw hs =>
    by_cases hc : s.cur c = some p
    · rw [hc, pc_some hc] at hw hinv' ⊢
      rw [pc_some hc] at hs
      rcases h.past with h1 | h1 | h1
      · rw [h1] at hs
        exact absurd trivial hs
      · refine hown hinv' (by rw [moved_cur, hc]) ?_
        rw [moved_thread_self hc, h1]
        exact over_relock
      · by_cases hr : s.thread p = .relock lk k
        · refine Or.inr ⟨hr, hw lk (by rw [hr]; rfl), ?_⟩
          rw [moved_thread_self hc, hr]
          rfl
        · refine hown hinv' (by rw [moved_cur, hc]) ?_
          rw [moved_thread_self hc]
          exact code_over h1 hr hs
    · have hm := @code_moves _ _ s.sh ch b (hinv.wf c) hs
      refine hwoken ?_ ?_
      · rw [moved_thread_other hc]
        · exact h.past
        · intro hst
          have h1 := (hm.fresh p hst).2.1
          rcases h.alive with h2 | h2 | h2 <;> rw [h2] at h1 <;> cases h1
      · rw [moved_sh]
        exact wrote_other (code_wrote (hinv.wf c) hs p) hc h.alive
  | @leaves i x hc hk =>
    refine hwoken ?_ hself
    dsimp only
    by_cases hp : p = i
    · subst hp
      rw [Function.update_self]
      rcases h.past with h1 | h1 | h1
      · rw [hk] at h1
        cases h1
        exact Or.inr (Or.inl rfl)
      · rw [hk] at h1
        cases h1
      · rw [hk] at h1
        exact Or.inr (Or.inr h1)
    · rw [Function.update_of_ne hp]
      exact h.past
  | @enters q x hc hk =>
    refine hwoken h.past ?_
    dsimp only
    by_cases hq : p = q
    · subst hq
      rw [on_self]
      refine ⟨Or.inr (Or.inr (picked_state b _)), fun h1 => ?_⟩
      rw [picked_state] at h1
      cases h1
    · rw [on_other hq]
      exact hself
  | backs hc hk => exact hwoken h.past hself

/-! ### Going to sleep -/

/-- The process has looked at its condition and calls `sleep`, still holding `lk`. -/
def Calls (s : State N) (p : Slot) (chan : ℕ) (lk : Lock) (k : Pc) : Prop :=
  ∃ c, s.cur c = some p ∧ s.thread p = .sleep chan lk k

lemma Calls.owner (hinv : Inv s) (hc : s.cur c = some p) (h : s.thread p = .sleep chan lk k) :
    s.owner lk = some c := by
  rw [hinv.own, pc_some hc, h]
  simp [held]

/-- It stays there, or goes to sleep. -/
lemma step_calls (hinv : Inv s) (h : Calls s p chan lk k) (b : Build) (c : Fin N) (ch : Choice) :
    Calls (step b s c ch) p chan lk k ∨ Waiting (step b s c ch) p chan lk k := by
  obtain ⟨c0, hc0, ht⟩ := h
  by_cases hne : c0 = c
  · subst hne
    have hstep := step_stepped hinv b c0 ch
    generalize step b s c0 ch = s' at hstep
    cases hstep with
    | stays => exact Or.inl ⟨c0, hc0, ht⟩
    | interrupted hl =>
      rw [hc0, pc_some hc0, ht] at hl
      simp [held] at hl
    | moves hw hs =>
      rw [hc0, pc_some hc0, ht]
      simp only [code, procCode]
      refine Or.inr ⟨Or.inl ?_, Or.inl ?_, fun _ => ?_⟩
      · rw [moved_thread_self hc0]
        rfl
      · rw [moved_sh]
        simp [Effect.to, on_self]
      · rw [moved_sh]
        simp [Effect.to, on_self]
    | leaves hc hk =>
      rw [hc0] at hc
      cases hc
      rw [ht] at hk
      cases hk
    | enters hc hk =>
      rw [hc0] at hc
      cases hc
    | backs hc hk =>
      rw [hc0] at hc
      cases hc
  · obtain ⟨h1, h2⟩ := step_other hinv b hne ch
    refine Or.inl ⟨c0, h1.trans hc0, ?_⟩
    rw [pc_some hc0, pc_some (h1.trans hc0)] at h2
    exact h2.trans ht

lemma run_waiting (es : List (Fin N × Choice)) : ∀ {s : State N}, Inv s →
    Calls s p chan lk k ∨ Waiting s p chan lk k →
    (∀ j ≤ es.length, (run b s (es.take j)).thread p ≠ k) →
    Calls (run b s es) p chan lk k ∨ Waiting (run b s es) p chan lk k := by
  induction es with
  | nil => intro s _ h _; exact h
  | cons e es ih =>
    intro s hinv h hret
    refine ih (step_inv hinv b e.1 e.2) ?_ fun j hj => ?_
    · rcases h with h | h
      · exact step_calls hinv h b e.1 e.2
      · rcases step_waiting hinv h b e.1 e.2 with h1 | h1
        · exact Or.inr h1.1
        · exact absurd h1.2.2 (hret 1 (by simp))
    · have h1 := hret (j + 1) (by simpa using hj)
      rwa [List.take_succ_cons] at h1

/-! ### Waking up -/

/-- Processor `c` is in `wakeup(chan)` with `lk` held, at slot `n` of the table; the sleeper `p` is
another process, and awake once its slot has been passed. -/
structure Waking (s : State N) (c : Fin N) (p : Slot) (chan : ℕ) (lk : Lock) (k k' : Pc) : Prop where
  waiting : Waiting s p chan lk k
  other : s.cur c ≠ some p
  holds : lk ∈ held (s.cur c) k'
  scan : ∃ n, s.pc c = .wakeup chan n k' ∧ (p.val < n → (s.sh.proc p).state ≠ .SLEEPING)

lemma Waking.owner (hinv : Inv s) (h : Waking s c p chan lk k k') : s.owner lk = some c := by
  obtain ⟨n, hpc, -⟩ := h.scan
  rw [hinv.own, hpc]
  exact h.holds

lemma Waking.step (hinv : Inv s) (h : Waking s c p chan lk k k') (b : Build) (c' : Fin N)
    (ch : Choice) :
    Waiting (step b s c' ch) p chan lk k ∧ ((s.sh.proc p).state ≠ .SLEEPING →
      ((step b s c' ch).sh.proc p).state ≠ .SLEEPING) := by
  rcases step_waiting hinv h.waiting b c' ch with h1 | ⟨-, h1, -⟩
  · exact h1
  · rw [h.owner hinv] at h1
    cases h1

lemma slotAt_none {n : ℕ} (h : slotAt n = none) : NPROC ≤ n := by
  unfold slotAt at h
  split_ifs at h with hn
  omega

lemma wakeup_awake {q : Proc} (h : q.state = .SLEEPING → q.chan = some chan) :
    (PbsRuns.wakeup chan q).state ≠ .SLEEPING := by
  unfold PbsRuns.wakeup
  split_ifs with h1
  · simp
  · intro h2
    exact h1 ⟨h2, h h2⟩

/-- **One step of the wakeup**: it goes on, or it has returned and the sleeper is awake. -/
lemma step_waking (hinv : Inv s) (h : Waking s c p chan lk k k') (b : Build) (c' : Fin N)
    (ch : Choice) :
    Waking (step b s c' ch) c p chan lk k k' ∨
      (step b s c' ch).pc c = k' ∧ ((step b s c' ch).sh.proc p).state ≠ .SLEEPING := by
  obtain ⟨hwait, hawake⟩ := h.step hinv b c' ch
  obtain ⟨n, hpc, hn⟩ := h.scan
  by_cases hne : c = c'
  · subst hne
    have hstep := step_stepped hinv b c ch
    generalize step b s c ch = s' at hstep hwait hawake
    cases hstep with
    | stays => exact Or.inl h
    | interrupted hl =>
      rw [hpc] at hl
      have := h.holds
      rw [show held (s.cur c) k' = [] from hl] at this
      simp at this
    | moves hw hs =>
      rw [hpc] at hw hwait hawake ⊢
      rcases hs' : slotAt n with _ | q
      · -- the whole table has been scanned
        have hlt : p.val < n := by
          have h1 := slotAt_none hs'
          have h2 := p.isLt
          omega
        refine Or.inr ⟨?_, hawake (hn hlt)⟩
        rw [moved_pc_self]
        simp [code, hs', Effect.to]
      · have hq := slotAt_some hs'
        refine Or.inl ⟨hwait, by rw [moved_cur]; exact h.other, by rw [moved_cur]; exact h.holds,
          n + 1, ?_, ?_⟩
        · rw [moved_pc_self]
          simp only [code, hs']
          split_ifs <;> rfl
        · intro hlt
          by_cases hpq : p.val < n
          · exact hawake (hn hpq)
          · obtain rfl : p = q := Fin.ext (by omega)
            have hme : ¬ some p = s.cur c := fun h1 => h.other h1.symm
            rw [moved_sh]
            simp only [code, hs', if_neg hme, Effect.to, on_self]
            exact wakeup_awake h.waiting.chan
    | leaves hc hk =>
      rw [pc_some hc, hk] at hpc
      cases hpc
    | enters hc hk =>
      rw [pc_none hc, hk] at hpc
      cases hpc
    | backs hc hk =>
      rw [pc_none hc, hk] at hpc
      cases hpc
  · obtain ⟨h1, h2⟩ := step_other hinv b hne ch
    refine Or.inl ⟨hwait, by rw [h1]; exact h.other, by rw [h1]; exact h.holds, n, h2.trans hpc, ?_⟩
    exact fun hlt => hawake (hn hlt)

lemma wakeup_ne (n : ℕ) (k : Pc) : Pc.wakeup chan n k ≠ k := by
  intro h
  have := congrArg sizeOf h
  simp at this

lemma run_waking (es : List (Fin N × Choice)) : ∀ {s : State N}, Inv s →
    Waking s c p chan lk k k' →
    (∀ j < es.length, ∃ n, (run b s (es.take j)).pc c = .wakeup chan n k') →
    (run b s es).pc c = k' → ((run b s es).sh.proc p).state ≠ .SLEEPING := by
  induction es with
  | nil =>
    intro s _ h _ hret
    obtain ⟨n, hpc, -⟩ := h.scan
    exact absurd (hpc.symm.trans hret) (wakeup_ne n k')
  | cons e es ih =>
    intro s hinv h hin hret
    have hin' : ∀ j < es.length, ∃ n,
        (run b (step b s e.1 e.2) (es.take j)).pc c = .wakeup chan n k' := fun j hj => by
      have h1 := hin (j + 1) (by simpa using hj)
      rwa [List.take_succ_cons] at h1
    rcases step_waking hinv h b e.1 e.2 with h1 | ⟨h1, h2⟩
    · exact ih (step_inv hinv b e.1 e.2) h1 hin' hret
    · rcases es with _ | ⟨e', es⟩
      · exact h2
      · obtain ⟨n, h3⟩ := hin' 0 (by simp)
        exact absurd (h3.symm.trans h1) (wakeup_ne n k')

/-- **No wakeup is lost.** Process `p` has looked at its condition under `lk` and calls
`sleep(chan, lk)` in some reachable state. Later, before that call has returned, another thread
holds `lk`, which it can only have acquired since, and begins a `wakeup(chan)`. Whatever the other
processors do in the meantime, `p` is not asleep when that `wakeup` returns. -/
theorem wakeup_not_lost (b : Build) (N : ℕ) (es0 es1 es2 : List (Fin N × Choice)) (c0 c : Fin N)
    (p : Slot) (chan : ℕ) (lk : Lock) (k k' : Pc)
    (hcur : (run b (boot b N) es0).cur c0 = some p)
    (hsleep : (run b (boot b N) es0).thread p = .sleep chan lk k)
    (hcall : ∀ j ≤ es1.length, (run b (run b (boot b N) es0) (es1.take j)).thread p ≠ k)
    (hother : (run b (run b (boot b N) es0) es1).cur c ≠ some p)
    (hlk : (run b (run b (boot b N) es0) es1).owner lk = some c)
    (hbegin : (run b (run b (boot b N) es0) es1).pc c = .wakeup chan 0 k')
    (hin : ∀ j < es2.length, ∃ n,
      (run b (run b (run b (boot b N) es0) es1) (es2.take j)).pc c = .wakeup chan n k')
    (hend : (run b (run b (run b (boot b N) es0) es1) es2).pc c = k') :
    ((run b (run b (run b (boot b N) es0) es1) es2).sh.proc p).state ≠ .SLEEPING := by
  have hinv0 := reachable_inv b N es0
  have hinv1 := run_inv b es1 hinv0
  have hwait : Waiting (run b (run b (boot b N) es0) es1) p chan lk k := by
    rcases run_waiting es1 hinv0 (Or.inl ⟨c0, hcur, hsleep⟩) hcall with ⟨c1, h1, h2⟩ | h1
    · -- the lock would still be the sleeper's
      have h3 := Calls.owner hinv1 h1 h2
      rw [hlk] at h3
      cases h3
      exact absurd h1 hother
    · exact h1
  refine run_waking es2 hinv1 ⟨hwait, hother, ?_, 0, hbegin, fun h => by omega⟩ hin hend
  have h1 := (hinv1.own c lk).mp hlk
  rw [hbegin] at h1
  exact h1

/-- `init` forks on processor 0; the child runs on processor 1, takes a lock and calls `sleep`. -/
def sleepRun : List (Fin 2 × Choice) :=
  [(cpu0, .go), (cpu0, .go), (cpu0, .go), (cpu0, .syscall .fork), (cpu0, .go), (cpu0, .go),
    (cpu0, .go), (cpu0, .go), (cpu0, .go), (cpu0, .go), (cpu1, .go), (cpu1, .go), (cpu1, .go),
    (cpu1, .go), (cpu1, .syscall (.other 5)), (cpu1, .go), (cpu1, .go), (cpu1, .sleep 7)]

/-- The child falls asleep; `init` takes the lock and calls `wakeup`. -/
def lockRun : List (Fin 2 × Choice) :=
  [(cpu1, .go), (cpu1, .go), (cpu1, .go), (cpu0, .syscall (.other 5)), (cpu0, .go), (cpu0, .go),
    (cpu0, .wakeup 7)]

theorem wakeup_not_lost_child :
    ((run .RR (run .RR (boot .RR 2) sleepRun) lockRun).sh.proc slot1).state = .SLEEPING ∧
    ((run .RR (run .RR (run .RR (boot .RR 2) sleepRun) lockRun)
      (List.replicate 65 (0, .go))).sh.proc slot1).state ≠ .SLEEPING := by
  have hscan : ∀ j < 65, (run .RR (run .RR (run .RR (boot .RR 2) sleepRun) lockRun)
      ((List.replicate 65 (0, .go)).take j)).pc 0 =
      .wakeup 7 j (.holding 5 (usertrapEnd false)) := by decide +kernel
  refine ⟨by decide +kernel, wakeup_not_lost .RR 2 sleepRun lockRun (List.replicate 65 (0, .go)) 1 0
    slot1 7 (.other 5) (.holding 5 (usertrapEnd false)) (.holding 5 (usertrapEnd false))
    (by decide +kernel) (by decide +kernel) (by decide +kernel) (by decide +kernel)
    (by decide +kernel) (by decide +kernel) (fun j hj => ⟨j, hscan j ?_⟩) (by decide +kernel)⟩
  simpa using hj

end Xv6.SmpWakeup
