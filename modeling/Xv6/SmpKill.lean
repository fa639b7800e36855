import Xv6.SmpWrites

/-!
A kill and what can undo it.

`kill` and `setkilled` write `p->killed` under the lock of `p`; `usertrap` assigns to it without the
lock when a store page fault ends, and assigns `0` when the fault was repaired, whatever stood there.
-/

namespace Xv6.SmpKill

open Xv6.Riscv Xv6.Pbs Xv6.Smp Xv6.SmpMoves Xv6.SmpInv Xv6.SmpWrites
open Xv6.Process (ProcState)

variable {N : ℕ} {s : State N} {b : Build} {c : Fin N} {ch : Choice} {p : Slot}

/-- The step is the section of a `kill(pid)` that finds process `p`, after which it returns `0`. -/
def KillHits (s : State N) (c : Fin N) (ch : Choice) (p : Slot) : Prop :=
  ch.isInterrupt = false ∧ s.owner (.proc p) = none ∧ ∃ i n, s.cur c = some i ∧
    s.pc c = .kill (s.sh.proc p).pid n ∧ slotAt n = some p

/-- How often `freeproc` has recycled slot `p`. -/
def frees (s : State N) (p : Slot) : ℕ := s.sh.log.count (.freed p)

/-- The run loses no kill: a live process that a `kill` has found is killed in the end, unless its
slot has been recycled since. -/
def KeepsKills (b : Build) (N : ℕ) (es : List (Fin N × Choice)) : Prop :=
  ∀ es1 c ch es2, es = es1 ++ (c, ch) :: es2 → ∀ p,
    KillHits (run b (boot b N) es1) c ch p →
    ((run b (boot b N) es1).sh.proc p).state ≠ .UNUSED →
    frees (run b (boot b N) es) p = frees (run b (boot b N) (es1 ++ [(c, ch)])) p →
    ((run b (boot b N) es).sh.proc p).killed ≠ 0

/-- The step is not a store page fault, repaired, of a process that has been killed. -/
def Careful (s : State N) (c : Fin N) (ch : Choice) : Prop :=
  ch = .store false → s.pc c = .user → ∀ i, s.cur c = some i → (s.sh.proc i).killed = 0

/-- Every step of the run is careful. -/
def CarefulRun (b : Build) : State N → List (Fin N × Choice) → Prop
  | _, [] => True
  | s, e :: es => Careful s e.1 e.2 ∧ CarefulRun b (step b s e.1 e.2) es

/-! ### One step -/

/-- Killed and not recycled. -/
def Killed (s : State N) (p : Slot) : Prop :=
  (s.sh.proc p).killed ≠ 0 ∧ (s.sh.proc p).state ≠ .UNUSED

lemma kill_killed (pid : ℤ) (p : Proc) (h : p.killed ≠ 0 ∨ p.pid = pid) :
    (PbsRuns.kill pid p).killed ≠ 0 := by
  unfold PbsRuns.kill
  split_ifs with hp
  · simp
  · simp
  · rcases h with h | h
    · exact h
    · exact absurd h hp

lemma kill_used (pid : ℤ) (p : Proc) (h : p.state ≠ .UNUSED) :
    (PbsRuns.kill pid p).state ≠ .UNUSED := by
  rcases kill_state pid p with h1 | ⟨-, h1⟩
  · rwa [h1]
  · rw [h1]
    simp

/-- A section keeps a killed process killed, or records that its slot was recycled. -/
lemma code_killed (hinv : Inv s) (hs : ¬ Switches (s.pc c)) (hc : Careful s c ch)
    (h : Killed s p) :
    let e := code b (s.cur c) ch s.sh (s.pc c)
    ((e.sh.proc p).killed ≠ 0 ∧ (e.sh.proc p).state ≠ .UNUSED) ∨
      s.sh.log.count (.freed p) < e.sh.log.count (.freed p) := by
  intro e
  obtain ⟨hk, hu⟩ := h
  rcases @code_wrote _ _ s.sh b ch (hinv.wf c) hs p with
    h1 | h1 | ⟨bad, hpc, hme, hch, h1⟩ | ⟨k, -, -, h1⟩ | ⟨pid, n, -, -, h1⟩ | ⟨n, -, -, hst, -⟩ |
    ⟨n, -, -, hst, -⟩ | ⟨i, -, -, h1⟩ | ⟨-, h1⟩ | ⟨i, st, n, -, -, -, -, h1⟩ | ⟨st, -, -, h1⟩ |
    ⟨i, x, -, -, -, -, hlog⟩ | ⟨chan, lk, k, -, -, h1⟩ | ⟨lk, k, -, -, h1⟩ | ⟨k, -, -, h1⟩ |
    ⟨chan, n, k, -, -, -, h1⟩
  · rw [h1]
    exact Or.inl ⟨hk, hu⟩
  · rw [h1.killed, h1.state]
    exact Or.inl ⟨hk, hu⟩
  · rw [h1]
    cases bad
    · exact absurd (hc hch hpc p hme) hk
    · exact Or.inl ⟨by simp, hu⟩
  · rw [h1]
    exact Or.inl ⟨by simp, hu⟩
  · rw [h1]
    exact Or.inl ⟨kill_killed pid _ (Or.inl hk), kill_used pid _ hu⟩
  · exact absurd hst hu
  · exact absurd hst hu
  · rw [h1]
    exact Or.inl ⟨hk, hu⟩
  · rw [h1]
    exact Or.inl ⟨hk, by simp⟩
  · rw [h1]
    exact Or.inl ⟨hk, hu⟩
  · rw [h1]
    exact Or.inl ⟨hk, by simp⟩
  · -- reaped: the slot is recycled
    refine Or.inr ?_
    rw [show e.sh.log = _ from hlog, List.count_append]
    simp
  · rw [h1]
    exact Or.inl ⟨hk, by simp⟩
  · rw [h1]
    exact Or.inl ⟨hk, hu⟩
  · rw [h1]
    exact Or.inl ⟨hk, by simp⟩
  · rw [h1]
    refine Or.inl ⟨?_, ?_⟩
    · unfold PbsRuns.wakeup
      split_ifs <;> exact hk
    · rcases wakeup_state chan (s.sh.proc p) with h2 | ⟨-, h2⟩
      · rwa [h2]
      · rw [h2]
        simp

lemma code_frees (hinv : Inv s) (hs : ¬ Switches (s.pc c)) :
    s.sh.log.count (.freed p) ≤ (code b (s.cur c) ch s.sh (s.pc c)).sh.log.count (.freed p) := by
  rcases @code_logged _ _ s.sh b ch (hinv.wf c) hs with
    h | ⟨_, _, _, _, _, h⟩ | ⟨_, _, _, _, h⟩ | ⟨_, _, _, _, _, _, _, h⟩
  · rw [h]
  all_goals
    rw [h, List.count_append]
    omega

lemma picked_killed (b : Build) (p : Proc) : (picked b p).killed = p.killed := by
  cases b <;> rfl

/-- **One careful step**: a killed process stays killed until its slot is recycled. -/
lemma step_killed (hinv : Inv s) (hc : Careful s c ch) {n : ℕ}
    (h : n ≤ frees s p ∧ (Killed s p ∨ n < frees s p)) :
    n ≤ frees (step b s c ch) p ∧ (Killed (step b s c ch) p ∨ n < frees (step b s c ch) p) := by
  obtain ⟨hle, h⟩ := h
  have hstep := step_stepped hinv b c ch
  generalize step b s c ch = s' at hstep
  cases hstep with
  | stays => exact ⟨hle, h⟩
  | interrupted hl =>
    unfold Killed frees
    rw [moved_sh]
    exact ⟨hle, h⟩
  | moves hw hs =>
    have hmono := @code_frees _ _ b _ ch p hinv hs
    unfold Killed frees at *
    rw [moved_sh]
    refine ⟨hle.trans hmono, ?_⟩
    rcases h with h | h
    · rcases code_killed (b := b) hinv hs hc h with h1 | h1
      · exact Or.inl h1
      · exact Or.inr (by omega)
    · exact Or.inr (by omega)
  | leaves hc hk => exact ⟨hle, h⟩
  | @enters q k hc hk =>
    refine ⟨hle, h.imp_left fun ⟨h1, h2⟩ => ?_⟩
    unfold Killed
    dsimp only
    by_cases hq : p = q
    · subst hq
      rw [on_self, picked_killed, picked_state]
      exact ⟨h1, by simp⟩
    · rw [on_other hq]
      exact ⟨h1, h2⟩
  | backs hc hk => exact ⟨hle, h⟩

lemma run_killed (es : List (Fin N × Choice)) : ∀ {s : State N}, Inv s → CarefulRun b s es → ∀ {n : ℕ},
    n ≤ frees s p ∧ (Killed s p ∨ n < frees s p) →
    n ≤ frees (run b s es) p ∧ (Killed (run b s es) p ∨ n < frees (run b s es) p) := by
  induction es with
  | nil => intro s _ _ n h; exact h
  | cons e es ih =>
    intro s hinv hc n h
    exact ih (step_inv hinv b e.1 e.2) hc.2 (step_killed hinv hc.1 h)

lemma carefulRun_append (es1 es2 : List (Fin N × Choice)) : ∀ {s : State N},
    CarefulRun b s (es1 ++ es2) → CarefulRun b (run b s es1) es2 := by
  induction es1 with
  | nil => intro s h; exact h
  | cons e es ih => intro s h; exact ih h.2

lemma run_append (b : Build) (s : State N) (es1 es2 : List (Fin N × Choice)) :
    run b s (es1 ++ es2) = run b (run b s es1) es2 := List.foldl_append

lemma killHits_killed (h : KillHits s c ch p)
    (hu : (s.sh.proc p).state ≠ .UNUSED) : Killed (step b s c ch) p := by
  obtain ⟨hch, how, i, n, hi, hpc, hn⟩ := h
  have hwant : want (s.cur c) (s.pc c) = some (.proc p) := by
    rw [hpc]
    simp [want, hn]
  have hcode : (code b (s.cur c) ch s.sh (s.pc c)).sh.proc p =
      PbsRuns.kill (s.sh.proc p).pid (s.sh.proc p) := by
    rw [hi, hpc]
    simp only [code, procCode, hn]
    exact on_self _
  unfold Killed
  rw [step_takes b hch hwant how, moved_sh, hcode]
  exact ⟨kill_killed _ _ (Or.inr rfl), kill_used _ _ hu⟩

/-- **When a kill is kept**: in every run in which no killed process has a store page fault
repaired, a live process that a `kill` has found is killed in every later state until `freeproc`
recycles its slot. -/
theorem kill_kept_of_careful (b : Build) (N : ℕ) (es : List (Fin N × Choice))
    (h : CarefulRun b (boot b N) es) : KeepsKills b N es := by
  rintro es1 c ch es2 rfl p hhit hu hfrees
  have hinv := reachable_inv b N es1
  have hc : CarefulRun b (run b (boot b N) es1) ((c, ch) :: es2) := carefulRun_append _ _ h
  have hkilled := killHits_killed (b := b) hhit hu
  rw [run_append] at hfrees ⊢
  rw [run_append] at hfrees
  change frees (run b (step b _ c ch) es2) p = frees (step b _ c ch) p at hfrees
  change ((run b (step b _ c ch) es2).sh.proc p).killed ≠ 0
  have hrun := run_killed es2 (step_inv hinv b c ch) hc.2 ⟨le_rfl, Or.inl hkilled⟩
  rcases hrun.2 with h1 | h1
  · exact h1.1
  · omega

/-- `init` forks on processor 0, the child runs on processor 1, and `init` kills it. -/
def killRun : List (Fin 2 × Choice) :=
  [(cpu0, .go), (cpu0, .go), (cpu0, .go), (cpu0, .syscall .fork), (cpu0, .go), (cpu0, .go),
    (cpu0, .go), (cpu0, .go), (cpu0, .go), (cpu0, .go), (cpu1, .go), (cpu1, .go), (cpu1, .go),
    (cpu1, .go), (cpu0, .syscall (.kill 2)), (cpu0, .go), (cpu0, .go)]

lemma killRun_hits : KillHits (run .RR (boot .RR 2) killRun) 0 .go slot1 :=
  ⟨rfl, by decide +kernel, initproc, 1, by decide +kernel, by decide +kernel, by decide +kernel⟩

theorem kill_kept_without_fault :
    ((run .RR (boot .RR 2) (killRun ++ [(0, .go)])).sh.proc slot1).killed ≠ 0 :=
  kill_kept_of_careful .RR 2 (killRun ++ [(0, .go)]) (by simp [CarefulRun, Careful, killRun])
    killRun 0 .go [] rfl slot1 killRun_hits (by decide +kernel) rfl

/-- The child then stores to a page it shares with its parent: the kill is lost. -/
theorem kill_lost : ¬ KeepsKills .RR 2 (killRun ++ [(0, .go), (1, .store false)]) := by
  intro h
  refine h killRun 0 .go [(1, .store false)] rfl slot1 killRun_hits ?_ ?_ ?_
  · decide +kernel
  · decide +kernel
  · decide +kernel

end Xv6.SmpKill
