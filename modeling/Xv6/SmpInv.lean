import Xv6.SmpMoves

/-!
What holds in every state the processors reach: who owns which lock, which process is on which
processor, and how the state of a process agrees with where its thread stands. It follows from what
a section can do and from the three steps around `swtch`.
-/

namespace Xv6.SmpInv

open Xv6.Riscv Xv6.Pbs Xv6.Smp Xv6.SmpMoves
open Xv6.Process (ProcState)

/-! ### The invariant -/

variable {N : ℕ} {s : State N} {c c' : Fin N} {e : Effect}

/-- The state of a process whose thread is not on a processor. -/
def Rests : ProcState → Pc → Prop
  | .RUNNING, _ => False
  | .SLEEPING, pc => ∃ lk k, pc = .asleep lk k
  | .RUNNABLE, pc => Resumes pc
  | .USED, pc => pc = forkret
  | .ZOMBIE, pc | .UNUSED, pc => pc = .exited

structure Inv (s : State N) : Prop where
  /-- A processor owns the locks its thread holds. -/
  own : ∀ c l, s.owner l = some c ↔ l ∈ held (s.cur c) (s.pc c)
  cproc : ∀ c p, s.cproc c = some p ↔ ∃ k, s.sched c = .switched p k
  cur : ∀ c p, s.cur c = some p → s.cproc c = some p
  once : ∀ c c' p, s.cproc c = some p → s.cproc c' = some p → c = c'
  thread : ∀ i, Wf (some i) (s.thread i)
  sched : ∀ c, Wf none (s.sched c)
  running : ∀ c p, s.cur c = some p → (s.sh.proc p).state = stateOf (s.thread p)
  resting : ∀ p, (∀ c, s.cur c ≠ some p) → Rests (s.sh.proc p).state (s.thread p)
  chosen : ∀ c, s.cur c = none → ∀ p ∈ cand (s.sched c), (s.sh.proc p).state = .RUNNABLE
  claim : ∀ i, ∀ np ∈ claims (s.thread i), (s.sh.proc np).state = .USED
  claim_once : ∀ i j np, np ∈ claims (s.thread i) → np ∈ claims (s.thread j) → i = j

/-- A step of processor `c` that stays in its thread, with the lock `w` taken. -/
def moved (s : State N) (c : Fin N) (w : Option Lock) (e : Effect) : State N :=
  { s with
    sh := e.sh
    owner := drop (take s.owner c w) e.free
    thread := startThread s.thread e.start }.setPc c e.pc

/-! ### What a move leaves alone -/

@[simp] lemma moved_cur : (moved s c w e).cur = s.cur := by
  unfold moved State.setPc
  split <;> rfl

@[simp] lemma moved_cproc : (moved s c w e).cproc = s.cproc := by
  unfold moved State.setPc
  split <;> rfl

@[simp] lemma moved_sh : (moved s c w e).sh = e.sh := by
  unfold moved State.setPc
  split <;> rfl

@[simp] lemma moved_owner : (moved s c w e).owner = drop (take s.owner c w) e.free := by
  unfold moved State.setPc
  split <;> rfl

lemma moved_thread_self (h : s.cur c = some i) : (moved s c w e).thread i = e.pc := by
  unfold moved State.setPc
  simp [h]

lemma moved_thread_other (h : s.cur c ≠ some p) (hst : e.start ≠ some p) :
    (moved s c w e).thread p = s.thread p := by
  have h1 : startThread s.thread e.start p = s.thread p := by
    rcases hq : e.start with _ | q
    · rfl
    · refine Function.update_of_ne ?_ _ _
      rintro rfl
      exact hst hq
  unfold moved State.setPc
  split
  · next i hi =>
    refine (Function.update_of_ne ?_ _ _).trans h1
    rintro rfl
    exact h hi
  · exact h1

lemma moved_thread_start (h : s.cur c ≠ some p) (hst : e.start = some p) :
    (moved s c w e).thread p = forkret := by
  have h1 : startThread s.thread e.start p = forkret := by
    rw [hst]
    exact Function.update_self _ _ _
  unfold moved State.setPc
  split
  · next i hi =>
    refine (Function.update_of_ne ?_ _ _).trans h1
    rintro rfl
    exact h hi
  · exact h1

lemma moved_sched_self (h : s.cur c = none) : (moved s c w e).sched c = e.pc := by
  unfold moved State.setPc
  simp [h]

lemma moved_sched_other (h : c' ≠ c ∨ s.cur c ≠ none) :
    (moved s c w e).sched c' = s.sched c' := by
  unfold moved State.setPc
  split
  · rfl
  · next hn =>
    rcases h with h | h
    · exact Function.update_of_ne h _ _
    · exact absurd hn h

lemma pc_some (h : s.cur c = some i) : s.pc c = s.thread i := by
  unfold State.pc
  rw [h]

lemma pc_none (h : s.cur c = none) : s.pc c = s.sched c := by
  unfold State.pc
  rw [h]

lemma moved_pc_self : (moved s c w e).pc c = e.pc := by
  rcases h : s.cur c with _ | i
  · rw [pc_none (by rw [moved_cur, h]), moved_sched_self h]
  · rw [pc_some (by rw [moved_cur, h]), moved_thread_self h]

/-! ### Consequences of the invariant -/

lemma stateOf_ne_unused (pc : Pc) : stateOf pc ≠ .UNUSED := by
  unfold stateOf
  split <;> simp

lemma stateOf_ne_used (pc : Pc) : stateOf pc ≠ .USED := by
  unfold stateOf
  split <;> simp

lemma stateOf_cases (h : Wf (some i) pc) :
    stateOf pc = .RUNNING ∨ Lock.proc i ∈ held (some i) pc := by
  cases pc
  case sched k => exact Or.inr (by simp [held, ownLock])
  all_goals exact Or.inl rfl

lemma Inv.wf (h : Inv s) (c : Fin N) : Wf (s.cur c) (s.pc c) := by
  rcases hc : s.cur c with _ | i
  · rw [pc_none hc]
    exact h.sched c
  · rw [pc_some hc]
    exact h.thread i

lemma Inv.cur_once (h : Inv s) (h1 : s.cur c = some p) (h2 : s.cur c' = some p) : c = c' :=
  h.once c c' p (h.cur c p h1) (h.cur c' p h2)

lemma Inv.running_of_free (h : Inv s) (hc : s.cur c = some p) (hl : s.owner (.proc p) = none) :
    (s.sh.proc p).state = .RUNNING := by
  rw [h.running c p hc]
  rcases stateOf_cases (h.thread p) with h1 | h1
  · exact h1
  · rw [← pc_some hc, ← hc, ← h.own] at h1
    rw [hl] at h1
    cases h1

lemma Inv.claim_used (h : Inv s) (c : Fin N) {np : Slot} (hnp : np ∈ claims (s.pc c)) :
    ∃ i, s.cur c = some i ∧ np ∈ claims (s.thread i) ∧ (s.sh.proc np).state = .USED := by
  rcases hc : s.cur c with _ | i
  · rw [pc_none hc, claims_none (h.sched c)] at hnp
    simp at hnp
  · rw [pc_some hc] at hnp
    exact ⟨i, rfl, hnp, h.claim i np hnp⟩

/-! ### Moves keep it -/

/-- The lock a move takes was free. -/
def Free (s : State N) (w : Option Lock) : Prop := ∀ l, w = some l → s.owner l = none

section

variable (h : Inv s) (hm : Moves (s.cur c) w s.sh (s.pc c) e) (hw : Free s w)
  (hs : ¬ Switches (s.pc c))

include hm

lemma moved_claims {np : Slot} (hnp : np ∈ claims ((moved s c w e).thread i)) :
    np ∈ claims (s.thread i) ∧ (s.cur c ≠ some i ∨ np ∈ claims e.pc) ∨
      s.cur c = some i ∧ e.start = some np := by
  by_cases hc : s.cur c = some i
  · rw [moved_thread_self hc] at hnp
    rcases hm.claim np hnp with h1 | h1
    · rw [pc_some hc] at h1
      exact Or.inl ⟨h1, Or.inr hnp⟩
    · exact Or.inr ⟨hc, h1⟩
  · by_cases hst : e.start = some i
    · rw [moved_thread_start hc hst] at hnp
      simp [forkret, claims] at hnp
    · rw [moved_thread_other hc hst] at hnp
      exact Or.inl ⟨hnp, Or.inl hc⟩

include h

lemma start_idle (hst : e.start = some p) (c' : Fin N) : s.cur c' ≠ some p := by
  intro hc
  obtain ⟨-, h1, -⟩ := hm.fresh p hst
  exact stateOf_ne_unused _ (h1 ▸ h.running c' p hc).symm

lemma moved_pc_other (hne : c' ≠ c) : (moved s c w e).pc c' = s.pc c' := by
  rcases hc : s.cur c' with _ | p
  · rw [pc_none (by rw [moved_cur, hc]), pc_none hc, moved_sched_other (Or.inl hne)]
  · rw [pc_some (by rw [moved_cur, hc]), pc_some hc, moved_thread_other]
    · exact fun h1 => hne (h.cur_once hc h1)
    · exact fun h1 => start_idle h hm h1 c' hc

lemma moved_resting (hp : ∀ c', s.cur c' ≠ some p) :
    Rests (e.sh.proc p).state ((moved s c w e).thread p) := by
  by_cases hst : e.start = some p
  · rw [moved_thread_start (hp c) hst, (hm.fresh p hst).2.2]
    rfl
  rw [moved_thread_other (hp c) hst]
  have hrest := h.resting p hp
  rcases hm.changes p with h1 | h1 | ⟨-, h2, h3⟩ | h1 | ⟨-, h2, h3⟩ | ⟨-, h2, h3, -⟩
  · rw [h1]
    exact hrest
  · exact absurd h1 (hp c)
  · rw [h2] at hrest
    rw [h3]
    obtain ⟨lk, k, hk⟩ := hrest
    rw [hk]
    trivial
  · exact absurd h1 hst
  · rw [h2] at hrest
    rw [h3]
    exact hrest
  · obtain ⟨-, -, -, h4⟩ := h.claim_used c h2
    rw [h4] at hrest
    rw [h3, show s.thread p = forkret from hrest]
    trivial

lemma moved_chosen_self (hc : s.cur c = none) (hp : p ∈ cand e.pc) :
    (e.sh.proc p).state = .RUNNABLE := by
  have hrun : (s.sh.proc p).state = .RUNNABLE := by
    rcases hm.chosen p hp with h1 | h1
    · rw [pc_none hc] at h1
      exact h.chosen c hc p h1
    · exact h1.2
  rcases hm.changes p with h1 | h1 | ⟨-, h2, -⟩ | h1 | ⟨-, h2, -⟩ | ⟨-, h2, -, -⟩
  · exact h1.trans hrun
  · rw [hc] at h1
    cases h1
  · rw [hrun] at h2
    cases h2
  · rw [(hm.fresh p h1).2.1] at hrun
    cases hrun
  · rw [hrun] at h2
    cases h2
  · obtain ⟨i, h3, -, -⟩ := h.claim_used c h2
    rw [hc] at h3
    cases h3

lemma moved_claim {np : Slot} (hnp : np ∈ claims ((moved s c w e).thread i)) :
    (e.sh.proc np).state = .USED := by
  rcases moved_claims hm hnp with ⟨h1, h2⟩ | ⟨-, h1⟩
  · have hused := h.claim i np h1
    rcases hm.changes np with h3 | h3 | ⟨-, h3, -⟩ | h3 | ⟨-, h3, -⟩ | ⟨-, h3, -, h4⟩
    · exact h3.trans hused
    · rw [h.running c np h3] at hused
      exact absurd hused (stateOf_ne_used _)
    · rw [hused] at h3
      cases h3
    · exact (hm.fresh np h3).2.2
    · rw [hused] at h3
      cases h3
    · obtain ⟨j, hj, h5, -⟩ := h.claim_used c h3
      obtain rfl := h.claim_once i j np h1 h5
      rcases h2 with h2 | h2
      · exact absurd hj h2
      · rw [h4] at h2
        simp at h2
  · exact (hm.fresh np h1).2.2

include hw

lemma moved_running (hne : c' ≠ c) (hc : s.cur c' = some p) :
    (e.sh.proc p).state = (s.sh.proc p).state := by
  have hfree : w = some (.proc p) → (s.sh.proc p).state = .RUNNING := fun h1 =>
    h.running_of_free hc (hw _ h1)
  rcases hm.changes p with h1 | h1 | ⟨h1, h2, -⟩ | h1 | ⟨h1, h2, -⟩ | ⟨-, h2, -, -⟩
  · exact h1
  · exact absurd (h.cur_once hc h1) hne
  · rw [hfree h1] at h2
    cases h2
  · exact absurd hc (start_idle h hm h1 c')
  · rw [hfree h1] at h2
    cases h2
  · obtain ⟨-, -, -, h3⟩ := h.claim_used c h2
    rw [h.running c' p hc] at h3
    exact absurd h3 (stateOf_ne_used _)

/-- **Locks**: the mover owns what its move keeps, the others what they had. -/
lemma moved_own (c' : Fin N) (l : Lock) :
    (moved s c w e).owner l = some c' ↔ l ∈ held (s.cur c') ((moved s c w e).pc c') := by
  rw [moved_owner]
  unfold drop
  by_cases hne : c' = c
  · subst hne
    rw [moved_pc_self, hm.holds l, ← h.own]
    split_ifs with hf
    · simp [hf]
    · simp only [hf, not_false_eq_true, and_true]
      rcases w with _ | l'
      · simp [take]
      · by_cases hl : l = l'
        · simp [take, hl]
        · simp [take, Function.update_of_ne hl, Ne.symm hl]
  · rw [moved_pc_other h hm hne, ← h.own]
    have hnot : w = some l → s.owner l ≠ some c' := fun h1 h2 => by
      rw [hw l h1] at h2
      cases h2
    split_ifs with hf
    · refine ⟨fun h1 => absurd h1 (by simp), fun h1 => ?_⟩
      rcases hm.freed l hf with h2 | h2
      · rw [← h.own, h1] at h2
        exact absurd (Option.some.inj h2) hne
      · exact absurd h1 (hnot h2)
    · rcases w with _ | l'
      · rfl
      · by_cases hl : l = l'
        · subst hl
          simp only [take, Function.update_self, Option.some.injEq]
          exact ⟨fun h1 => absurd h1.symm hne, fun h1 => absurd h1 (hnot rfl)⟩
        · rw [show take s.owner c (some l') l = s.owner l from Function.update_of_ne hl _ _]

lemma moved_chosen (hne : c' ≠ c) (hc : s.cur c' = none) (hp : p ∈ cand (s.sched c')) :
    (e.sh.proc p).state = .RUNNABLE := by
  have hrun := h.chosen c' hc p hp
  have howner : s.owner (.proc p) = some c' := by
    rw [h.own, pc_none hc]
    exact cand_held hp
  have hnot : w ≠ some (.proc p) := fun h1 => by
    rw [hw _ h1] at howner
    cases howner
  rcases hm.changes p with h1 | h1 | ⟨h1, -, -⟩ | h1 | ⟨h1, -, -⟩ | ⟨h1, -, -, -⟩
  · exact h1.trans hrun
  · -- a process that executes is runnable only with its own lock held
    rcases stateOf_cases (h.thread p) with h2 | h2
    · rw [h.running c p h1, h2] at hrun
      cases hrun
    · rw [← pc_some h1, ← h1, ← h.own, howner] at h2
      exact absurd (Option.some.inj h2) hne
  · exact absurd h1 hnot
  · exact absurd (hm.fresh p h1).1 hnot
  · exact absurd h1 hnot
  · exact absurd h1 hnot

include hs

/-- **A move keeps the invariant.** -/
lemma Inv.moved : Inv (moved s c w e) where
  own c' l := by
    rw [moved_cur]
    exact moved_own h hm hw c' l
  cproc c' p := by
    rw [moved_cproc, h.cproc]
    by_cases hc : c' ≠ c ∨ s.cur c ≠ none
    · rw [moved_sched_other hc]
    · push Not at hc
      obtain ⟨rfl, hc⟩ := hc
      rw [moved_sched_self hc]
      refine ⟨?_, fun ⟨k, hk⟩ => absurd hk (hm.stays p k)⟩
      rintro ⟨k, hk⟩
      rw [pc_none hc, hk] at hs
      exact absurd trivial hs
  cur c' p hc := by
    rw [moved_cur] at hc
    rw [moved_cproc]
    exact h.cur c' p hc
  once := by
    rw [moved_cproc]
    exact h.once
  thread j := by
    by_cases hc : s.cur c = some j
    · rw [moved_thread_self hc, ← hc]
      exact hm.wf
    · by_cases hst : e.start = some j
      · rw [moved_thread_start hc hst]
        exact ⟨rfl, rfl, rfl⟩
      · rw [moved_thread_other hc hst]
        exact h.thread j
  sched c' := by
    by_cases hc : c' ≠ c ∨ s.cur c ≠ none
    · rw [moved_sched_other hc]
      exact h.sched c'
    · push Not at hc
      obtain ⟨rfl, hc⟩ := hc
      rw [moved_sched_self hc, ← hc]
      exact hm.wf
  running c' p hc := by
    rw [moved_cur] at hc
    rw [moved_sh]
    by_cases hne : c' = c
    · subst hne
      rw [moved_thread_self hc]
      refine hm.self p hc ?_ fun np hnp => ?_
      · rw [h.running c' p hc, ← pc_some hc]
        exact stateOf_stays hs
      · obtain ⟨-, -, -, h1⟩ := h.claim_used c' hnp
        exact h1
    · rw [moved_running h hm hw hne hc, h.running c' p hc, moved_thread_other]
      · exact fun h1 => hne (h.cur_once hc h1)
      · exact fun h1 => start_idle h hm h1 c' hc
  resting p hp := by
    rw [moved_cur] at hp
    rw [moved_sh]
    exact moved_resting h hm hp
  chosen c' hc p hp := by
    rw [moved_cur] at hc
    rw [moved_sh]
    by_cases hne : c' = c
    · subst hne
      rw [moved_sched_self hc] at hp
      exact moved_chosen_self h hm hc hp
    · rw [moved_sched_other (Or.inl hne)] at hp
      exact moved_chosen h hm hw hne hc hp
  claim j np hnp := by
    rw [moved_sh]
    exact moved_claim h hm hnp
  claim_once j j' np h1 h2 := by
    have hnew : ∀ {j}, np ∈ claims (s.thread j) → e.start ≠ some np := fun h3 h4 => by
      have h5 := h.claim _ np h3
      rw [(hm.fresh np h4).2.1] at h5
      cases h5
    rcases moved_claims hm h1 with ⟨h3, -⟩ | ⟨h3, h5⟩ <;>
      rcases moved_claims hm h2 with ⟨h4, -⟩ | ⟨h4, h6⟩
    · exact h.claim_once j j' np h3 h4
    · exact absurd h6 (hnew h3)
    · exact absurd h5 (hnew h4)
    · rw [h3] at h4
      exact Option.some.inj h4

end

/-! ### The steps around `swtch` -/

lemma held_resumes (h : Resumes pc) : held (some i) pc = [.proc i] := by
  cases pc <;> simp_all [Resumes, held, ownLock]

lemma stateOf_resumes (h : Resumes pc) : stateOf pc = .RUNNING := by
  cases pc <;> simp_all [Resumes, stateOf]

lemma rests_of_sched (h : k = .exited ∨ Resumes k) : Rests (stateOf (.sched k)) k := by
  rcases h with rfl | h
  · rfl
  · cases k <;> simp_all [Resumes, stateOf, Rests]

/-- `sched`: the thread of process `i` leaves processor `c`. -/
lemma Inv.leave (h : Inv s) (hc : s.cur c = some i) (hk : s.thread i = .sched k) :
    Inv { s with cur := Function.update s.cur c none, thread := Function.update s.thread i k } := by
  have hwf := h.thread i
  rw [hk] at hwf
  have hcur : ∀ {c' p}, (Function.update s.cur c none) c' = some p → c' ≠ c ∧ s.cur c' = some p := by
    intro c' p h1
    by_cases hne : c' = c
    · subst hne
      rw [Function.update_self] at h1
      cases h1
    · rw [Function.update_of_ne hne] at h1
      exact ⟨hne, h1⟩
  have hpi : ∀ {c' p}, (Function.update s.cur c none) c' = some p → p ≠ i := by
    rintro c' p h1 rfl
    obtain ⟨h2, h3⟩ := hcur h1
    exact h2 (h.cur_once h3 hc)
  have hclaims : ∀ j, claims (Function.update s.thread i k j) = claims (s.thread j) := by
    intro j
    by_cases hj : j = i
    · subst hj
      rw [Function.update_self, hk]
      rfl
    · rw [Function.update_of_ne hj]
  obtain ⟨k', hk'⟩ := (h.cproc c i).mp (h.cur c i hc)
  refine ⟨fun c' l => ?_, h.cproc, fun c' p h1 => h.cur c' p (hcur h1).2, h.once, fun j => ?_,
    h.sched, fun c' p h1 => ?_, fun p hp => ?_, fun c' h1 p hp => ?_, fun j np hnp => ?_,
    fun j j' np h1 h2 => ?_⟩
  · -- the scheduler holds the lock now
    by_cases hne : c' = c
    · subst hne
      change s.owner l = some c' ↔ _
      rw [h.own, pc_some hc, hc, hk, pc_none (Function.update_self _ _ _)]
      dsimp only
      rw [Function.update_self, hk']
      rfl
    · have hpc : State.pc { s with
          cur := Function.update s.cur c none, thread := Function.update s.thread i k } c' =
          s.pc c' := by
        unfold State.pc
        dsimp only
        rw [Function.update_of_ne hne]
        rcases hc' : s.cur c' with _ | j
        · rfl
        · refine Function.update_of_ne ?_ _ _
          rintro rfl
          exact hne (h.cur_once hc' hc)
      rw [hpc]
      dsimp only
      rw [Function.update_of_ne hne]
      exact h.own c' l
  · dsimp only
    by_cases hj : j = i
    · subst hj
      rw [Function.update_self]
      exact hwf.2.1
    · rw [Function.update_of_ne hj]
      exact h.thread j
  · dsimp only
    rw [Function.update_of_ne (hpi h1)]
    exact h.running c' p (hcur h1).2
  · dsimp only at hp ⊢
    by_cases hp' : p = i
    · subst hp'
      rw [Function.update_self, h.running c p hc, hk]
      exact rests_of_sched hwf.2.2
    · rw [Function.update_of_ne hp']
      refine h.resting p fun c' h1 => ?_
      have hne : c' ≠ c := by
        rintro rfl
        rw [hc] at h1
        exact hp' (Option.some.inj h1).symm
      exact hp c' (by rw [Function.update_of_ne hne, h1])
  · dsimp only at h1 hp ⊢
    by_cases hne : c' = c
    · subst hne
      rw [hk'] at hp
      simp [cand] at hp
    · rw [Function.update_of_ne hne] at h1
      exact h.chosen c' h1 p hp
  · rw [hclaims] at hnp
    exact h.claim j np hnp
  · rw [hclaims] at h1 h2
    exact h.claim_once j j' np h1 h2

/-- The process a scheduler is about to switch to: runnable, and on no processor. -/
lemma Inv.picks (h : Inv s) (hc : s.cur c = none) (hk : s.sched c = .swtchTo p k) :
    (s.sh.proc p).state = .RUNNABLE ∧ (∀ c', s.cproc c' ≠ some p) ∧ Resumes (s.thread p) := by
  have hrun : (s.sh.proc p).state = .RUNNABLE := h.chosen c hc p (by rw [hk]; simp [cand])
  have howner : s.owner (.proc p) = some c := by
    rw [h.own, pc_none hc, hk]
    simp [held]
  have hnone : ∀ c', s.cproc c' ≠ some p := by
    intro c' h1
    obtain ⟨k', hk'⟩ := (h.cproc c' p).mp h1
    have hne : c' ≠ c := by
      rintro rfl
      rw [hk] at hk'
      cases hk'
    rcases hc' : s.cur c' with _ | q
    · have h2 : s.owner (.proc p) = some c' := by
        rw [h.own, pc_none hc', hk']
        simp [held]
      rw [howner] at h2
      exact hne (Option.some.inj h2).symm
    · have h2 := h.cur c' q hc'
      rw [h1] at h2
      cases h2
      -- a process that executes is runnable only with its own lock held
      rcases stateOf_cases (h.thread p) with h3 | h3
      · rw [h.running c' p hc', h3] at hrun
        cases hrun
      · rw [← pc_some hc', ← hc', ← h.own, howner] at h3
        exact hne (Option.some.inj h3).symm
  refine ⟨hrun, hnone, ?_⟩
  have hrest := h.resting p fun c' h1 => hnone c' (h.cur c' p h1)
  rw [hrun] at hrest
  exact hrest

lemma picked_state (b : Build) (p : Proc) : (picked b p).state = .RUNNING := by
  cases b <;> rfl

/-- The scheduler of processor `c` switches to the process it picked. -/
lemma Inv.enter (h : Inv s) (b : Build) (hc : s.cur c = none) (hk : s.sched c = .swtchTo p k) :
    Inv { s with
      sh := s.sh.on p (picked b)
      cproc := Function.update s.cproc c (some p)
      cur := Function.update s.cur c (some p)
      sched := Function.update s.sched c (.switched p k) } := by
  obtain ⟨hrun, hnone, hres⟩ := h.picks hc hk
  have hwf := h.sched c
  rw [hk] at hwf
  have hother : ∀ {q}, q ≠ p → ((s.sh.on p (picked b)).proc q).state = (s.sh.proc q).state :=
    fun hq => by rw [on_other hq]
  have hnp : ∀ {c'}, s.cur c' ≠ some p := fun h1 => hnone _ (h.cur _ p h1)
  refine ⟨fun c' l => ?_, fun c' q => ?_, fun c' q h1 => ?_, fun c1 c2 q h1 h2 => ?_, h.thread,
    fun c' => ?_, fun c' q h1 => ?_, fun q hq => ?_, fun c' h1 q hq => ?_, fun j np hj => ?_,
    h.claim_once⟩
  · -- the process holds its lock now
    by_cases hne : c' = c
    · subst hne
      change s.owner l = some c' ↔ _
      rw [h.own, pc_none hc, hc, hk, pc_some (Function.update_self _ _ _)]
      dsimp only
      rw [Function.update_self, held_resumes hres]
      rfl
    · have hpc : State.pc { s with
          sh := s.sh.on p (picked b), cproc := Function.update s.cproc c (some p),
          cur := Function.update s.cur c (some p),
          sched := Function.update s.sched c (.switched p k) } c' = s.pc c' := by
        unfold State.pc
        dsimp only
        rw [Function.update_of_ne hne, Function.update_of_ne hne]
      rw [hpc]
      dsimp only
      rw [Function.update_of_ne hne]
      exact h.own c' l
  · dsimp only
    by_cases hne : c' = c
    · subst hne
      simp
    · rw [Function.update_of_ne hne, Function.update_of_ne hne]
      exact h.cproc c' q
  · dsimp only at h1 ⊢
    by_cases hne : c' = c
    · subst hne
      rw [Function.update_self] at h1 ⊢
      exact h1
    · rw [Function.update_of_ne hne] at h1 ⊢
      exact h.cur c' q h1
  · dsimp only at h1 h2
    have hcase : ∀ {c' q}, Function.update s.cproc c (some p) c' = some q →
        c' = c ∧ q = p ∨ c' ≠ c ∧ q ≠ p ∧ s.cproc c' = some q := by
      intro c' q h3
      by_cases hne : c' = c
      · subst hne
        rw [Function.update_self] at h3
        exact Or.inl ⟨rfl, (Option.some.inj h3).symm⟩
      · rw [Function.update_of_ne hne] at h3
        refine Or.inr ⟨hne, ?_, h3⟩
        rintro rfl
        exact hnone c' h3
    rcases hcase h1 with ⟨rfl, rfl⟩ | ⟨-, h3, h4⟩
    · rcases hcase h2 with ⟨rfl, -⟩ | ⟨-, h3, -⟩
      · rfl
      · exact absurd rfl h3
    · rcases hcase h2 with ⟨-, rfl⟩ | ⟨-, -, h5⟩
      · exact absurd rfl h3
      · exact h.once c1 c2 q h4 h5
  · dsimp only
    by_cases hne : c' = c
    · subst hne
      rw [Function.update_self]
      exact hwf
    · rw [Function.update_of_ne hne]
      exact h.sched c'
  · dsimp only at h1 ⊢
    by_cases hne : c' = c
    · subst hne
      rw [Function.update_self] at h1
      obtain rfl := Option.some.inj h1
      rw [on_self, picked_state, stateOf_resumes hres]
    · rw [Function.update_of_ne hne] at h1
      rw [hother (by rintro rfl; exact hnp h1)]
      exact h.running c' q h1
  · dsimp only at hq ⊢
    have hqp : q ≠ p := by
      rintro rfl
      exact hq c (Function.update_self _ _ _)
    rw [hother hqp]
    refine h.resting q fun c' h1 => ?_
    have hne : c' ≠ c := by
      rintro rfl
      rw [hc] at h1
      cases h1
    exact hq c' (by rw [Function.update_of_ne hne, h1])
  · dsimp only at h1 hq ⊢
    by_cases hne : c' = c
    · subst hne
      rw [Function.update_self] at h1
      cases h1
    · rw [Function.update_of_ne hne] at h1 hq
      have howner : ∀ {q c'}, s.cur c' = none → q ∈ cand (s.sched c') →
          s.owner (.proc q) = some c' := fun h2 h3 => by
        rw [h.own, pc_none h2]
        exact cand_held h3
      have hqp : q ≠ p := by
        rintro rfl
        have h2 := howner h1 hq
        rw [howner hc (by rw [hk]; simp [cand])] at h2
        exact hne (Option.some.inj h2).symm
      rw [hother hqp]
      exact h.chosen c' h1 q hq
  · have hused := h.claim j np hj
    have hne : np ≠ p := by
      rintro rfl
      rw [hrun] at hused
      cases hused
    dsimp only
    rw [hother hne]
    exact hused

/-- The scheduler of processor `c` releases the lock of the process that has come back. -/
lemma Inv.back (h : Inv s) (hc : s.cur c = none) (hk : s.sched c = .switched p k) :
    Inv { s with
      owner := drop s.owner [.proc p]
      cproc := Function.update s.cproc c none
      sched := Function.update s.sched c k } := by
  have hwf := h.sched c
  rw [hk] at hwf
  have howner : s.owner (.proc p) = some c := by
    rw [h.own, pc_none hc, hk]
    simp [held]
  have hcproc : ∀ {c' q}, Function.update s.cproc c none c' = some q →
      c' ≠ c ∧ s.cproc c' = some q := by
    intro c' q h1
    by_cases hne : c' = c
    · subst hne
      rw [Function.update_self] at h1
      cases h1
    · rw [Function.update_of_ne hne] at h1
      exact ⟨hne, h1⟩
  refine ⟨fun c' l => ?_, fun c' q => ?_, fun c' q h1 => ?_, fun c1 c2 q h1 h2 => ?_, h.thread,
    fun c' => ?_, h.running, h.resting, fun c' h1 q hq => ?_, h.claim, h.claim_once⟩
  · dsimp only [drop]
    by_cases hne : c' = c
    · subst hne
      rw [pc_none (s := { s with
        owner := _, cproc := _, sched := Function.update s.sched c' k }) hc, hc]
      dsimp only
      rw [Function.update_self, hwf.2.2]
      split_ifs with hl
      · simp
      · have h1 := h.own c' l
        rw [pc_none hc, hc, hk] at h1
        simp only [List.not_mem_nil, iff_false]
        intro h2
        exact hl (h1.mp h2)
    · have hpc : State.pc { s with
          owner := drop s.owner [.proc p], cproc := Function.update s.cproc c none,
          sched := Function.update s.sched c k } c' = s.pc c' := by
        unfold State.pc
        dsimp only
        rw [Function.update_of_ne hne]
      rw [show State.pc { s with
        owner := _, cproc := _, sched := Function.update s.sched c k } c' = s.pc c' from hpc,
        ← h.own]
      split_ifs with hl
      · rw [List.mem_singleton.mp hl, howner]
        simp [Ne.symm hne]
      · rfl
  · dsimp only
    by_cases hne : c' = c
    · subst hne
      rw [Function.update_self, Function.update_self]
      refine ⟨fun h1 => absurd h1 (by simp), ?_⟩
      rintro ⟨k', rfl⟩
      have := hwf.2.2
      simp [held] at this
    · rw [Function.update_of_ne hne, Function.update_of_ne hne]
      exact h.cproc c' q
  · have hne : c' ≠ c := by
      rintro rfl
      rw [hc] at h1
      cases h1
    dsimp only
    rw [Function.update_of_ne hne]
    exact h.cur c' q h1
  · exact h.once c1 c2 q (hcproc h1).2 (hcproc h2).2
  · dsimp only
    by_cases hne : c' = c
    · subst hne
      rw [Function.update_self]
      exact hwf.2.1
    · rw [Function.update_of_ne hne]
      exact h.sched c'
  · dsimp only at hq
    by_cases hne : c' = c
    · subst hne
      rw [Function.update_self, @cand_low none _ (low_of_eq hwf.2.2 low_nil)] at hq
      simp at hq
    · rw [Function.update_of_ne hne] at hq
      exact h.chosen c' h1 q hq

/-! ### Runs -/

/-- An interrupt is a move of the thread it interrupts. -/
lemma interrupt_moves (h : Inv s) (hl : held (s.cur c) (s.pc c) = []) (ch : Choice) :
    Moves (s.cur c) none s.sh (s.pc c) ⟨interrupt c ch (s.pc c), s.sh, [], none⟩ := by
  have hwf := h.wf c
  have hinner : ∀ pc', Wf (s.cur c) pc' → held (s.cur c) pc' = [] →
      (∀ np ∈ claims pc', np ∈ claims (s.pc c)) →
      Moves (s.cur c) none s.sh (s.pc c) ⟨pc', s.sh, [], none⟩ := fun pc' h1 h2 h3 =>
    Moves.inner (fun _ => rfl) h1 (low_of_eq hl low_nil) (h2.trans hl.symm) h3
  by_cases hu : s.pc c = .user
  · rw [hu] at hwf
    obtain ⟨i, hi⟩ := Option.isSome_iff_exists.mp hwf
    have hend : ∀ t, Wf (s.cur c) (usertrapEnd t) := fun t => hi ▸ wf_usertrapEnd i t
    cases ch
    case timer =>
      simp only [interrupt, if_pos hu]
      split_ifs
      · exact hinner _ ⟨hend true, rfl⟩ rfl (by simp [claims])
      · exact hinner _ (hend true) rfl (by simp)
    case device lk =>
      simp only [interrupt, if_pos hu]
      exact hinner _ ⟨hend false, rfl⟩ rfl (by simp [claims])
    all_goals exact hinner _ (h.wf c) hl fun _ h => h
  · cases ch
    case timer =>
      simp only [interrupt, if_neg hu]
      split_ifs
      · exact hinner _ ⟨⟨hwf, hl⟩, rfl⟩ rfl fun _ h => h
      · exact hinner _ ⟨hwf, hl⟩ rfl fun _ h => h
    case device lk =>
      simp only [interrupt, if_neg hu]
      exact hinner _ ⟨hwf, hl⟩ rfl fun _ h => h
    all_goals exact hinner _ hwf hl fun _ h => h

lemma setPc_eq (s : State N) (c : Fin N) (pc : Pc) :
    s.setPc c pc = moved s c none ⟨pc, s.sh, [], none⟩ := by
  have h1 : drop (take s.owner c none) [] = s.owner := by
    funext l
    simp [drop, take]
  unfold moved
  rw [h1]
  rfl

/-- **What a step is**: nothing, a move, or one of the steps around `swtch`. -/
inductive Stepped (b : Build) (s : State N) (c : Fin N) (ch : Choice) : State N → Prop
  | stays : Stepped b s c ch s
  | interrupted (hl : held (s.cur c) (s.pc c) = []) :
      Stepped b s c ch (moved s c none ⟨interrupt c ch (s.pc c), s.sh, [], none⟩)
  | moves (hw : Free s (want (s.cur c) (s.pc c))) (hs : ¬ Switches (s.pc c)) :
      Stepped b s c ch
        (moved s c (want (s.cur c) (s.pc c)) (code b (s.cur c) ch s.sh (s.pc c)))
  | leaves {i : Slot} {k : Pc} (hc : s.cur c = some i) (hk : s.thread i = .sched k) :
      Stepped b s c ch
        { s with cur := Function.update s.cur c none, thread := Function.update s.thread i k }
  | enters {p : Slot} {k : Pc} (hc : s.cur c = none) (hk : s.sched c = .swtchTo p k) :
      Stepped b s c ch { s with
        sh := s.sh.on p (picked b)
        cproc := Function.update s.cproc c (some p)
        cur := Function.update s.cur c (some p)
        sched := Function.update s.sched c (.switched p k) }
  | backs {p : Slot} {k : Pc} (hc : s.cur c = none) (hk : s.sched c = .switched p k) :
      Stepped b s c ch { s with
        owner := drop s.owner [.proc p]
        cproc := Function.update s.cproc c none
        sched := Function.update s.sched c k }

lemma held_switches (h : Wf me pc) (hs : Switches pc) : held me pc ≠ [] := by
  cases pc
  case sched k =>
    obtain ⟨i, rfl⟩ := Option.isSome_iff_exists.mp h.1
    simp [held, ownLock]
  all_goals simp_all [Switches, held]

lemma want_switches (hs : Switches pc) : want me pc = none := by
  cases pc <;> simp_all [Switches, want]

lemma step_stepped (h : Inv s) (b : Build) (c : Fin N) (ch : Choice) :
    Stepped b s c ch (step b s c ch) := by
  have hwf := h.wf c
  unfold step
  split_ifs with h1 h2
  · rw [setPc_eq]
    exact .interrupted h2
  · exact .stays
  · rcases hw : want (s.cur c) (s.pc c) with _ | l
    · have hfree : Free s (want (s.cur c) (s.pc c)) := fun l hl => by
        rw [hw] at hl
        cases hl
      dsimp only
      split
      · next i k hc hk =>
        rw [pc_some hc] at hk
        exact .leaves hc hk
      · next p k hc hk =>
        rw [pc_none hc] at hk
        exact .enters hc hk
      · next p k hc hk =>
        rw [pc_none hc] at hk
        exact .backs hc hk
      · next h3 h4 h5 =>
        refine .moves hfree fun hs => ?_
        rcases hc : s.cur c with _ | i
        · rw [hc] at hwf
          cases hpc : s.pc c <;> simp_all [Switches, Wf]
        · rw [hc] at hwf
          cases hpc : s.pc c <;> simp_all [Switches, Wf]
    · dsimp only
      split_ifs with hl
      · refine .moves (fun l' hl' => ?_) fun hs => ?_
        · rw [hw] at hl'
          cases hl'
          exact hl
        · rw [want_switches hs] at hw
          cases hw
      · exact .stays

lemma step_takes (b : Build) (hch : ch.isInterrupt = false) {l : Lock}
    (hw : want (s.cur c) (s.pc c) = some l) (hl : s.owner l = none) :
    step b s c ch = moved s c (some l) (code b (s.cur c) ch s.sh (s.pc c)) := by
  have hexec : exec b s c ch = moved s c (want (s.cur c) (s.pc c))
      (code b (s.cur c) ch s.sh (s.pc c)) := rfl
  unfold step
  rw [hw] at hexec ⊢
  rw [if_neg (by simp [hch])]
  dsimp only
  rw [if_pos hl, hexec]

/-- The step of one processor leaves the others where they are. -/
lemma step_other (h : Inv s) (b : Build) (hne : c' ≠ c) (ch : Choice) :
    (step b s c ch).cur c' = s.cur c' ∧ (step b s c ch).pc c' = s.pc c' := by
  have hstep := step_stepped h b c ch
  generalize step b s c ch = s' at hstep
  cases hstep with
  | stays => exact ⟨rfl, rfl⟩
  | interrupted hl => exact ⟨by rw [moved_cur], moved_pc_other h (interrupt_moves h hl ch) hne⟩
  | moves hw hs => exact ⟨by rw [moved_cur], moved_pc_other h (code_moves (h.wf c) hs) hne⟩
  | @leaves i k hc hk =>
    have hcur : Function.update s.cur c none c' = s.cur c' := Function.update_of_ne hne _ _
    refine ⟨hcur, ?_⟩
    rcases hc' : s.cur c' with _ | j
    · rw [pc_none hc', pc_none (hcur.trans hc')]
    · rw [pc_some hc', pc_some (hcur.trans hc')]
      refine Function.update_of_ne ?_ _ _
      rintro rfl
      exact hne (h.cur_once hc' hc)
  | @enters p k hc hk =>
    have hcur : Function.update s.cur c (some p) c' = s.cur c' := Function.update_of_ne hne _ _
    refine ⟨hcur, ?_⟩
    rcases hc' : s.cur c' with _ | j
    · rw [pc_none hc', pc_none (hcur.trans hc')]
      exact Function.update_of_ne hne _ _
    · rw [pc_some hc', pc_some (hcur.trans hc')]
  | @backs p k hc hk =>
    refine ⟨rfl, ?_⟩
    unfold State.pc
    dsimp only
    rw [Function.update_of_ne hne]

/-- **One step keeps the invariant.** -/
lemma step_inv (h : Inv s) (b : Build) (c : Fin N) (ch : Choice) : Inv (step b s c ch) := by
  have hstep := step_stepped h b c ch
  generalize step b s c ch = s' at hstep
  cases hstep with
  | stays => exact h
  | interrupted hl =>
    refine h.moved (interrupt_moves h hl ch) (fun l hl => absurd hl (by simp)) fun hs => ?_
    exact held_switches (h.wf c) hs hl
  | moves hw hs => exact h.moved (code_moves (h.wf c) hs) hw hs
  | leaves hc hk => exact h.leave hc hk
  | enters hc hk => exact h.enter b hc hk
  | backs hc hk => exact h.back hc hk

lemma run_inv (b : Build) (es : List (Fin N × Choice)) : ∀ {s : State N}, Inv s → Inv (run b s es) := by
  induction es with
  | nil => intro s h; exact h
  | cons e es ih => intro s h; exact ih (step_inv h b e.1 e.2)

lemma boot_inv (b : Build) (N : ℕ) : Inv (boot b N) := by
  have hsched : Wf none (scheduler b) ∧ held none (scheduler b) = [] ∧ cand (scheduler b) = [] ∧
      ∀ p k, scheduler b ≠ .switched p k := by
    cases b
    · exact ⟨rfl, rfl, rfl, by simp [scheduler]⟩
    · exact ⟨⟨rfl, by simp⟩, rfl, rfl, by simp [scheduler]⟩
  obtain ⟨hwf, hheld, hcand, hsw⟩ := hsched
  have hthread : ∀ i, (boot b N).thread i = forkret ∧ i = initproc ∨
      (boot b N).thread i = .exited ∧ i ≠ initproc := by
    intro i
    by_cases hi : i = initproc
    · subst hi
      exact Or.inl ⟨by simp [boot], rfl⟩
    · exact Or.inr ⟨by simp [boot, hi], hi⟩
  have hclaims : ∀ i, claims ((boot b N).thread i) = [] := by
    intro i
    rcases hthread i with ⟨h1, -⟩ | ⟨h1, -⟩ <;> rw [h1] <;> rfl
  refine ⟨fun c l => ?_, fun c p => ?_, fun c p h => ?_, fun c c' p h => ?_, fun i => ?_,
    fun _ => hwf, fun c p h => ?_, fun p _ => ?_, fun c _ p hp => ?_, fun i np hnp => ?_,
    fun i j np hnp => ?_⟩
  · rw [pc_none (s := boot b N) rfl]
    change none = some c ↔ l ∈ held none (scheduler b)
    rw [hheld]
    simp
  · change none = some p ↔ ∃ k, scheduler b = .switched p k
    simp [hsw]
  · cases h
  · cases h
  · rcases hthread i with ⟨h1, -⟩ | ⟨h1, -⟩ <;> rw [h1]
    · exact ⟨rfl, rfl, rfl⟩
    · rfl
  · cases h
  · rcases hthread p with ⟨h1, rfl⟩ | ⟨h1, hne⟩
    · rw [h1]
      simp [boot, Rests, Resumes, forkret]
    · simp [boot, hne, zeroProc, Rests]
  · change p ∈ cand (scheduler b) at hp
    rw [hcand] at hp
    simp at hp
  · rw [hclaims] at hnp
    simp at hnp
  · rw [hclaims] at hnp
    simp at hnp

/-- **The invariant holds in every reachable state.** -/
lemma reachable_inv (b : Build) (N : ℕ) (es : List (Fin N × Choice)) : Inv (run b (boot b N) es) :=
  run_inv b es (boot_inv b N)

/-! ### One processor for a process -/

/-- **No process runs on two processors.** For either scheduler, any number of processors and any
interleaving: a process is `c->proc` of at most one processor, a running process whose lock is free
is `c->proc` of exactly one, and a process a scheduler is about to switch to is runnable, at a point
where it was switched out, and no processor executes its thread. -/
theorem process_on_one_cpu (b : Build) (N : ℕ) (es : List (Fin N × Choice)) :
    let s := run b (boot b N) es
    (∀ c c' p, s.cproc c = some p → s.cproc c' = some p → c = c') ∧
    (∀ p, (s.sh.proc p).state = .RUNNING → s.owner (.proc p) = none → ∃! c, s.cproc c = some p) ∧
    ∀ c p k, s.cur c = none → s.sched c = .swtchTo p k →
      (s.sh.proc p).state = .RUNNABLE ∧ Resumes (s.thread p) ∧ ∀ c', s.cur c' ≠ some p := by
  intro s
  have h : Inv s := reachable_inv b N es
  refine ⟨h.once, fun p hrun _ => ?_, fun c p k hc hk => ?_⟩
  · have hon : ∃ c, s.cur c = some p := by
      by_contra hno
      push Not at hno
      have hrest := h.resting p hno
      rw [hrun] at hrest
      exact hrest
    obtain ⟨c, hc⟩ := hon
    exact ⟨c, h.cur c p hc, fun c' hc' => h.once c' c p hc' (h.cur c p hc)⟩
  · obtain ⟨h1, h2, h3⟩ := h.picks hc hk
    exact ⟨h1, h3, fun c' hc' => h2 c' (h.cur c' p hc')⟩

/-! ### No deadlock -/

/-- Processor `c` spins on a lock that processor `c'` holds. -/
def SpinsOn (s : State N) (c c' : Fin N) : Prop :=
  ∃ l, want (s.cur c) (s.pc c) = some l ∧ s.owner l = some c'

lemma spins_up (h : Inv s) {c c' : Fin N} (hc : Relation.TransGen (SpinsOn s) c c') :
    ∃ l l', want (s.cur c) (s.pc c) = some l ∧ s.owner l' = some c' ∧ rank l ≤ rank l' := by
  induction hc with
  | single h1 =>
    obtain ⟨l, h2, h3⟩ := h1
    exact ⟨l, l, h2, h3, le_rfl⟩
  | tail _ h1 ih =>
    obtain ⟨l, l', h2, h3, h4⟩ := ih
    obtain ⟨l'', h5, h6⟩ := h1
    have h7 := rank_lt (h.wf _) h5 ((h.own _ l').mp h3)
    exact ⟨l, l'', h2, h6, by omega⟩

/-- **The scheduler cannot deadlock**: no processors spin in a circle, on process locks, `wait_lock`,
`tickslock` or the other locks under which processes sleep, whatever they execute. -/
theorem no_deadlock (b : Build) (N : ℕ) (es : List (Fin N × Choice)) (c : Fin N) :
    ¬ Relation.TransGen (SpinsOn (run b (boot b N) es)) c c := by
  intro hcycle
  have h := reachable_inv b N es
  obtain ⟨l, l', h1, h2, h3⟩ := spins_up h hcycle
  have h4 := rank_lt (h.wf c) h1 ((h.own c l').mp h2)
  omega

end Xv6.SmpInv
