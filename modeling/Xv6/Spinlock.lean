import Xv6.Runs
import Mathlib.Logic.Function.Basic
import Mathlib.Data.Int.Order.Basic
import Mathlib.Tactic.Common

/-!
Spinlocks (`spinlock.c`) at the granularity of single accesses to shared memory: any cores and
locks, interrupts wherever a core has them on, and handlers that take locks themselves.

`push_off` reads the interrupt enable and clears it in two steps, `holding` reads two words of the
lock, and `acquire` and `release` write them one after the other. What only the core itself can
see once its interrupts are off is one step.
-/

namespace Xv6.Spinlock

open Xv6.Runs

variable {C L : Type} [DecidableEq C] [DecidableEq L]

structure Lock (C : Type) where
  locked : Bool
  cpu : Option C

/-- Where a core is in the code of locks. -/
inductive Pc (L : Type)
  | client
  /-- `push_off`, alone or in `acquire` of a lock. -/
  | push_off (k : Option L)
  | intr_off (old : Bool) (k : Option L)
  /-- `holding` in `acquire`, before its two reads. -/
  | holding (lk : L)
  | holdingCpu (lk : L)
  /-- The loop of `acquire`. -/
  | swap (lk : L)
  /-- `acquire` about to set `lk->cpu`. -/
  | record (lk : L)
  /-- `holding` in `release`, before its two reads. -/
  | release (lk : L)
  | releaseCpu (lk : L)
  /-- `release` about to clear `lk->cpu`, and to clear `lk->locked`. -/
  | clear (lk : L)
  | unlock (lk : L)
  | pop_off
  | panicAcquire (lk : L)
  | panicRelease (lk : L)
  | panicPop
  deriving DecidableEq

/-- A core; `sie` is its interrupt enable and `stack` where its interrupted code is. As history,
the locks it took, the calls of `push_off` by itself that are open, and how its code last set the
interrupt enable. -/
structure Cpu (L : Type) where
  sie : Bool
  noff : ℤ
  intena : Bool
  pc : Pc L
  stack : List (Pc L)
  held : List L
  offs : ℕ
  was : Bool

structure State (C L : Type) where
  lock : L → Lock C
  cpu : C → Cpu L

def State.setCpu (s : State C L) (c : C) (x : Cpu L) : State C L :=
  { s with cpu := Function.update s.cpu c x }

def State.setLock (s : State C L) (lk : L) (y : Lock C) : State C L :=
  { s with lock := Function.update s.lock lk y }

inductive Act (L : Type)
  /-- The next step of the code of locks. -/
  | go
  | acquire (lk : L)
  | release (lk : L)
  | push_off
  | pop_off
  | intr_on
  | intr_off
  | interrupt
  /-- The return of an interrupt handler. -/
  | sret
  /-- `sched`: the core goes on with another thread, which saved `intena`. -/
  | sched (intena : Bool)

/-- The end of `push_off`, from its `intr_off` on. -/
def Cpu.off (x : Cpu L) (old : Bool) (k : Option L) : Cpu L :=
  { x with
    sie := false
    intena := if x.noff = 0 then old else x.intena
    noff := x.noff + 1
    offs := if k = none then x.offs + 1 else x.offs
    pc := match k with
      | none => .client
      | some lk => .holding lk }

def Cpu.pop (x : Cpu L) : Cpu L :=
  if x.sie then { x with pc := .panicPop }
  else if x.noff < 1 then { x with pc := .panicPop }
  else { x with
    noff := x.noff - 1
    sie := if x.noff - 1 = 0 ∧ x.intena then true else x.sie
    pc := .client }

def go (s : State C L) (c : C) : State C L :=
  let x := s.cpu c
  match x.pc with
  | .client => s
  | .push_off k => s.setCpu c { x with pc := .intr_off x.sie k }
  | .intr_off old k => s.setCpu c (x.off old k)
  | .holding lk =>
    s.setCpu c { x with pc := if (s.lock lk).locked then .holdingCpu lk else .swap lk }
  | .holdingCpu lk =>
    s.setCpu c { x with pc := if (s.lock lk).cpu = some c then .panicAcquire lk else .swap lk }
  | .swap lk =>
    if (s.lock lk).locked then s
    else (s.setLock lk { s.lock lk with locked := true }).setCpu c
      { x with pc := .record lk, held := lk :: x.held }
  | .record lk =>
    (s.setLock lk { s.lock lk with cpu := some c }).setCpu c { x with pc := .client }
  | .release lk =>
    s.setCpu c { x with pc := if (s.lock lk).locked then .releaseCpu lk else .panicRelease lk }
  | .releaseCpu lk =>
    s.setCpu c { x with pc := if (s.lock lk).cpu = some c then .clear lk else .panicRelease lk }
  | .clear lk => (s.setLock lk { s.lock lk with cpu := none }).setCpu c { x with pc := .unlock lk }
  | .unlock lk =>
    (s.setLock lk { s.lock lk with locked := false }).setCpu c
      { x with pc := .pop_off, held := x.held.erase lk }
  | .pop_off => s.setCpu c x.pop
  | .panicAcquire _ | .panicRelease _ | .panicPop => s

/-- What the client of a core calls, and an interrupt. -/
def Cpu.call (x : Cpu L) : Act L → Cpu L
  | .go => x
  | .acquire lk => if x.pc = .client then { x with pc := .push_off (some lk) } else x
  | .release lk => if x.pc = .client then { x with pc := .release lk } else x
  | .push_off => if x.pc = .client then { x with pc := .push_off none } else x
  | .pop_off => if x.pc = .client then { x with pc := .pop_off, offs := x.offs - 1 } else x
  | .intr_on => if x.pc = .client then { x with sie := true, was := true } else x
  | .intr_off => if x.pc = .client then { x with sie := false, was := false } else x
  | .interrupt =>
    if x.sie then { x with sie := false, was := false, pc := .client, stack := x.pc :: x.stack }
    else x
  | .sret =>
    match x.stack with
    | [] => x
    | pc :: stack =>
      if x.pc = .client then { x with sie := true, was := true, pc := pc, stack := stack } else x
  | .sched intena => if x.pc = .client then { x with intena := intena, was := intena } else x

def step (s : State C L) (e : C × Act L) : State C L :=
  match e.2 with
  | .go => go s e.1
  | a => s.setCpu e.1 ((s.cpu e.1).call a)

/-- No lock held and no `push_off` open. -/
def Cpu.Free (x : Cpu L) : Prop := x.held = [] ∧ x.offs = 0

instance (x : Cpu L) : Decidable x.Free := inferInstanceAs (Decidable (_ ∧ _))

/-- Calls of `pop_off` match calls of `push_off`, and interrupts are not switched by hand, and a
handler does not return, while either keeps them off; `sched` checks that one lock is held. -/
def Cpu.Allows (x : Cpu L) : Act L → Prop
  | .pop_off => 0 < x.offs
  | .intr_on | .intr_off | .sret => x.Free
  | .sched _ => x.noff = 1
  | .go | .acquire _ | .release _ | .push_off | .interrupt => True

instance (x : Cpu L) : DecidablePred x.Allows
  | .pop_off => inferInstanceAs (Decidable (0 < x.offs))
  | .intr_on | .intr_off | .sret => inferInstanceAs (Decidable x.Free)
  | .sched _ => inferInstanceAs (Decidable (x.noff = 1))
  | .go | .acquire _ | .release _ | .push_off | .interrupt => isTrue trivial

def Ok (s : State C L) (e : C × Act L) : Prop := (s.cpu e.1).Allows e.2

instance (s : State C L) (e : C × Act L) : Decidable (Ok s e) :=
  inferInstanceAs (Decidable ((s.cpu e.1).Allows e.2))

/-- At boot. -/
def init : State C L :=
  ⟨fun _ => ⟨false, none⟩, fun _ => ⟨false, 0, false, .client, [], [], 0, false⟩⟩

/-! ### The invariant -/

/-- The levels of `noff` that are neither for a lock held nor for an open `push_off`. -/
def Pc.extra : Pc L → ℤ
  | .holding _ | .holdingCpu _ | .swap _ | .panicAcquire _ | .pop_off | .panicPop => 1
  | _ => 0

/-- The core holds the lock, but `lk->cpu` does not say so. -/
def Pc.Marks (pc : Pc L) (lk : L) : Prop := pc = .record lk ∨ pc = .unlock lk

def PcOk (held : List L) (noff : ℤ) (sie was : Bool) : Pc L → Prop
  | .client | .push_off _ | .release _ | .releaseCpu _ => noff = 0 → sie = was
  | .intr_off old _ => noff = 0 → sie = was ∧ old = was
  | .swap lk | .panicRelease lk => lk ∉ held
  | .record lk | .clear lk | .unlock lk | .panicAcquire lk => lk ∈ held
  | .panicPop => False
  | .holding _ | .holdingCpu _ | .pop_off => True

structure CpuOk (x : Cpu L) : Prop where
  noff : x.noff = x.held.length + x.offs + x.pc.extra
  nodup : x.held.Nodup
  sie : x.sie = true → x.noff = 0
  intena : 0 < x.noff → x.intena = x.was
  pc : PcOk x.held x.noff x.sie x.was x.pc
  stack : ∀ pc ∈ x.stack, pc.extra = 0 ∧ PcOk [] 0 true true pc

structure LockOk (s : State C L) (lk : L) : Prop where
  locked : (s.lock lk).locked = true ↔ ∃ c, lk ∈ (s.cpu c).held
  owner : ∀ c c', lk ∈ (s.cpu c).held → lk ∈ (s.cpu c').held → c = c'
  cpu : ∀ c, (s.lock lk).cpu = some c ↔ lk ∈ (s.cpu c).held ∧ ¬(s.cpu c).pc.Marks lk

structure Inv (s : State C L) : Prop where
  lock : ∀ lk, LockOk s lk
  cpu : ∀ c, CpuOk (s.cpu c)

variable {s : State C L} {c : C} {lk : L} {x : Cpu L}

section

omit [DecidableEq C] [DecidableEq L]

lemma Pc.extra_nonneg (pc : Pc L) : 0 ≤ pc.extra := by cases pc <;> simp [Pc.extra]

lemma CpuOk.free (h : CpuOk x) (hx : x.noff = 0) : x.Free ∧ x.pc.extra = 0 := by
  have h1 := h.noff
  have h2 := x.pc.extra_nonneg
  have h3 : x.held.length = 0 := by omega
  exact ⟨⟨List.length_eq_zero_iff.mp h3, by omega⟩, by omega⟩

lemma CpuOk.noff_eq (h : CpuOk x) (hf : x.Free) (hpc : x.pc.extra = 0) : x.noff = 0 := by
  rw [h.noff, hf.1, hf.2, hpc]
  rfl

lemma CpuOk.nonneg (h : CpuOk x) : 0 ≤ x.noff := by
  have h1 := h.noff
  have h2 := x.pc.extra_nonneg
  omega

lemma CpuOk.interrupted (h : CpuOk x) (hx : x.sie = true) :
    x.pc.extra = 0 ∧ PcOk [] 0 true true x.pc := by
  have h0 := h.sie hx
  obtain ⟨⟨h1, -⟩, h2⟩ := h.free h0
  have h3 := h.pc
  rw [h1, h0, hx] at h3
  refine ⟨h2, ?_⟩
  cases hp : x.pc with
  | intr_off old k =>
    rw [hp] at h3
    obtain ⟨h4, h5⟩ := h3 rfl
    exact fun _ => ⟨rfl, h5.trans h4.symm⟩
  | client | push_off | release | releaseCpu => exact fun _ => rfl
  | swap | panicRelease => exact List.not_mem_nil
  | record | clear | unlock | panicAcquire | panicPop =>
    rw [hp] at h3
    exact absurd h3 (by simp [PcOk])
  | holding | holdingCpu | pop_off => trivial

lemma CpuOk.goto (h : CpuOk x) {pc : Pc L} (he : pc.extra = x.pc.extra)
    (hpc : PcOk x.held x.noff x.sie x.was pc) : CpuOk { x with pc := pc } where
  noff := by rw [he]; exact h.noff
  nodup := h.nodup
  sie := h.sie
  intena := h.intena
  pc := hpc
  stack := h.stack

lemma LockOk.congr {s' : State C L} (h : LockOk s lk) (hl : s'.lock lk = s.lock lk)
    (hh : ∀ c, lk ∈ (s'.cpu c).held ↔ lk ∈ (s.cpu c).held)
    (hm : ∀ c, (s'.cpu c).pc.Marks lk ↔ (s.cpu c).pc.Marks lk) : LockOk s' lk where
  locked := by simp only [hl, hh]; exact h.locked
  owner c c' h1 h2 := h.owner c c' ((hh c).mp h1) ((hh c').mp h2)
  cpu c := by rw [hl, hh, hm]; exact h.cpu c

lemma LockOk.of_held (hl : (s.lock lk).locked = true)
    (hh : ∀ c', lk ∈ (s.cpu c').held ↔ c' = c)
    (hc : ∀ c', (s.lock lk).cpu = some c' ↔ c' = c ∧ ¬(s.cpu c).pc.Marks lk) : LockOk s lk where
  locked := iff_of_true hl ⟨c, (hh c).mpr rfl⟩
  owner c1 c2 h1 h2 := ((hh c1).mp h1).trans ((hh c2).mp h2).symm
  cpu c' := by
    rw [hc, hh]
    exact and_congr_right fun h => by rw [h]

lemma LockOk.of_free (hl : (s.lock lk).locked = false) (hh : ∀ c', lk ∉ (s.cpu c').held)
    (hc : ∀ c', (s.lock lk).cpu ≠ some c') : LockOk s lk where
  locked := iff_of_false (by simp [hl]) fun ⟨c, h⟩ => hh c h
  owner c _ h := absurd h (hh c)
  cpu c := iff_of_false (hc c) fun h => hh c h.1

lemma Inv.holder (h : Inv s) (hc : lk ∈ (s.cpu c).held) (c' : C) :
    lk ∈ (s.cpu c').held ↔ c' = c :=
  ⟨fun h1 => (h.lock lk).owner c' c h1 hc, fun h1 => h1 ▸ hc⟩

lemma Inv.locked (h : Inv s) (hc : lk ∈ (s.cpu c).held) : (s.lock lk).locked = true :=
  (h.lock lk).locked.mpr ⟨c, hc⟩

lemma Inv.free (h : Inv s) (hl : (s.lock lk).locked = false) (c : C) : lk ∉ (s.cpu c).held :=
  fun h1 => Bool.false_ne_true (hl.symm.trans (h.locked h1))

lemma Inv.cpu_ne (h : Inv s) (hc : lk ∈ (s.cpu c).held) (hm : (s.cpu c).pc.Marks lk) (c' : C) :
    (s.lock lk).cpu ≠ some c' := by
  intro h1
  obtain ⟨h2, h3⟩ := ((h.lock lk).cpu c').mp h1
  obtain rfl := (h.holder hc c').mp h2
  exact h3 hm

lemma CpuOk.off {old : Bool} {k : Option L} (h : CpuOk x) (hpc : x.pc = .intr_off old k) :
    CpuOk (x.off old k) := by
  have hn := h.noff
  have hp := h.pc
  have h0 := h.nonneg
  rw [hpc] at hn hp
  have hi : 0 < x.noff + 1 → (if x.noff = 0 then old else x.intena) = x.was := by
    intro _
    by_cases hz : x.noff = 0
    · rw [if_pos hz]
      exact (hp hz).2
    · rw [if_neg hz]
      exact h.intena (by omega)
  cases k with
  | none =>
    refine ⟨?_, h.nodup, fun h1 => absurd h1 Bool.false_ne_true, hi, fun h1 => ?_, h.stack⟩
    · simp only [Pc.extra, Cpu.off, if_true] at hn ⊢
      push_cast
      omega
    · change x.noff + 1 = 0 at h1
      omega
  | some lk =>
    refine ⟨?_, h.nodup, fun h1 => absurd h1 Bool.false_ne_true, hi, trivial, h.stack⟩
    simp only [Pc.extra, Cpu.off, reduceCtorEq, if_false] at hn ⊢
    omega

/-- `pop_off` finds interrupts off and a level to take back, and switches interrupts on only at
the last one, if they were. -/
lemma CpuOk.pop (h : CpuOk x) (hpc : x.pc = .pop_off) : CpuOk x.pop ∧ x.pop.pc = .client := by
  have hn := h.noff
  rw [hpc] at hn
  have h1 : 1 ≤ x.noff := by
    simp only [Pc.extra] at hn
    omega
  have hs : x.sie = false := by
    by_contra h2
    have := h.sie (by simpa using h2)
    omega
  have hi := h.intena (by omega)
  have hpop : x.pop = { x with
      noff := x.noff - 1
      sie := if x.noff - 1 = 0 ∧ x.intena then true else x.sie
      pc := .client } := by
    rw [Cpu.pop, hs, if_neg (by decide), if_neg (by omega)]
  rw [hpop]
  refine ⟨⟨?_, h.nodup, fun h2 => ?_, fun _ => hi, fun h2 => ?_, h.stack⟩, rfl⟩
  · simp only [Pc.extra] at hn ⊢
    omega
  · by_contra h3
    simp [h3, hs] at h2
  · change (if x.noff - 1 = 0 ∧ x.intena = true then true else x.sie) = x.was
    change x.noff - 1 = 0 at h2
    rw [← hi, hs]
    cases x.intena <;> simp [h2]

lemma CpuOk.mem_of_marks (h : CpuOk x) (hm : x.pc.Marks lk) : lk ∈ x.held := by
  have hp := h.pc
  rcases hm with hm | hm <;> (rw [hm] at hp; exact hp)

end

omit [DecidableEq L] in
@[simp] lemma cpu_setCpu (s : State C L) (c c' : C) (x : Cpu L) :
    (s.setCpu c x).cpu c' = if c' = c then x else s.cpu c' := Function.update_apply ..

omit [DecidableEq L] in
@[simp] lemma lock_setCpu (s : State C L) (c : C) (x : Cpu L) : (s.setCpu c x).lock = s.lock := rfl

omit [DecidableEq C] in
@[simp] lemma cpu_setLock (s : State C L) (lk : L) (y : Lock C) : (s.setLock lk y).cpu = s.cpu := rfl

omit [DecidableEq L] in
lemma Inv.setCpu (h : Inv s) (hh : x.held = (s.cpu c).held)
    (hm : ∀ lk, x.pc.Marks lk ↔ (s.cpu c).pc.Marks lk) (hx : CpuOk x) : Inv (s.setCpu c x) where
  lock lk := by
    refine (h.lock lk).congr rfl (fun c' => ?_) fun c' => ?_
    · by_cases hc : c' = c
      · simp [hc, hh]
      · simp [hc]
    · by_cases hc : c' = c
      · simp [hc, hm]
      · simp [hc]
  cpu c' := by
    by_cases hc : c' = c
    · simpa [hc] using hx
    · simpa [hc] using h.cpu c'

lemma Inv.setLock {y : Lock C} (h : Inv s) (hx : CpuOk x)
    (hl : LockOk ((s.setLock lk y).setCpu c x) lk)
    (hh : ∀ lk', lk' ≠ lk → (lk' ∈ x.held ↔ lk' ∈ (s.cpu c).held))
    (hm : ∀ lk', lk' ≠ lk → (x.pc.Marks lk' ↔ (s.cpu c).pc.Marks lk')) :
    Inv ((s.setLock lk y).setCpu c x) where
  lock lk' := by
    by_cases hlk : lk' = lk
    · rw [hlk]
      exact hl
    · refine (h.lock lk').congr (Function.update_of_ne hlk _ _) (fun c' => ?_) fun c' => ?_
      · by_cases hc : c' = c
        · simp [hc, hh lk' hlk]
        · simp [hc]
      · by_cases hc : c' = c
        · simp [hc, hm lk' hlk]
        · simp [hc]
  cpu c' := by
    by_cases hc : c' = c
    · simpa [hc] using hx
    · simpa [hc] using h.cpu c'

omit [DecidableEq C] in
@[simp] lemma lock_setLock (s : State C L) (lk : L) (y : Lock C) :
    (s.setLock lk y).lock lk = y := Function.update_self ..

lemma Inv.swap (h : Inv s) (hpc : (s.cpu c).pc = .swap lk) (hl : (s.lock lk).locked = false) :
    Inv ((s.setLock lk { s.lock lk with locked := true }).setCpu c
      { s.cpu c with pc := .record lk, held := lk :: (s.cpu c).held }) := by
  have hx := h.cpu c
  have hno := h.free hl
  have hn := hx.noff
  rw [hpc] at hn
  refine h.setLock ⟨?_, List.nodup_cons.mpr ⟨hno c, hx.nodup⟩, hx.sie, hx.intena,
    List.mem_cons_self .., hx.stack⟩ (LockOk.of_held (c := c) (by simp) ?_ ?_) ?_ ?_
  · simp only [Pc.extra, List.length_cons] at hn ⊢
    omega
  · intro c'
    by_cases hc : c' = c
    · simp [hc]
    · simp [hc, hno]
  · intro c'
    refine iff_of_false (fun h1 => ?_) (by simp [Pc.Marks])
    simp only [lock_setCpu, lock_setLock] at h1
    exact hno c' (((h.lock lk).cpu c').mp h1).1
  · intro lk' hlk
    simp [hlk]
  · intro lk' hlk
    simp [hpc, Pc.Marks, Ne.symm hlk]

lemma Inv.record (h : Inv s) (hpc : (s.cpu c).pc = .record lk) :
    Inv ((s.setLock lk { s.lock lk with cpu := some c }).setCpu c
      { s.cpu c with pc := .client }) := by
  have hx := h.cpu c
  have hmem : lk ∈ (s.cpu c).held := by
    have := hx.pc
    rwa [hpc] at this
  have hn := hx.noff
  rw [hpc] at hn
  have hlen := List.length_pos_of_mem hmem
  refine h.setLock (hx.goto (by rw [hpc]; rfl) fun h0 => ?_)
    (LockOk.of_held (c := c) (by simpa using h.locked hmem) (fun c' => ?_) fun c' => ?_)
    (fun _ _ => Iff.rfl) fun lk' hlk => ?_
  · simp only [Pc.extra] at hn
    omega
  · by_cases hc : c' = c
    · simpa [hc] using hmem
    · simpa [hc] using h.holder hmem c'
  · simp [Pc.Marks, eq_comm]
  · simp [hpc, Pc.Marks, Ne.symm hlk]

lemma Inv.clear (h : Inv s) (hpc : (s.cpu c).pc = .clear lk) :
    Inv ((s.setLock lk { s.lock lk with cpu := none }).setCpu c
      { s.cpu c with pc := .unlock lk }) := by
  have hx := h.cpu c
  have hmem : lk ∈ (s.cpu c).held := by
    have := hx.pc
    rwa [hpc] at this
  refine h.setLock (hx.goto (by rw [hpc]; rfl) hmem)
    (LockOk.of_held (c := c) (by simpa using h.locked hmem) (fun c' => ?_) fun c' => ?_)
    (fun _ _ => Iff.rfl) fun lk' hlk => ?_
  · by_cases hc : c' = c
    · simpa [hc] using hmem
    · simpa [hc] using h.holder hmem c'
  · simp [Pc.Marks]
  · simp [hpc, Pc.Marks, Ne.symm hlk]

lemma Inv.unlock (h : Inv s) (hpc : (s.cpu c).pc = .unlock lk) :
    Inv ((s.setLock lk { s.lock lk with locked := false }).setCpu c
      { s.cpu c with pc := .pop_off, held := (s.cpu c).held.erase lk }) := by
  have hx := h.cpu c
  have hmem : lk ∈ (s.cpu c).held := by
    have := hx.pc
    rwa [hpc] at this
  have hn := hx.noff
  rw [hpc] at hn
  have hlen := List.length_erase_of_mem hmem
  have hpos := List.length_pos_of_mem hmem
  refine h.setLock ⟨?_, hx.nodup.erase lk, hx.sie, hx.intena, trivial, hx.stack⟩
    (LockOk.of_free (by simp) (fun c' => ?_) fun c' => ?_) (fun lk' hlk => ?_) fun lk' hlk => ?_
  · simp only [Pc.extra, hlen] at hn ⊢
    omega
  · by_cases hc : c' = c
    · simpa [hc] using hx.nodup.not_mem_erase
    · simpa [hc] using fun h1 => hc ((h.holder hmem c').mp h1)
  · simpa using h.cpu_ne hmem (Or.inr hpc) c'
  · exact List.mem_erase_of_ne hlk
  · simp [hpc, Pc.Marks, Ne.symm hlk]

omit [DecidableEq L] in
lemma Inv.goto (h : Inv s) {pc : Pc L} (he : pc.extra = (s.cpu c).pc.extra)
    (hm : ∀ lk, pc.Marks lk ↔ (s.cpu c).pc.Marks lk)
    (hpc : PcOk (s.cpu c).held (s.cpu c).noff (s.cpu c).sie (s.cpu c).was pc) :
    Inv (s.setCpu c { s.cpu c with pc := pc }) :=
  h.setCpu rfl hm ((h.cpu c).goto he hpc)

lemma Inv.go (h : Inv s) (c : C) : Inv (go s c) := by
  have hx := h.cpu c
  have hp := hx.pc
  unfold Spinlock.go
  dsimp only
  cases hpc : (s.cpu c).pc with
  | client | panicAcquire | panicRelease | panicPop => exact h
  | push_off k =>
    rw [hpc] at hp
    exact h.goto (by rw [hpc]; rfl) (by simp [hpc, Pc.Marks]) fun h0 => ⟨hp h0, hp h0⟩
  | intr_off old k =>
    refine h.setCpu rfl (fun lk => ?_) (hx.off hpc)
    cases k <;> simp [hpc, Pc.Marks, Cpu.off]
  | holding lk =>
    dsimp only
    by_cases hl : (s.lock lk).locked = true
    · rw [if_pos hl]
      exact h.goto (by rw [hpc]; rfl) (by simp [hpc, Pc.Marks]) trivial
    · rw [if_neg hl]
      exact h.goto (by rw [hpc]; rfl) (by simp [hpc, Pc.Marks]) (h.free (by simpa using hl) c)
  | holdingCpu lk =>
    dsimp only
    by_cases hl : (s.lock lk).cpu = some c
    · rw [if_pos hl]
      exact h.goto (by rw [hpc]; rfl) (by simp [hpc, Pc.Marks]) (((h.lock lk).cpu c).mp hl).1
    · rw [if_neg hl]
      refine h.goto (by rw [hpc]; rfl) (by simp [hpc, Pc.Marks]) fun h1 => hl ?_
      exact ((h.lock lk).cpu c).mpr ⟨h1, by simp [hpc, Pc.Marks]⟩
  | swap lk =>
    dsimp only
    by_cases hl : (s.lock lk).locked = true
    · rw [if_pos hl]
      exact h
    · rw [if_neg hl]
      exact h.swap hpc (by simpa using hl)
  | record lk => exact h.record hpc
  | release lk =>
    rw [hpc] at hp
    dsimp only
    by_cases hl : (s.lock lk).locked = true
    · rw [if_pos hl]
      exact h.goto (by rw [hpc]; rfl) (by simp [hpc, Pc.Marks]) hp
    · rw [if_neg hl]
      exact h.goto (by rw [hpc]; rfl) (by simp [hpc, Pc.Marks]) (h.free (by simpa using hl) c)
  | releaseCpu lk =>
    dsimp only
    by_cases hl : (s.lock lk).cpu = some c
    · rw [if_pos hl]
      exact h.goto (by rw [hpc]; rfl) (by simp [hpc, Pc.Marks]) (((h.lock lk).cpu c).mp hl).1
    · rw [if_neg hl]
      refine h.goto (by rw [hpc]; rfl) (by simp [hpc, Pc.Marks]) fun h1 => hl ?_
      exact ((h.lock lk).cpu c).mpr ⟨h1, by simp [hpc, Pc.Marks]⟩
  | clear lk => exact h.clear hpc
  | unlock lk => exact h.unlock hpc
  | pop_off =>
    obtain ⟨h1, h2⟩ := hx.pop hpc
    refine h.setCpu ?_ (fun lk => ?_) h1
    · rw [Cpu.pop]
      split_ifs <;> rfl
    · simp [hpc, h2, Pc.Marks]

/-- A call of the client or an interrupt keeps what holds of the core, and its locks. -/
lemma CpuOk.call (h : CpuOk x) {a : Act L} (ha : x.Allows a) :
    CpuOk (x.call a) ∧ (x.call a).held = x.held ∧
      ∀ lk, (x.call a).pc.Marks lk ↔ x.pc.Marks lk := by
  have hn := h.noff
  have hp := h.pc
  have same : CpuOk x ∧ x.held = x.held ∧ ∀ lk, x.pc.Marks lk ↔ x.pc.Marks lk :=
    ⟨h, rfl, fun _ => Iff.rfl⟩
  -- where the step ends with interrupts on nothing is held
  have unmarked {y : Cpu L} (hy : CpuOk y) (h1 : y.held = x.held) (h2 : x.held = []) (lk : L) :
      y.pc.Marks lk ↔ x.pc.Marks lk := by
    refine iff_of_false (fun h3 => ?_) fun h3 => ?_
    · have := hy.mem_of_marks h3
      simp [h1, h2] at this
    · have := h.mem_of_marks h3
      simp [h2] at this
  cases a with
  | go => exact same
  | acquire lk | release lk | push_off =>
    by_cases hc : x.pc = .client
    · rw [hc] at hp
      rw [Cpu.call, if_pos hc]
      exact ⟨h.goto (by rw [hc]; rfl) hp, rfl, by simp [hc, Pc.Marks]⟩
    · rw [Cpu.call, if_neg hc]
      exact same
  | pop_off =>
    have ho : 0 < x.offs := ha
    by_cases hc : x.pc = .client
    · rw [hc] at hn
      rw [Cpu.call, if_pos hc]
      refine ⟨⟨?_, h.nodup, h.sie, h.intena, trivial, h.stack⟩, rfl, by simp [hc, Pc.Marks]⟩
      simp only [Pc.extra] at hn ⊢
      omega
    · rw [Cpu.call, if_neg hc]
      exact same
  | intr_on | intr_off =>
    by_cases hc : x.pc = .client
    · have h0 := h.noff_eq ha (by rw [hc]; rfl)
      have hp' : ¬0 < x.noff := by omega
      rw [Cpu.call, if_pos hc]
      refine ⟨⟨h.noff, h.nodup, fun _ => h0, fun h1 => absurd h1 hp', ?_, h.stack⟩, rfl,
        fun _ => Iff.rfl⟩
      simp only [hc]
      exact fun _ => rfl
    · rw [Cpu.call, if_neg hc]
      exact same
  | sched intena =>
    have h1 : x.noff = 1 := ha
    by_cases hc : x.pc = .client
    · rw [Cpu.call, if_pos hc]
      refine ⟨⟨h.noff, h.nodup, h.sie, fun _ => rfl, ?_, h.stack⟩, rfl, fun _ => Iff.rfl⟩
      simp only [hc]
      exact fun h0 => absurd (h1.symm.trans h0) (by decide)
    · rw [Cpu.call, if_neg hc]
      exact same
  | interrupt =>
    by_cases hs : x.sie = true
    · have h0 := h.sie hs
      obtain ⟨hf, he⟩ := h.free h0
      have hp' : ¬0 < x.noff := by omega
      rw [Cpu.call, if_pos hs]
      have hy : CpuOk { x with
          sie := false, was := false, pc := .client, stack := x.pc :: x.stack } := by
        refine ⟨?_, h.nodup, fun _ => h0, fun h1 => absurd h1 hp', fun _ => rfl, fun pc hpc => ?_⟩
        · rw [he] at hn
          exact hn
        · rcases List.mem_cons.mp hpc with rfl | hpc
          · exact h.interrupted hs
          · exact h.stack pc hpc
      exact ⟨hy, rfl, unmarked hy rfl hf.1⟩
    · rw [Cpu.call, if_neg hs]
      exact same
  | sret =>
    have hf : x.Free := ha
    rw [Cpu.call]
    cases hst : x.stack with
    | nil => exact same
    | cons pc stack =>
      dsimp only
      by_cases hc : x.pc = .client
      · have h0 := h.noff_eq hf (by rw [hc]; rfl)
        have hp' : ¬0 < x.noff := by omega
        obtain ⟨h1, h2⟩ := h.stack pc (by rw [hst]; exact List.mem_cons_self ..)
        rw [if_pos hc]
        have hy : CpuOk { x with sie := true, was := true, pc := pc, stack := stack } := by
          refine ⟨?_, h.nodup, fun _ => h0, fun h1 => absurd h1 hp', ?_, fun pc' hpc => ?_⟩
          · rw [hc] at hn
            simp only [h1]
            exact hn
          · change PcOk x.held x.noff true true pc
            rwa [hf.1, h0]
          · exact h.stack pc' (by rw [hst]; exact List.mem_cons_of_mem _ hpc)
        exact ⟨hy, rfl, unmarked hy rfl hf.1⟩
      · rw [if_neg hc]
        exact same

omit [DecidableEq C] [DecidableEq L] in
lemma inv_init : Inv (init : State C L) where
  lock _ := LockOk.of_free rfl (fun _ => List.not_mem_nil) fun _ => Option.some_ne_none _ |>.symm
  cpu _ := ⟨rfl, List.nodup_nil, fun h => absurd h Bool.false_ne_true,
    fun h => absurd h (lt_irrefl 0), fun _ => rfl, fun _ h => absurd h List.not_mem_nil⟩

lemma Inv.step (h : Inv s) {e : C × Act L} (he : Ok s e) : Inv (step s e) := by
  obtain ⟨c, a⟩ := e
  have hcall : Inv (s.setCpu c ((s.cpu c).call a)) := by
    obtain ⟨h1, h2, h3⟩ := (h.cpu c).call he
    exact h.setCpu h2 h3 h1
  cases a with
  | go => exact h.go c
  | _ => exact hcall

lemma inv_run {es : List (C × Act L)} (hes : Along step Ok init es) : Inv (run step init es) :=
  Along.inv (fun _ _ h he => h.step he) es inv_init hes

/-- What locks are for. -/
structure Safe (s : State C L) : Prop where
  exclusion : ∀ c c' lk, lk ∈ (s.cpu c).held → lk ∈ (s.cpu c').held → c = c'
  interrupts : ∀ c, (s.cpu c).held ≠ [] → (s.cpu c).sie = false
  spins : ∀ c lk, (s.cpu c).pc = .swap lk → (s.lock lk).locked = true →
    ∃ c', c' ≠ c ∧ lk ∈ (s.cpu c').held
  acquires : ∀ c lk, (s.cpu c).pc = .panicAcquire lk → lk ∈ (s.cpu c).held
  releases : ∀ c lk, (s.cpu c).pc = .panicRelease lk → lk ∉ (s.cpu c).held
  pops : ∀ c, (s.cpu c).pc ≠ .panicPop
  restored : ∀ c, (s.cpu c).pc = .client → (s.cpu c).Free → (s.cpu c).sie = (s.cpu c).was

/-- **Spinlocks are safe at the granularity of memory accesses**: in every run, at most one core
holds a lock, with its interrupts off; a core only spins on a lock that another core holds, so no
interrupt handler waits for the code it interrupted; `acquire` panics only for a lock that the
core holds, `release` only for one that it does not, although `holding` reads two words without a
lock, and `pop_off` never; and when the last lock is released interrupts are as the core's code
last set them. -/
theorem spinlock_safe {es : List (C × Act L)} (hes : Along step Ok init es) :
    Safe (run step init es) := by
  have h := inv_run hes
  refine ⟨fun c c' lk => (h.lock lk).owner c c', fun c hc => ?_, fun c lk hpc hl => ?_,
    fun c lk hpc => ?_, fun c lk hpc => ?_, fun c hpc => ?_, fun c hpc hf => ?_⟩
  · by_contra hs
    exact hc ((h.cpu c).free ((h.cpu c).sie (by simpa using hs))).1.1
  · obtain ⟨c', hc'⟩ := (h.lock lk).locked.mp hl
    refine ⟨c', fun hcc => ?_, hc'⟩
    have hp := (h.cpu c).pc
    rw [hpc] at hp
    exact hp (hcc ▸ hc')
  all_goals
    have hp := (h.cpu c).pc
    rw [hpc] at hp
  · exact hp
  · exact hp
  · exact hp
  · exact hp ((h.cpu c).noff_eq hf (by rw [hpc]; rfl))

/-- Two cores want one lock, and the first gets it; of two interrupts, the second has to wait. -/
def contended : List (Bool × Act Unit) := [
  (true, .intr_on), (true, .acquire ()), (true, .go), (true, .interrupt), (true, .sret),
  (false, .acquire ()), (true, .go), (true, .go), (false, .go), (true, .go), (true, .go),
  (true, .interrupt), (false, .go), (false, .go), (false, .go), (false, .go)]

theorem spinlock_safe_contended : Safe (run step init contended) ∧
    ((run step init contended).cpu true).held = [()] ∧
    ((run step init contended).cpu false).pc = .swap () :=
  ⟨spinlock_safe (by decide), by decide, by decide⟩

end Xv6.Spinlock
