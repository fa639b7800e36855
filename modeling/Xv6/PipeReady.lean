import Xv6.Pipe
import Mathlib.Data.Fintype.Basic

/-!
Who sleeps on a pipe. A reader goes to sleep when the pipe is empty and may still be written, a
writer when it is full and may still be read. Whoever changes that under the lock wakes the
sleepers before giving the lock back, with one exception: a writer that finds itself killed
returns at once, also after it has stored bytes.
-/

namespace Xv6.Pipe

variable {P : Type} [DecidableEq P]

/-! ### The lock -/

/-- The process holds `pi->lock`. -/
def Pc.locked : Pc P → Bool
  | .wTest _ _ _ | .wKilled _ _ _ | .wByte _ _ _ | .wFull _ _ _ | .wDone _ _ => true
  | .rTest _ | .rKilled _ | .rCopy _ _ | .rDone _ _ _ | .cDone _ _ => true
  | .sLock _ _ | .sRelease _ _ => true
  | _ => false

variable {procs : List P} {p q : P} {ok : Bool} {s : St P}

lemma scan_lock {c : Chan} {next : Pc P} : (s.scan p q c next).lock = s.lock := by
  unfold St.scan; split_ifs <;> simp

lemma scan_pc {c : Chan} {n : Pc P} :
    (s.scan p q c n).pc = s.pc ∨ (s.scan p q c n).pc = Function.update s.pc p n := by
  unfold St.scan
  split_ifs
  · exact Or.inl rfl
  · exact Or.inr (by simp [St.goto])

lemma scan_pi {c : Chan} {next : Pc P} : (s.scan p q c next).pi = s.pi := by
  unfold St.scan; split_ifs <;> simp

/-- What a step does to the lock: nothing, take it, or give it back. -/
inductive LockStep (s s' : St P) (p : P) : Prop where
  | same (hl : s'.lock = s.lock) (hp : (s'.pc p).locked = (s.pc p).locked)
  | take (h0 : s.lock = none) (hl : s'.lock = some p) (hp : (s'.pc p).locked = true)
  | drop (h0 : (s.pc p).locked = true) (hl : s'.lock = none) (hp : (s'.pc p).locked = false)

lemma lockStep_goto {c : Pc P} (h : c.locked = (s.pc p).locked) : LockStep s (s.goto p c) p :=
  .same rfl (by rw [goto_pc_self, h])

lemma lockStep_scan {c : Chan} {next : Pc P} (h : next.locked = (s.pc p).locked) :
    LockStep s (s.scan p q c next) p := by
  refine .same scan_lock ?_
  rcases scan_pc (s := s) (p := p) (q := q) (c := c) (n := next) with h1 | h1
  · rw [h1]
  · rw [h1, Function.update_self, h]

lemma lockStep_acquire {c : Pc P} (h : c.locked = true) : LockStep s (s.acquire p c) p := by
  unfold St.acquire
  cases hl : s.lock with
  | none => exact .take hl rfl (by simp [h])
  | some x => exact .same rfl rfl

lemma lockStep_release (h : (s.pc p).locked = true) {c : Pc P} (hc : c.locked = false) :
    LockStep s (s.release p c) p :=
  .drop h rfl (by simpa [St.release] using hc)

lemma go_lockStep (procs : List P) (p : P) (ok : Bool) (s : St P) :
    LockStep s (go procs p ok s) p := by
  unfold go
  cases hp : s.pc p with
  | user => exact .same rfl rfl
  | wAcquire buf i => exact lockStep_acquire rfl
  | wTest buf i i0 =>
    dsimp only
    split_ifs
    · exact lockStep_goto (by rw [hp]; rfl)
    · exact lockStep_release (by rw [hp]; rfl) rfl
    · exact lockStep_goto (by rw [hp]; rfl)
  | wKilled buf i i0 =>
    dsimp only
    split_ifs
    · exact lockStep_release (by rw [hp]; rfl) rfl
    · exact lockStep_goto (by rw [hp]; rfl)
  | wByte buf i i0 =>
    dsimp only
    split_ifs
    · exact lockStep_goto (by rw [hp]; rfl)
    · exact .same rfl (by simp [hp, Pc.locked])
    · exact lockStep_goto (by rw [hp]; rfl)
  | wFull buf i todo =>
    cases todo with
    | nil => exact lockStep_goto (by rw [hp]; rfl)
    | cons q todo => exact lockStep_scan (by rw [hp]; rfl)
  | wDone i todo =>
    cases todo with
    | nil => exact lockStep_release (by rw [hp]; rfl) rfl
    | cons q todo => exact lockStep_scan (by rw [hp]; rfl)
  | rAcquire n => exact lockStep_acquire rfl
  | rTest n =>
    dsimp only
    split_ifs
    · exact lockStep_goto (by rw [hp]; rfl)
    · exact lockStep_goto (by rw [hp]; rfl)
  | rKilled n =>
    dsimp only
    split_ifs
    · exact lockStep_release (by rw [hp]; rfl) rfl
    · exact lockStep_goto (by rw [hp]; rfl)
  | rCopy n i =>
    dsimp only
    split_ifs
    · exact .same rfl (by simp [hp, Pc.locked])
    · exact .same rfl (by simp [hp, Pc.locked])
    · exact lockStep_goto (by rw [hp]; rfl)
  | rDone n i todo =>
    cases todo with
    | nil => exact lockStep_release (by rw [hp]; rfl) rfl
    | cons q todo => exact lockStep_scan (by rw [hp]; rfl)
  | cAcquire w =>
    dsimp only
    cases hl : s.lock with
    | none => exact .take hl rfl (by simp [Pc.locked])
    | some x => exact .same rfl rfl
  | cDone w todo =>
    cases todo with
    | nil => exact lockStep_release (by rw [hp]; rfl) rfl
    | cons q todo => exact lockStep_scan (by rw [hp]; rfl)
  | sLock c k => exact lockStep_goto (by rw [hp]; rfl)
  | sRelease c k => exact lockStep_release (by rw [hp]; rfl) rfl
  | sSched c k => exact .same rfl (by simp [hp, Pc.locked])
  | asleep c k =>
    dsimp only
    split_ifs
    · exact .same rfl rfl
    · refine .same rfl ?_
      cases k <;> simp [hp, Pc.locked, Resume.pc]

lemma go_pc_ne (h : q ≠ p) : (go procs p ok s).pc q = s.pc q := by
  have hscan : ∀ (r : P) (c : Chan) (next : Pc P), (s.scan p r c next).pc q = s.pc q := by
    intro r c next
    unfold St.scan
    split_ifs
    · rfl
    · rw [goto_pc_ne _ _ h, wake_pc]
  have hacq : ∀ c : Pc P, (s.acquire p c).pc q = s.pc q := by
    intro c
    unfold St.acquire
    split
    · exact goto_pc_ne _ _ h
    · rfl
  have hrel : ∀ c : Pc P, (s.release p c).pc q = s.pc q := fun c => goto_pc_ne _ _ h
  unfold go
  split <;> (try dsimp only) <;> (try split_ifs) <;>
    first | rfl | exact hscan _ _ _ | exact hacq _ | exact hrel _ | exact goto_pc_ne _ _ h | skip
  split
  · exact goto_pc_ne _ _ h
  · rfl

/-- The pipe changes only under the lock. -/
lemma go_pi : (go procs p ok s).pi = s.pi ∨ (s.pc p).locked = true ∨ s.lock = none := by
  have hacq : ∀ c : Pc P, (s.acquire p c).pi = s.pi := by
    intro c
    unfold St.acquire
    split <;> rfl
  unfold go
  cases hp : s.pc p with
  | wByte buf i i0 => exact Or.inr (Or.inl rfl)
  | rCopy n i => exact Or.inr (Or.inl rfl)
  | cAcquire w =>
    cases hl : s.lock with
    | none => exact Or.inr (Or.inr rfl)
    | some x => exact Or.inl rfl
  | wAcquire buf i => exact Or.inl (hacq _)
  | rAcquire n => exact Or.inl (hacq _)
  | wFull buf i todo =>
    cases todo with
    | nil => exact Or.inl rfl
    | cons q todo => exact Or.inl scan_pi
  | wDone i todo =>
    cases todo with
    | nil => exact Or.inl rfl
    | cons q todo => exact Or.inl scan_pi
  | rDone n i todo =>
    cases todo with
    | nil => exact Or.inl rfl
    | cons q todo => exact Or.inl scan_pi
  | cDone w todo =>
    cases todo with
    | nil => exact Or.inl rfl
    | cons q todo => exact Or.inl scan_pi
  | user => exact Or.inl rfl
  | wTest buf i i0 => left; dsimp only; split_ifs <;> rfl
  | wKilled buf i i0 => left; dsimp only; split_ifs <;> rfl
  | rTest n => left; dsimp only; split_ifs <;> rfl
  | rKilled n => left; dsimp only; split_ifs <;> rfl
  | sLock c k => exact Or.inl rfl
  | sRelease c k => exact Or.inl rfl
  | sSched c k => exact Or.inl rfl
  | asleep c k => left; dsimp only; split_ifs <;> rfl

/-! ### What holds at each program counter -/

/-- What a sleeper on `c` waits to change. -/
def Cond (c : Chan) (d : PipeData) : Prop :=
  match c with
  | .nread => d.empty ∧ d.writeopen = true
  | .nwrite => d.full ∧ d.readopen = true

/-- What a process that holds the lock knows about the pipe. -/
def Local (d : PipeData) : Pc P → Prop
  | .wTest _ i i0 => i0 ≤ i ∧ (i ≠ i0 → d.readopen = true)
  | .wKilled _ i i0 => i0 ≤ i ∧ d.readopen = true
  | .wByte _ i i0 => i0 ≤ i ∧ d.readopen = true
  | .wFull _ _ _ => Cond .nwrite d
  | .rKilled _ => Cond .nread d
  | .rCopy _ i => i = 0 → ¬ Cond .nread d
  | .sLock c _ => Cond c d
  | .sRelease c _ => Cond c d
  | _ => True

omit [DecidableEq P] in
lemma local_unlocked {d : PipeData} {c : Pc P} (h : c.locked = false) : Local d c := by
  cases c <;> trivial

/-- The lock is held by the process whose program counter says so, and everybody knows what they
should. -/
structure Locked (s : St P) : Prop where
  lock : ∀ p, s.lock = some p ↔ (s.pc p).locked = true
  know : ∀ p, Local s.pi (s.pc p)

omit [DecidableEq P] in
lemma locked_init {data : ℕ → ByteMem.Byte} {killed : P → Bool} :
    Locked (init data killed : St P) :=
  ⟨fun p => by simp [init, Pc.locked], fun p => trivial⟩

omit [DecidableEq P] in
lemma Locked.none_of (h : Locked s) (hl : s.lock = none) (q : P) : (s.pc q).locked = false := by
  by_contra hc
  have := (h.lock q).mpr (by simpa using hc)
  rw [hl] at this
  cases this

omit [DecidableEq P] in
lemma Locked.only (h : Locked s) (hp : (s.pc p).locked = true) (hq : q ≠ p) :
    (s.pc q).locked = false := by
  by_contra hc
  have h1 := (h.lock q).mpr (by simpa using hc)
  have h2 := (h.lock p).mpr hp
  rw [h1] at h2
  exact hq (Option.some.inj h2)

lemma scan_local {c : Chan} {next : Pc P} (h1 : Local s.pi (s.pc p)) (h2 : Local s.pi next) :
    Local (s.scan p q c next).pi ((s.scan p q c next).pc p) := by
  rw [scan_pi]
  rcases scan_pc (s := s) (p := p) (q := q) (c := c) (n := next) with h | h
  · rw [h]; exact h1
  · rw [h, Function.update_self]; exact h2

lemma go_local (h : Locked s) :
    Local (go procs p ok s).pi ((go procs p ok s).pc p) := by
  have hk := h.know p
  unfold go
  cases hp : s.pc p with
  | user => simpa [hp] using hk
  | wAcquire buf i =>
    dsimp only
    unfold St.acquire
    cases hl : s.lock with
    | none => simp [Local]
    | some x => exact hk
  | wTest buf i i0 =>
    rw [hp] at hk
    dsimp only
    split_ifs with h1 h2
    · simpa [Local] using ⟨hk.1, h2⟩
    · simp [St.release, Local]
    · simp [Local]
  | wKilled buf i i0 =>
    rw [hp] at hk
    dsimp only
    split_ifs with h1
    · simp [St.release, Local]
    · simpa [Local] using hk
  | wByte buf i i0 =>
    rw [hp] at hk
    dsimp only
    split_ifs with h1 h2
    · simpa [Local, Cond] using ⟨h1, hk.2⟩
    · simpa [Local, PipeData.push] using ⟨hk.1.trans (Nat.le_succ i), fun _ => hk.2⟩
    · simp [Local]
  | wFull buf i todo =>
    cases todo with
    | nil => rw [hp] at hk; simpa [Local] using hk
    | cons q todo => exact scan_local hk (by rw [hp] at hk; exact hk)
  | wDone i todo =>
    cases todo with
    | nil => simp [St.release, Local]
    | cons q todo => exact scan_local hk trivial
  | rAcquire n =>
    dsimp only
    unfold St.acquire
    cases hl : s.lock with
    | none => simp [Local]
    | some x => exact hk
  | rTest n =>
    dsimp only
    split_ifs with h1
    · simpa [Local, Cond] using h1
    · simpa [Local, Cond] using h1
  | rKilled n =>
    rw [hp] at hk
    dsimp only
    split_ifs with h1
    · simp [St.release, Local]
    · simpa [Local] using hk
  | rCopy n i =>
    dsimp only
    split_ifs with h1 h2
    · simp [Local]
    · simp [Local]
    · simp [Local]
  | rDone n i todo =>
    cases todo with
    | nil => simp [St.release, Local]
    | cons q todo => exact scan_local hk trivial
  | cAcquire w =>
    dsimp only
    cases hl : s.lock with
    | none => simp [Local]
    | some x => exact hk
  | cDone w todo =>
    cases todo with
    | nil => simp [St.release, Local]
    | cons q todo => exact scan_local hk trivial
  | sLock c k => rw [hp] at hk; simpa [Local] using hk
  | sRelease c k => simp [St.release, Local]
  | sSched c k => simp [Local]
  | asleep c k =>
    dsimp only
    split_ifs
    · exact hk
    · cases k <;> simp [Local, Resume.pc]

lemma Locked.go (h : Locked s) : Locked (go procs p ok s) := by
  have hlk := go_lockStep procs p ok s
  refine ⟨fun q => ?_, fun q => ?_⟩
  · by_cases hq : q = p
    · subst hq
      cases hlk with
      | same hl hp => rw [hl, hp]; exact h.lock q
      | take h0 hl hp => rw [hl, hp]; simp
      | drop h0 hl hp => rw [hl, hp]; simp
    · rw [go_pc_ne hq]
      cases hlk with
      | same hl hp => rw [hl]; exact h.lock q
      | take h0 hl hp => rw [hl, h.none_of h0 q]; simpa using Ne.symm hq
      | drop h0 hl hp => rw [hl, h.only h0 hq]; simp
  · by_cases hq : q = p
    · subst hq; exact go_local h
    · rw [go_pc_ne hq]
      have hpi : (Pipe.go procs p ok s).pi = s.pi ∨ (s.pc p).locked = true ∨ s.lock = none := go_pi
      rcases hpi with h1 | h1 | h1
      · rw [h1]; exact h.know q
      · exact local_unlocked (h.only h1 hq)
      · exact local_unlocked (h.none_of h1 q)

lemma Locked.call (h : Locked s) (hp : s.pc p = .user) (c : Call) :
    Locked (s.goto p c.pc) := by
  have hc : (c.pc : Pc P).locked = false := by cases c <;> rfl
  refine ⟨fun q => ?_, fun q => ?_⟩
  · by_cases hq : q = p
    · subst hq
      rw [goto_pc_self, hc, ← show (s.pc q).locked = false by rw [hp]; rfl]
      exact h.lock q
    · rw [goto_pc_ne _ _ hq]; exact h.lock q
  · by_cases hq : q = p
    · subst hq
      rw [goto_pc_self]
      exact local_unlocked hc
    · rw [goto_pc_ne _ _ hq]; exact h.know q

lemma Locked.step (h : Locked s) (a : Act P) : Locked (step procs s a) := by
  cases a with
  | call p c =>
    simp only [Pipe.step]
    split_ifs with hp
    · exact h.call hp c
    · exact h
  | go p => exact h.go
  | fault p => exact h.go
  | kill p =>
    simp only [Pipe.step]
    split_ifs
    · exact h
    · exact ⟨h.lock, h.know⟩
    · exact ⟨h.lock, h.know⟩

/-! ### Sleepers -/

/-- The process sleeps on `c` or is on its way there. -/
def Awaits (s : St P) (q : P) (c : Chan) : Prop :=
  ∃ k, s.pc q = .sLock c k ∨ s.pc q = .sRelease c k ∨ s.pc q = .sSched c k ∨
    (s.pc q = .asleep c k ∧ s.state q = .SLEEPING)

/-- A process at this program counter is going to wake `q` if it sleeps on `c`. -/
def Owes (c : Chan) (q : P) : Pc P → Prop
  | .wTest _ i i0 | .wKilled _ i i0 | .wByte _ i i0 => c = .nread ∧ i ≠ i0
  | .wFull _ _ todo | .wDone _ todo => c = .nread ∧ q ∈ todo
  | .rCopy _ _ => c = .nwrite
  | .rDone _ _ todo => c = .nwrite ∧ q ∈ todo
  | .cDone w todo => c = closeChan w ∧ q ∈ todo
  | _ => False

omit [DecidableEq P] in
lemma owes_locked {c : Chan} {pc : Pc P} (h : Owes c q pc) : pc.locked = true := by
  cases pc <;> first | rfl | exact h.elim

/-- Sleepers are where they should be; whoever waits on `c` has a reason to, or is going to be
woken. -/
structure Waiting (s : St P) : Prop where
  asleep : ∀ q, s.state q = .SLEEPING → ∃ c k, s.pc q = .asleep c k ∧ s.chan q = some c
  reason : ∀ q c, Awaits s q c → Cond c s.pi ∨ ∃ h, Owes c q (s.pc h)

/-- The step is not a writer finding itself killed after it has stored bytes since it took the
lock. -/
def Timely (s : St P) : Act P → Prop
  | .go p | .fault p =>
    match s.pc p with
    | .wKilled _ i i0 => s.killed p = true → i = i0
    | _ => True
  | _ => True

instance (s : St P) (a : Act P) : Decidable (Timely s a) := by
  unfold Timely
  split
  · split <;> infer_instance
  · split <;> infer_instance
  · infer_instance

omit [DecidableEq P] in
lemma waiting_init {data : ℕ → ByteMem.Byte} {killed : P → Bool} :
    Waiting (init data killed : St P) :=
  ⟨fun q h => by simp [init] at h, fun q c h => by simp [Awaits, init] at h⟩

omit [DecidableEq P] in
lemma awaits_congr {s' : St P} {c : Chan} (hpc : s'.pc q = s.pc q)
    (hst : s'.state q = .SLEEPING → s.state q = .SLEEPING) (h : Awaits s' q c) : Awaits s q c := by
  obtain ⟨k, h1 | h1 | h1 | ⟨h1, h2⟩⟩ := h <;> rw [hpc] at h1
  · exact ⟨k, Or.inl h1⟩
  · exact ⟨k, Or.inr (Or.inl h1)⟩
  · exact ⟨k, Or.inr (Or.inr (Or.inl h1))⟩
  · exact ⟨k, Or.inr (Or.inr (Or.inr ⟨h1, hst h2⟩))⟩

omit [DecidableEq P] in
lemma Locked.owes (h : Locked s) (hp : (s.pc p).locked = true) {c : Chan} {r : P}
    (ho : Owes c q (s.pc r)) : Owes c q (s.pc p) := by
  by_cases hr : r = p
  · rw [← hr]; exact ho
  · have := h.only hp hr
    rw [owes_locked ho] at this
    cases this

/-- `p`, who is not asleep, moves on to `c`: whoever waits needs a reason after the step, and what
`p` owed before counts as one. -/
lemma Waiting.move {s' : St P} {c : Pc P} (h : Waiting s) (hpc : s'.pc = Function.update s.pc p c)
    (hst : s'.state = s.state) (hch : s'.chan = s.chan) (hp : ∀ c k, s.pc p ≠ .asleep c k)
    (hc : ∀ c' k, c ≠ .asleep c' k)
    (hgo : ∀ c' k, c = .sLock c' k ∨ c = .sRelease c' k ∨ c = .sSched c' k → Cond c' s'.pi)
    (howe : ∀ q c', q ≠ p → Awaits s q c' → Cond c' s.pi ∨ Owes c' q (s.pc p) →
      Cond c' s'.pi ∨ Owes c' q c) : Waiting s' := by
  have hne : ∀ {q}, q ≠ p → s'.pc q = s.pc q := fun hq => by
    rw [hpc, Function.update_of_ne hq]
  have hself : s'.pc p = c := by rw [hpc, Function.update_self]
  refine ⟨fun q hq => ?_, fun q c' hq => ?_⟩
  · rw [hst] at hq
    obtain ⟨c', k, h1, h2⟩ := h.asleep q hq
    have hqp : q ≠ p := by rintro rfl; exact hp c' k h1
    exact ⟨c', k, by rw [hne hqp, h1], by rw [hch, h2]⟩
  · by_cases hqp : q = p
    · subst hqp
      left
      obtain ⟨k, h1 | h1 | h1 | ⟨h1, -⟩⟩ := hq <;> rw [hself] at h1
      · exact hgo c' k (Or.inl h1)
      · exact hgo c' k (Or.inr (Or.inl h1))
      · exact hgo c' k (Or.inr (Or.inr h1))
      · exact absurd h1 (hc c' k)
    · have hq0 : Awaits s q c' := awaits_congr (hne hqp) (by rw [hst]; exact id) hq
      have hpre : (∃ r, r ≠ p ∧ Owes c' q (s.pc r)) ∨ (Cond c' s.pi ∨ Owes c' q (s.pc p)) := by
        rcases h.reason q c' hq0 with h1 | ⟨r, hr⟩
        · exact Or.inr (Or.inl h1)
        · by_cases hrp : r = p
          · subst hrp; exact Or.inr (Or.inr hr)
          · exact Or.inl ⟨r, hrp, hr⟩
      rcases hpre with ⟨r, hrp, hr⟩ | h1
      · exact Or.inr ⟨r, by rw [hne hrp]; exact hr⟩
      · rcases howe q c' hqp hq0 h1 with h2 | h2
        · exact Or.inl h2
        · exact Or.inr ⟨p, by rw [hself]; exact h2⟩

/-- One process of a scan under the lock: if it slept on `c` it does not any more. -/
lemma Waiting.scan {c : Chan} {r : P} {todo : List P} {next : Pc P} (hL : Locked s)
    (h : Waiting s) (hp : (s.pc p).locked = true) (hp1 : ∀ c k, s.pc p ≠ .asleep c k)
    (hn : ∀ c' k, next ≠ .asleep c' k ∧ next ≠ .sLock c' k ∧ next ≠ .sRelease c' k ∧
      next ≠ .sSched c' k)
    (hpo : ∀ c' q, Owes c' q (s.pc p) → c' = c ∧ q ∈ r :: todo)
    (hno : ∀ q, q ∈ todo → Owes c q next) : Waiting (s.scan p r c next) := by
  unfold St.scan
  split_ifs with hb
  · exact h
  have hst : ∀ q, (s.wake p r c).state q = .SLEEPING → s.state q = .SLEEPING := by
    intro q hq
    unfold St.wake at hq
    split_ifs at hq with hw
    · by_cases hqr : q = r
      · subst hqr; simp at hq
      · simpa [Function.update_of_ne hqr] using hq
    · exact hq
  refine ⟨fun q hq => ?_, fun q c' hq => ?_⟩
  · obtain ⟨c', k, h1, h2⟩ := h.asleep q (hst q hq)
    have hqp : q ≠ p := by rintro rfl; exact hp1 c' k h1
    exact ⟨c', k, by rw [goto_pc_ne _ _ hqp, wake_pc]; exact h1, by simpa [St.goto] using h2⟩
  · have hqp : q ≠ p := by
      rintro rfl
      obtain ⟨k, h1 | h1 | h1 | ⟨h1, -⟩⟩ := hq <;> rw [goto_pc_self] at h1
      · exact (hn c' k).2.1 h1
      · exact (hn c' k).2.2.1 h1
      · exact (hn c' k).2.2.2 h1
      · exact (hn c' k).1 h1
    have hpcq : ((s.wake p r c).goto p next).pc q = s.pc q := by
      rw [goto_pc_ne _ _ hqp, wake_pc]
    have hq0 : Awaits s q c' := awaits_congr hpcq (hst q) hq
    rw [goto_pi, wake_pi]
    rcases h.reason q c' hq0 with h1 | ⟨u, hu⟩
    · exact Or.inl h1
    · obtain ⟨rfl, hmem⟩ := hpo c' q (hL.owes hp hu)
      rcases List.mem_cons.mp hmem with rfl | hmem
      · -- the visited process: it cannot be on its way to sleep, and if asleep it was woken
        exfalso
        rw [not_and, Bool.not_eq_true] at hb
        have hown := hb hqp
        have hlk := hL.only hp hqp
        obtain ⟨k, h1 | h1 | h1 | ⟨h1, h2⟩⟩ := hq
        · rw [hpcq] at h1; rw [h1] at hlk; cases hlk
        · rw [hpcq] at h1; rw [h1] at hown; cases hown
        · rw [hpcq] at h1; rw [h1] at hown; cases hown
        · have h3 := hst q h2
          obtain ⟨c2, k2, h4, h5⟩ := h.asleep q h3
          rw [hpcq, h4] at h1
          simp only [Pc.asleep.injEq] at h1
          rw [h1.1] at h5
          simp [St.goto, St.wake, hqp, h3, h5] at h2
      · exact Or.inr ⟨p, by rw [goto_pc_self]; exact hno q hmem⟩

lemma Waiting.pass {s' : St P} {c : Pc P} (h : Waiting s) (hpi : s'.pi = s.pi)
    (hpc : s'.pc = Function.update s.pc p c) (hst : s'.state = s.state) (hch : s'.chan = s.chan)
    (hp : ∀ c k, s.pc p ≠ .asleep c k)
    (hc : ∀ c' k, c ≠ .asleep c' k ∧ c ≠ .sLock c' k ∧ c ≠ .sRelease c' k ∧ c ≠ .sSched c' k)
    (howe : ∀ q c', Owes c' q (s.pc p) → Owes c' q c) : Waiting s' := by
  refine h.move hpc hst hch hp (fun c' k => (hc c' k).1) (fun c' k hk => ?_)
    (fun q c' _ _ h1 => ?_)
  · rcases hk with hk | hk | hk
    · exact absurd hk (hc c' k).2.1
    · exact absurd hk (hc c' k).2.2.1
    · exact absurd hk (hc c' k).2.2.2
  · rw [hpi]
    exact h1.imp id (howe q c')

lemma Waiting.acquire {c : Pc P} (h : Waiting s) (hp : ∀ c k, s.pc p ≠ .asleep c k)
    (hc : ∀ c' k, c ≠ .asleep c' k ∧ c ≠ .sLock c' k ∧ c ≠ .sRelease c' k ∧ c ≠ .sSched c' k)
    (howe : ∀ q c', ¬ Owes c' q (s.pc p)) : Waiting (s.acquire p c) := by
  unfold St.acquire
  cases hl : s.lock with
  | none => exact h.pass rfl rfl rfl rfl hp hc fun q c' ho => absurd ho (howe q c')
  | some x => exact h

lemma Waiting.push {buf : List ByteMem.Byte} {i i0 : ℕ} {ch : ByteMem.Byte} {bs : List ByteMem.Byte}
    (hL : Locked s) (h : Waiting s) (hp : s.pc p = .wByte buf i i0) (hf : ¬ s.pi.full) :
    Waiting { s.goto p (.wTest buf (i + 1) i0) with pi := s.pi.push ch, stored := bs } := by
  have hk := hL.know p
  rw [hp] at hk
  refine h.move rfl rfl rfl (by simp [hp]) (by simp) (by simp) (fun q c' _ _ h1 => ?_)
  cases c' with
  | nread =>
    right
    exact ⟨rfl, by have := hk.1; omega⟩
  | nwrite =>
    rcases h1 with h1 | h1
    · exact absurd h1.1 hf
    · rw [hp] at h1
      cases h1.1

lemma Waiting.pop {n i : ℕ} {c : Pc P} {bs : List ByteMem.Byte} (h : Waiting s)
    (hp : s.pc p = .rCopy n i) (he : ¬ s.pi.empty)
    (hc : ∀ c' k, c ≠ .asleep c' k ∧ c ≠ .sLock c' k ∧ c ≠ .sRelease c' k ∧ c ≠ .sSched c' k)
    (howe : ∀ q, Owes .nwrite q c) :
    Waiting { s.goto p c with pi := s.pi.pop, delivered := bs } := by
  refine h.move rfl rfl rfl (by simp [hp]) (fun c' k => (hc c' k).1) (fun c' k hk => ?_)
    (fun q c' _ _ h1 => ?_)
  · rcases hk with hk | hk | hk
    · exact absurd hk (hc c' k).2.1
    · exact absurd hk (hc c' k).2.2.1
    · exact absurd hk (hc c' k).2.2.2
  · cases c' with
    | nwrite => exact Or.inr (howe q)
    | nread =>
      rcases h1 with h1 | h1
      · exact absurd h1.1 he
      · rw [hp] at h1
        cases h1

lemma Waiting.close {w : Bool} (hprocs : ∀ q, q ∈ procs) (h : Waiting s)
    (hp : s.pc p = .cAcquire w) :
    Waiting { s.goto p (.cDone w procs) with lock := some p, pi := s.pi.close w } := by
  refine h.move rfl rfl rfl (by simp [hp]) (by simp) (by simp) (fun q c' _ _ h1 => ?_)
  rw [hp] at h1
  simp only [Owes, or_false] at h1
  cases w <;> cases c'
  · left; exact h1
  · right; exact ⟨rfl, hprocs q⟩
  · right; exact ⟨rfl, hprocs q⟩
  · left; exact h1

/-- The process falls asleep; it has waited before. -/
lemma Waiting.fall {c : Chan} {k : Resume} (h : Waiting s) (hp : s.pc p = .sSched c k) :
    Waiting { s.goto p (.asleep c k) with
      chan := Function.update s.chan p (some c)
      state := Function.update s.state p .SLEEPING } := by
  refine ⟨fun q hq => ?_, fun q c' hq => ?_⟩
  · by_cases hqp : q = p
    · subst hqp
      exact ⟨c, k, by simp, by simp⟩
    · simp only [Function.update_of_ne hqp] at hq ⊢
      rw [goto_pc_ne _ _ hqp]
      exact h.asleep q hq
  · have hq0 : Awaits s q c' := by
      by_cases hqp : q = p
      · subst hqp
        obtain ⟨k', hk⟩ := hq
        simp only [goto_pc_self, reduceCtorEq, false_or, Pc.asleep.injEq] at hk
        rw [← hk.1.1]
        exact ⟨k, Or.inr (Or.inr (Or.inl hp))⟩
      · refine awaits_congr ?_ ?_ hq
        · exact goto_pc_ne _ _ hqp
        · simp only [Function.update_of_ne hqp]; exact id
    refine (h.reason q c' hq0).imp id ?_
    rintro ⟨r, hr⟩
    have hrp : r ≠ p := by rintro rfl; rw [hp] at hr; exact hr
    exact ⟨r, by rw [goto_pc_ne _ _ hrp]; exact hr⟩

lemma Waiting.resume {c : Chan} {k : Resume} (h : Waiting s) (hp : s.pc p = .asleep c k)
    (hs : s.state p ≠ .SLEEPING) :
    Waiting { s.goto p k.pc with
      chan := Function.update s.chan p none
      state := Function.update s.state p .RUNNING } := by
  refine ⟨fun q hq => ?_, fun q c' hq => ?_⟩
  · have hqp : q ≠ p := by rintro rfl; simp at hq
    simp only [Function.update_of_ne hqp] at hq ⊢
    rw [goto_pc_ne _ _ hqp]
    exact h.asleep q hq
  · have hqp : q ≠ p := by
      rintro rfl
      obtain ⟨k', hk⟩ := hq
      cases k <;> simp [Resume.pc] at hk
    have hq0 : Awaits s q c' := by
      refine awaits_congr ?_ ?_ hq
      · exact goto_pc_ne _ _ hqp
      · simp only [Function.update_of_ne hqp]; exact id
    refine (h.reason q c' hq0).imp id ?_
    rintro ⟨r, hr⟩
    have hrp : r ≠ p := by rintro rfl; rw [hp] at hr; exact hr
    exact ⟨r, by rw [goto_pc_ne _ _ hrp]; exact hr⟩

lemma Waiting.go (hprocs : ∀ q, q ∈ procs) (hL : Locked s) (h : Waiting s)
    (ht : ∀ buf i i0, s.pc p = .wKilled buf i i0 → s.killed p = true → i = i0) :
    Waiting (go procs p ok s) := by
  have hk := hL.know p
  unfold Pipe.go
  cases hp : s.pc p with
  | user => exact h
  | wAcquire buf i => exact h.acquire (by simp [hp]) (by simp) (by simp [hp, Owes])
  | wTest buf i i0 =>
    rw [hp] at hk
    dsimp only
    split_ifs with h1 h2
    · exact h.pass rfl rfl rfl rfl (by simp [hp]) (by simp) (by simp [hp, Owes])
    · refine h.pass rfl rfl rfl rfl (by simp [hp]) (by simp) fun q c' ho => ?_
      rw [hp] at ho
      exact absurd (hk.2 ho.2) h2
    · refine h.pass rfl rfl rfl rfl (by simp [hp]) (by simp) fun q c' ho => ?_
      rw [hp] at ho
      exact ⟨ho.1, hprocs q⟩
  | wKilled buf i i0 =>
    dsimp only
    split_ifs with h1
    · refine h.pass rfl rfl rfl rfl (by simp [hp]) (by simp) fun q c' ho => ?_
      rw [hp] at ho
      exact absurd (ht buf i i0 hp h1) ho.2
    · exact h.pass rfl rfl rfl rfl (by simp [hp]) (by simp) (by simp [hp, Owes])
  | wByte buf i i0 =>
    dsimp only
    split_ifs with h1 h2
    · refine h.pass rfl rfl rfl rfl (by simp [hp]) (by simp) fun q c' ho => ?_
      rw [hp] at ho
      exact ⟨ho.1, hprocs q⟩
    · exact h.push hL hp h1
    · refine h.pass rfl rfl rfl rfl (by simp [hp]) (by simp) fun q c' ho => ?_
      rw [hp] at ho
      exact ⟨ho.1, hprocs q⟩
  | wFull buf i todo =>
    cases todo with
    | nil =>
      rw [hp] at hk
      refine h.move rfl rfl rfl (by simp [hp]) (by simp) (fun c' k hk' => ?_)
        (fun q c' _ _ h1 => ?_)
      · simp only [Pc.sLock.injEq, reduceCtorEq, or_false] at hk'
        rw [← hk'.1]; exact hk
      · rw [hp] at h1
        simpa [Owes] using h1
    | cons r todo =>
      exact h.scan hL (by rw [hp]; rfl) (by simp [hp]) (by simp) (by simp [hp, Owes])
        (fun q hq => ⟨rfl, hq⟩)
  | wDone i todo =>
    cases todo with
    | nil => exact h.pass rfl rfl rfl rfl (by simp [hp]) (by simp) (by simp [hp, Owes])
    | cons r todo =>
      exact h.scan hL (by rw [hp]; rfl) (by simp [hp]) (by simp) (by simp [hp, Owes])
        (fun q hq => ⟨rfl, hq⟩)
  | rAcquire n => exact h.acquire (by simp [hp]) (by simp) (by simp [hp, Owes])
  | rTest n =>
    dsimp only
    split_ifs
    · exact h.pass rfl rfl rfl rfl (by simp [hp]) (by simp) (by simp [hp, Owes])
    · exact h.pass rfl rfl rfl rfl (by simp [hp]) (by simp) (by simp [hp, Owes])
  | rKilled n =>
    rw [hp] at hk
    dsimp only
    split_ifs with h1
    · exact h.pass rfl rfl rfl rfl (by simp [hp]) (by simp) (by simp [hp, Owes])
    · refine h.move rfl rfl rfl (by simp [hp]) (by simp) (fun c' k hk' => ?_)
        (fun q c' _ _ h2 => ?_)
      · simp only [Pc.sLock.injEq, reduceCtorEq, or_false] at hk'
        rw [← hk'.1]; exact hk
      · rw [hp] at h2
        simpa [Owes] using h2
  | rCopy n i =>
    dsimp only
    split_ifs with h1 h2
    · exact h.pop hp h1.2 (by simp) (fun q => rfl)
    · exact h.pop hp h1.2 (by simp) (fun q => ⟨rfl, hprocs q⟩)
    · refine h.pass rfl rfl rfl rfl (by simp [hp]) (by simp) fun q c' ho => ?_
      rw [hp] at ho
      exact ⟨ho, hprocs q⟩
  | rDone n i todo =>
    cases todo with
    | nil => exact h.pass rfl rfl rfl rfl (by simp [hp]) (by simp) (by simp [hp, Owes])
    | cons r todo =>
      exact h.scan hL (by rw [hp]; rfl) (by simp [hp]) (by simp) (by simp [hp, Owes])
        (fun q hq => ⟨rfl, hq⟩)
  | cAcquire w =>
    dsimp only
    cases hl : s.lock with
    | none => exact h.close hprocs hp
    | some x => exact h
  | cDone w todo =>
    cases todo with
    | nil => exact h.pass rfl rfl rfl rfl (by simp [hp]) (by simp) (by simp [hp, Owes])
    | cons r todo =>
      exact h.scan hL (by rw [hp]; rfl) (by simp [hp]) (by simp) (by simp [hp, Owes])
        (fun q hq => ⟨rfl, hq⟩)
  | sLock c k =>
    rw [hp] at hk
    refine h.move rfl rfl rfl (by simp [hp]) (by simp) (fun c' k hk' => ?_)
      (fun q c' _ _ h1 => ?_)
    · simp only [Pc.sRelease.injEq, reduceCtorEq, or_false, false_or] at hk'
      rw [← hk'.1]; exact hk
    · rw [hp] at h1
      simpa [Owes] using h1
  | sRelease c k =>
    rw [hp] at hk
    refine h.move rfl rfl rfl (by simp [hp]) (by simp) (fun c' k hk' => ?_)
      (fun q c' _ _ h1 => ?_)
    · simp only [Pc.sSched.injEq, reduceCtorEq, false_or] at hk'
      rw [← hk'.1]; exact hk
    · rw [hp] at h1
      simpa [Owes, St.release] using h1
  | sSched c k => exact h.fall hp
  | asleep c k =>
    dsimp only
    split_ifs with h1
    · exact h
    · exact h.resume hp h1

lemma Waiting.step (hprocs : ∀ q, q ∈ procs) (hL : Locked s) (h : Waiting s) {a : Act P}
    (ht : Timely s a) : Waiting (step procs s a) := by
  cases a with
  | call p c =>
    simp only [Pipe.step]
    split_ifs with hp
    · exact h.pass rfl rfl rfl rfl (by simp [hp]) (by cases c <;> simp [Call.pc])
        (by simp [hp, Owes])
    · exact h
  | go p => exact h.go hprocs hL fun buf i i0 hp => by simpa [Timely, hp] using ht
  | fault p => exact h.go hprocs hL fun buf i i0 hp => by simpa [Timely, hp] using ht
  | kill p =>
    simp only [Pipe.step]
    by_cases hb : (s.pc p).holdsOwn = true
    · rw [if_pos hb]; exact h
    · rw [if_neg hb]
      have hst : ∀ q, (if s.state p = .SLEEPING then Function.update s.state p .RUNNABLE
          else s.state) q = .SLEEPING → s.state q = .SLEEPING := by
        intro q hq
        split_ifs at hq
        · by_cases hqp : q = p
          · subst hqp; simp at hq
          · simpa [Function.update_of_ne hqp] using hq
        · exact hq
      refine ⟨fun q hq => h.asleep q (hst q hq), fun q c hq => ?_⟩
      exact h.reason q c (awaits_congr (by rfl) (hst q) hq)

/-- Every step of the run meets `C`. -/
def Along (procs : List P) (C : St P → Act P → Prop) : St P → List (Act P) → Prop
  | _, [] => True
  | s, a :: acts => C s a ∧ Along procs C (step procs s a) acts

instance decidableAlong (procs : List P) (C : St P → Act P → Prop) [∀ s a, Decidable (C s a)]
    (s : St P) : (acts : List (Act P)) → Decidable (Along procs C s acts)
  | [] => isTrue trivial
  | a :: acts =>
    haveI := decidableAlong procs C (step procs s a) acts
    inferInstanceAs (Decidable (C s a ∧ Along procs C (step procs s a) acts))

lemma waiting_run (hprocs : ∀ q, q ∈ procs) (hL : Locked s) (h : Waiting s) {acts : List (Act P)}
    (ht : Along procs Timely s acts) :
    Locked (run procs s acts) ∧ Waiting (run procs s acts) := by
  induction acts generalizing s with
  | nil => exact ⟨hL, h⟩
  | cons a acts ih => exact ih (hL.step a) (h.step hprocs hL ht.1) ht.2

/-- Nobody sleeps on a pipe that is ready. -/
def NoneReady (s : St P) : Prop :=
  s.lock = none → ∀ q, s.state q = .SLEEPING →
    (s.chan q = some .nread → s.pi.nread = s.pi.nwrite ∧ s.pi.writeopen = true) ∧
    (s.chan q = some .nwrite → s.pi.nwrite = s.pi.nread + 512#32 ∧ s.pi.readopen = true)

instance [Fintype P] (s : St P) : Decidable (NoneReady s) := by
  unfold NoneReady; infer_instance

omit [DecidableEq P] in
lemma Waiting.noneReady (hL : Locked s) (h : Waiting s) : NoneReady s := by
  intro hl q hq
  obtain ⟨c, k, hpc, hch⟩ := h.asleep q hq
  have hcond : Cond c s.pi := by
    rcases h.reason q c ⟨k, Or.inr (Or.inr (Or.inr ⟨hpc, hq⟩))⟩ with h1 | ⟨r, hr⟩
    · exact h1
    · have := hL.none_of hl r
      rw [owes_locked hr] at this
      cases this
  constructor
  · intro hc
    rw [hch] at hc
    cases hc
    exact hcond
  · intro hc
    rw [hch] at hc
    cases hc
    exact hcond

/-- **Nobody sleeps on a pipe that is ready**, in every run in which no writer finds itself killed
after it has stored bytes since it last took the lock. -/
theorem none_sleeps_on_ready_pipe (n : ℕ) (data : ℕ → ByteMem.Byte) (killed : Fin n → Bool)
    (acts : List (Act (Fin n)))
    (h : Along (List.finRange n) Timely (init data killed) acts) :
    NoneReady (run (List.finRange n) (init data killed) acts) := by
  obtain ⟨h1, h2⟩ := waiting_run (fun q => List.mem_finRange q) locked_init waiting_init h
  exact h2.noneReady h1

def reader : Fin 2 := ⟨0, Nat.zero_lt_two⟩

def writer : Fin 2 := ⟨1, Nat.one_lt_two⟩

/-- The reader reads from an empty pipe and falls asleep; the writer then stores the first of two
bytes and stands before its next look at `killed`. -/
def firstByte : List (Act (Fin 2)) :=
  .call reader (.read 1) :: List.replicate 6 (.go reader) ++
    .call writer (.write [1, 2]) :: List.replicate 5 (.go writer)

/-- Left alone, the writer stores both bytes and wakes the reader. -/
theorem reader_woken :
    Along (List.finRange 2) Timely (init (fun _ => 0) (fun _ => false))
      (firstByte ++ List.replicate 7 (.go 1)) ∧
    NoneReady (run (List.finRange 2) (init (fun _ => 0) (fun _ => false))
      (firstByte ++ List.replicate 7 (.go 1))) := by
  have h : Along (List.finRange 2) Timely (init (fun _ => 0) (fun _ => false))
      (firstByte ++ List.replicate 7 (.go 1)) := by decide +kernel
  exact ⟨h, none_sleeps_on_ready_pipe 2 _ _ _ h⟩

/-- Killed between its two bytes, the writer returns; the reader sleeps on, with a byte in the
pipe. -/
theorem killed_writer_leaves_sleeper :
    ¬ NoneReady (run (List.finRange 2) (init (fun _ => 0) (fun _ => false))
      (firstByte ++ [.kill 1, .go 1])) := by
  decide +kernel

end Xv6.Pipe
