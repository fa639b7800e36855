import Xv6.Log
import Mathlib.Algebra.BigOperators.Group.Finset.Basic
import Mathlib.Algebra.Order.BigOperators.Group.Finset

/-!
Admission to the log. `begin_op` lets operations in as long as all of them together may log
`LOGSIZE` blocks, but a log of `LOGSIZE` blocks, header included, takes one less, and `log_write`
wants one more free even for a block that is already there. So operations that keep to their
allowance can bring the kernel down, and they do exactly when a write comes after the group has
logged `log.size - 1` different blocks.
-/

namespace Xv6.Log

variable {L : Layout} {s : St} {o b : ℕ} {d : Block}

/-! ### Who may do what when -/

/-- A thread is in `commit` or about to leave `end_op`. -/
def Pc.busy : Pc → Bool
  | .writeLog _ | .writeHead | .install _ | .clear | .finish => true
  | _ => false

/-- A thread is in `recover_from_log`. -/
def Pc.recovering : Pc → Bool
  | .readHead | .reinstall _ | .reclear => true
  | _ => false

/-- `outstanding` counts the operations under way; while a thread commits or recovers there are
none. -/
structure Gate (s : St) : Prop where
  count : s.outstanding = s.active.card
  busy : s.pc.busy = true → s.committing = true
  idle : s.committing = true → s.active = ∅
  down : s.pc.recovering = true → s.active = ∅

lemma gate_boot (disk : Disk) : Gate (boot disk) :=
  ⟨rfl, fun h => by simp [boot, Pc.busy] at h, fun _ => rfl, fun _ => rfl⟩

lemma Gate.not_committing (h : Gate s) (ho : o ∈ s.active) : s.committing = false := by
  by_contra hc
  rw [h.idle (by simpa using hc)] at ho
  exact absurd ho (Finset.notMem_empty o)

lemma Gate.run_of_active (h : Gate s) (hup : s.pc.up = true) (ho : o ∈ s.active) :
    s.pc = .run := by
  have hb : s.pc.busy = false := by
    by_contra hc
    have := h.busy (by simpa using hc)
    rw [h.not_committing ho] at this
    cases this
  cases hp : s.pc <;> simp_all [Pc.up, Pc.busy]

lemma Gate.outstanding_pos (h : Gate s) (ho : o ∈ s.active) : 0 < s.outstanding := by
  rw [h.count]
  exact Finset.card_pos.mpr ⟨o, ho⟩

lemma Gate.begin_op (h : Gate s) (hup : s.pc.up = true) (ho : o ∉ s.active) :
    Gate (begin_op o s) := by
  unfold Log.begin_op
  split_ifs with hc hl
  · exact h
  · exact h
  · refine ⟨?_, h.busy, fun hc' => absurd hc' hc, fun hr => ?_⟩
    · simp only [Finset.card_insert_of_notMem ho, h.count]
    · cases hp : s.pc <;> simp_all [Pc.up, Pc.recovering]

lemma Gate.log_write (h : Gate s) : Gate (log_write L o b d s) := by
  unfold Log.log_write
  dsimp only
  by_cases h1 : LOGSIZE ≤ s.lh.length ∨ L.size ≤ s.lh.length + 1
  · rw [if_pos h1]
    exact ⟨h.count, fun hb => by simp [Pc.busy] at hb, h.idle, fun hr => by simp [Pc.recovering] at hr⟩
  rw [if_neg h1]
  by_cases h2 : s.outstanding < 1
  · rw [if_pos h2]
    exact ⟨h.count, fun hb => by simp [Pc.busy] at hb, h.idle, fun hr => by simp [Pc.recovering] at hr⟩
  rw [if_neg h2]
  exact ⟨h.count, h.busy, h.idle, h.down⟩

lemma Gate.end_op (h : Gate s) (ho : o ∈ s.active) : Gate (end_op o s) := by
  have hcard : s.outstanding - 1 = (s.active.erase o).card := by
    rw [Finset.card_erase_of_mem ho, h.count]
  have hnc := h.not_committing ho
  unfold Log.end_op
  dsimp only
  rw [if_neg (by simp [hnc])]
  by_cases hz : s.outstanding - 1 = 0
  · rw [if_pos hz]
    have hempty : s.active.erase o = ∅ := Finset.card_eq_zero.mp (by rw [← hcard, hz])
    exact ⟨hcard, fun _ => rfl, fun _ => hempty, fun _ => hempty⟩
  · rw [if_neg hz]
    exact ⟨hcard, h.busy, fun hc => by simp [hnc] at hc, fun hr => by rw [h.down hr]; rfl⟩

lemma Gate.go (h : Gate s) : Gate (go L s) := by
  unfold Log.go
  cases hp : s.pc with
  | writeLog t =>
    have hb := h.busy (by rw [hp]; rfl)
    dsimp only
    split_ifs <;> exact ⟨h.count, fun _ => hb, h.idle, fun _ => h.idle hb⟩
  | writeHead =>
    have hb := h.busy (by rw [hp]; rfl)
    exact ⟨h.count, fun _ => hb, h.idle, fun _ => h.idle hb⟩
  | install t =>
    have hb := h.busy (by rw [hp]; rfl)
    dsimp only
    split_ifs <;> exact ⟨h.count, fun _ => hb, h.idle, fun _ => h.idle hb⟩
  | clear =>
    have hb := h.busy (by rw [hp]; rfl)
    exact ⟨h.count, fun _ => hb, h.idle, fun _ => h.idle hb⟩
  | finish =>
    exact ⟨h.count, fun hb => by simp [Pc.busy] at hb, fun hc => by simp at hc,
      fun hr => by simp [Pc.recovering] at hr⟩
  | readHead =>
    have hd := h.down (by rw [hp]; rfl)
    exact ⟨h.count, fun hb => by simp [Pc.busy] at hb, h.idle, fun _ => hd⟩
  | reinstall t =>
    have hd := h.down (by rw [hp]; rfl)
    dsimp only
    split_ifs <;> exact ⟨h.count, fun hb => by simp [Pc.busy] at hb, h.idle, fun _ => hd⟩
  | reclear =>
    have hd := h.down (by rw [hp]; rfl)
    exact ⟨h.count, fun hb => by simp [Pc.busy] at hb, h.idle, fun _ => hd⟩
  | run => exact h
  | panic p => exact h

lemma Gate.step (h : Gate s) (a : Act) : Gate (step L s a) := by
  cases a with
  | begin_op o =>
    simp only [Log.step]
    split_ifs with hc
    · exact h.begin_op hc.1 hc.2
    · exact h
  | log_write o b d =>
    simp only [Log.step]
    split_ifs
    · exact h.log_write
    · exact h
  | end_op o =>
    simp only [Log.step]
    split_ifs with hc
    · exact h.end_op hc.2
    · exact h
  | go => exact h.go
  | crash =>
    exact ⟨rfl, fun hb => by simp [Log.step, crash, Pc.busy] at hb, fun _ => rfl, fun _ => rfl⟩

/-! ### The header in memory -/

/-- Until the header is on disk, `lh` lists the blocks of the group, each once. -/
def Logged (s : St) : Prop := s.lh.Nodup ∧ ∀ b, b ∈ s.lh ↔ b ∈ s.group.map Prod.fst

/-- What `lh` holds at each point. -/
def Tracks (s : St) : Prop :=
  match s.pc with
  | .run | .writeLog _ | .writeHead | .finish => Logged s
  | .panic _ => True
  | _ => s.group = []

lemma logged_nil (h1 : s.lh = []) (h2 : s.group = []) : Logged s := by
  simp [Logged, h1, h2]

lemma Tracks.go (h : Tracks s) : Tracks (go L s) := by
  unfold Tracks at h
  unfold Log.go
  cases hp : s.pc with
  | writeLog t =>
    rw [hp] at h
    dsimp only
    split_ifs <;> exact h
  | writeHead => rfl
  | install t =>
    rw [hp] at h
    dsimp only
    split_ifs <;> exact h
  | clear => rw [hp] at h; exact logged_nil rfl h
  | finish => rw [hp] at h; exact h
  | readHead => rw [hp] at h; exact h
  | reinstall t =>
    rw [hp] at h
    dsimp only
    split_ifs <;> exact h
  | reclear => rw [hp] at h; exact logged_nil rfl h
  | run => rw [hp] at h; simpa [Tracks, hp] using h
  | panic p => simp [Tracks, hp]

lemma Logged.log_write (h : Logged s) (hp : s.pc = .run) : Tracks (log_write L o b d s) := by
  unfold Log.log_write
  dsimp only
  by_cases h1 : LOGSIZE ≤ s.lh.length ∨ L.size ≤ s.lh.length + 1
  · rw [if_pos h1]; trivial
  rw [if_neg h1]
  by_cases h2 : s.outstanding < 1
  · rw [if_pos h2]; trivial
  rw [if_neg h2]
  simp only [Tracks, hp, Logged]
  by_cases h3 : b ∈ s.lh
  · rw [if_pos h3]
    refine ⟨h.1, fun c => ?_⟩
    rw [List.map_append, List.mem_append, ← h.2]
    simp only [List.map_cons, List.map_nil, List.mem_singleton]
    exact ⟨Or.inl, fun hc => hc.elim id fun hc => hc ▸ h3⟩
  · rw [if_neg h3]
    refine ⟨List.nodup_append.mpr ⟨h.1, List.nodup_singleton b, ?_⟩, fun c => ?_⟩
    · intro x hx y hy
      rw [List.mem_singleton.mp hy]
      rintro rfl
      exact h3 hx
    · rw [List.map_append, List.mem_append, List.mem_append, ← h.2]
      simp

lemma Tracks.step (hg : Gate s) (h : Tracks s) (a : Act) : Tracks (step L s a) := by
  cases a with
  | begin_op o =>
    simp only [Log.step, Log.begin_op]
    split_ifs <;> exact h
  | log_write o b d =>
    simp only [Log.step]
    split_ifs with hc
    · have hp := hg.run_of_active hc.1 hc.2
      rw [Tracks, hp] at h
      exact Logged.log_write h hp
    · exact h
  | end_op o =>
    simp only [Log.step]
    split_ifs with hc
    · have hp := hg.run_of_active hc.1 hc.2
      rw [Tracks, hp] at h
      simp only [Log.end_op]
      split_ifs
      · trivial
      · exact h
      · exact h
      · simp only [Tracks, hp]
        exact h
    · exact h
  | go => exact h.go
  | crash => rfl

/-! ### When a write is refused -/

/-- The number of different blocks the current group has logged. -/
def St.distinct (s : St) : ℕ := (s.group.map Prod.fst).toFinset.card

lemma Logged.distinct (h : Logged s) : s.distinct = s.lh.length := by
  unfold St.distinct
  rw [← List.toFinset_card_of_nodup h.1]
  congr 1
  ext b
  rw [List.mem_toFinset, List.mem_toFinset, h.2]

/-- Each operation keeps to its allowance of `MAXOPBLOCKS` different blocks. -/
def Within (s : St) : Act → Prop
  | .log_write o b _ => o ∈ s.active → b ∈ s.used o ∨ (s.used o).length < MAXOPBLOCKS
  | _ => True

/-- The step does not end in `panic("too big a transaction")`. -/
def Fits (L : Layout) (s : St) (a : Act) : Prop := (step L s a).pc ≠ .panic .tooBig

/-- A write comes while the group has logged fewer than `log.size - 1` different blocks. -/
def Room (L : Layout) (s : St) : Act → Prop
  | .log_write o _ _ => s.pc.up = true → o ∈ s.active → s.distinct + 1 < L.size
  | _ => True

/-- An operation is let in only if all of them together leave two blocks of the log alone. -/
def Reserved (L : Layout) (s : St) : Act → Prop
  | .begin_op o => s.pc.up = true → o ∉ s.active → s.committing = false →
      s.lh.length + (s.outstanding + 1) * MAXOPBLOCKS ≤ LOGSIZE →
      s.lh.length + (s.outstanding + 1) * MAXOPBLOCKS + 2 ≤ L.size
  | _ => True

lemma fits_of_not_write {a : Act} (hp : s.pc ≠ .panic .tooBig) (ha : ∀ o b d, a ≠ .log_write o b d) :
    Fits L s a := by
  unfold Fits
  cases a with
  | begin_op o =>
    simp only [step, begin_op]
    split_ifs <;> exact hp
  | log_write o b d => exact absurd rfl (ha o b d)
  | end_op o =>
    simp only [step, end_op]
    split_ifs <;> first | exact hp | simp
  | go =>
    simp only [step, go]
    split <;> (try split_ifs) <;> first | exact hp | simp
  | crash => simp [step, crash]

/-- A write is refused exactly when there is no room for it. -/
lemma fits_iff_room (hL : L.size ≤ LOGSIZE) (hg : Gate s) (h : Tracks s)
    (hp : s.pc ≠ .panic .tooBig) (a : Act) : Fits L s a ↔ Room L s a := by
  cases a with
  | log_write o b d =>
    unfold Fits Room
    simp only [step]
    by_cases hc : s.pc.up = true ∧ o ∈ s.active
    · rw [if_pos hc]
      have hrun := hg.run_of_active hc.1 hc.2
      have ho := hg.outstanding_pos hc.2
      rw [Tracks, hrun] at h
      have hd := Logged.distinct h
      simp only [log_write]
      constructor
      · intro hf _ _
        by_contra hn
        rw [if_pos (Or.inr (by omega))] at hf
        exact hf rfl
      · intro hr
        have := hr hc.1 hc.2
        rw [if_neg (by omega), if_neg (by omega)]
        exact hp
    · rw [if_neg hc]
      exact ⟨fun _ h1 h2 => absurd ⟨h1, h2⟩ hc, fun _ => hp⟩
  | begin_op o => exact ⟨fun _ => trivial, fun _ => fits_of_not_write hp (by simp)⟩
  | end_op o => exact ⟨fun _ => trivial, fun _ => fits_of_not_write hp (by simp)⟩
  | go => exact ⟨fun _ => trivial, fun _ => fits_of_not_write hp (by simp)⟩
  | crash => exact ⟨fun _ => trivial, fun _ => fits_of_not_write hp (by simp)⟩

lemma along_fits_iff (hL : L.size ≤ LOGSIZE) (hg : Gate s) (h : Tracks s)
    (hp : s.pc ≠ .panic .tooBig) (acts : List Act) :
    Along L (Fits L) s acts ↔ Along L (Room L) s acts := by
  induction acts generalizing s with
  | nil => exact Iff.rfl
  | cons a acts ih =>
    simp only [Along]
    rw [fits_iff_room hL hg h hp a]
    refine and_congr_right fun hr => ?_
    exact ih (hg.step a) (h.step hg a) ((fits_iff_room hL hg h hp a).mpr hr)

/-! ### A reservation that is enough -/

/-- The blocks the log may have to take: those it has and what is left of the allowances. -/
def demand (s : St) : ℕ := s.lh.length + ∑ o ∈ s.active, (MAXOPBLOCKS - (s.used o).length)

/-- The operations under way can be served, and what they have logged is in the header. -/
structure Served (L : Layout) (s : St) : Prop where
  fits : s.active.Nonempty → demand s + 2 ≤ L.size
  mem : ∀ o ∈ s.active, ∀ b ∈ s.used o, b ∈ s.lh

lemma served_of_empty (h : s.active = ∅) : Served L s :=
  ⟨fun hn => by simp [h] at hn, fun o ho => by simp [h] at ho⟩

lemma Served.begin_op (hg : Gate s) (h : Served L s) (hup : s.pc.up = true) (ho : o ∉ s.active)
    (hr : Reserved L s (.begin_op o)) : Served L (begin_op o s) := by
  unfold Log.begin_op
  split_ifs with hc hl
  · exact h
  · exact h
  have hne : ∀ x ∈ s.active, x ≠ o := fun x hx hxo => ho (hxo ▸ hx)
  refine ⟨fun _ => ?_, fun x hx b hb => ?_⟩
  · have hres := hr hup ho (by simpa using hc) (by omega)
    unfold demand
    simp only
    rw [Finset.sum_insert ho, Function.update_self]
    have hsum : ∑ x ∈ s.active, (MAXOPBLOCKS - (Function.update s.used o [] x).length) ≤
        ∑ _x ∈ s.active, MAXOPBLOCKS :=
      Finset.sum_le_sum fun x _ => Nat.sub_le _ _
    rw [Finset.sum_const_nat fun _ _ => rfl, ← hg.count] at hsum
    rw [Nat.add_mul, Nat.one_mul] at hres
    simp only [List.length_nil, Nat.sub_zero]
    omega
  · simp only at hx hb ⊢
    rcases Finset.mem_insert.mp hx with rfl | hx
    · simp at hb
    · rw [Function.update_of_ne (hne x hx)] at hb
      exact h.mem x hx b hb

/-- A write within the allowance uses up what it asks for. -/
lemma Served.log_write (hL : L.size ≤ LOGSIZE) (hg : Gate s) (h : Served L s) (ho : o ∈ s.active)
    (hw : b ∈ s.used o ∨ (s.used o).length < MAXOPBLOCKS) : Served L (log_write L o b d s) := by
  have hfit := h.fits ⟨o, ho⟩
  have hout := hg.outstanding_pos ho
  have hlen : s.lh.length + 2 ≤ L.size := by unfold demand at hfit; omega
  simp only [Log.log_write]
  rw [if_neg (by omega), if_neg (by omega)]
  refine ⟨fun _ => le_trans ?_ hfit, fun x hx c hc => ?_⟩
  · unfold demand
    simp only
    rw [← Finset.add_sum_erase _ _ ho, ← Finset.add_sum_erase _ _ ho, Function.update_self]
    have hrest : ∑ x ∈ s.active.erase o, (MAXOPBLOCKS - (Function.update s.used o
        (if b ∈ s.used o then s.used o else s.used o ++ [b]) x).length) =
        ∑ x ∈ s.active.erase o, (MAXOPBLOCKS - (s.used x).length) :=
      Finset.sum_congr rfl fun x hx => by rw [Function.update_of_ne (Finset.ne_of_mem_erase hx)]
    rw [hrest]
    by_cases hb : b ∈ s.used o
    · rw [if_pos hb, if_pos (h.mem o ho b hb)]
    · have hlt := hw.resolve_left hb
      rw [if_neg hb, List.length_append, List.length_singleton]
      split_ifs
      · omega
      · rw [List.length_append, List.length_singleton]; omega
  · have hsub : ∀ c ∈ s.lh, c ∈ (if b ∈ s.lh then s.lh else s.lh ++ [b]) := by
      intro c hc
      split_ifs
      · exact hc
      · exact List.mem_append_left _ hc
    have hb : b ∈ (if b ∈ s.lh then s.lh else s.lh ++ [b]) := by
      split_ifs with hb
      · exact hb
      · simp
    simp only at hx hc ⊢
    by_cases hxo : x = o
    · subst hxo
      rw [Function.update_self] at hc
      split_ifs at hc with hbu
      · exact hsub c (h.mem x hx c hc)
      · rcases List.mem_append.mp hc with hc | hc
        · exact hsub c (h.mem x hx c hc)
        · rw [List.mem_singleton.mp hc]; exact hb
    · rw [Function.update_of_ne hxo] at hc
      exact hsub c (h.mem x hx c hc)

lemma Served.end_op (h : Served L s) : Served L (end_op o s) := by
  have key : ∀ t : St, t.lh = s.lh → t.used = s.used → t.active = s.active.erase o →
      Served L t := by
    intro t h1 h2 h3
    refine ⟨fun hn => ?_, fun x hx b hb => ?_⟩
    · rw [h3] at hn
      obtain ⟨x, hx⟩ := hn
      refine le_trans (Nat.add_le_add_right ?_ 2) (h.fits ⟨x, Finset.mem_of_mem_erase hx⟩)
      unfold demand
      rw [h1, h2, h3]
      exact Nat.add_le_add_left (Finset.sum_le_sum_of_subset (Finset.erase_subset _ _)) _
    · rw [h3] at hx
      rw [h2] at hb
      rw [h1]
      exact h.mem x (Finset.mem_of_mem_erase hx) b hb
  simp only [Log.end_op]
  split_ifs <;> exact key _ rfl rfl rfl

lemma Served.go (hg : Gate s) (h : Served L s) : Served L (go L s) := by
  by_cases hb : s.pc.busy = true
  · have hact : (Log.go L s).active = s.active := by
      unfold Log.go
      split <;> (try split_ifs) <;> rfl
    exact served_of_empty (hact.trans (hg.idle (hg.busy hb)))
  by_cases hr : s.pc.recovering = true
  · have hact : (Log.go L s).active = s.active := by
      unfold Log.go
      split <;> (try split_ifs) <;> rfl
    exact served_of_empty (hact.trans (hg.down hr))
  unfold Log.go
  cases hp : s.pc <;> simp_all [Pc.busy, Pc.recovering]

lemma Served.step (hL : L.size ≤ LOGSIZE) (hg : Gate s) (h : Served L s) {a : Act}
    (hw : Within s a) (hr : Reserved L s a) : Served L (step L s a) := by
  cases a with
  | begin_op o =>
    simp only [Log.step]
    split_ifs with hc
    · exact h.begin_op hg hc.1 hc.2 hr
    · exact h
  | log_write o b d =>
    simp only [Log.step]
    split_ifs with hc
    · exact h.log_write hL hg hc.2 (hw hc.2)
    · exact h
  | end_op o =>
    simp only [Log.step]
    split_ifs with hc
    · exact h.end_op
    · exact h
  | go => exact h.go hg
  | crash => exact served_of_empty rfl

lemma Served.room (hg : Gate s) (ht : Tracks s) (h : Served L s) (a : Act) : Room L s a := by
  cases a with
  | log_write o b d =>
    intro hup ho
    have hrun := hg.run_of_active hup ho
    rw [Tracks, hrun] at ht
    have hfit := h.fits ⟨o, ho⟩
    rw [Logged.distinct ht]
    unfold demand at hfit
    omega
  | begin_op o => trivial
  | end_op o => trivial
  | go => trivial
  | crash => trivial

lemma along_room (hL : L.size ≤ LOGSIZE) (hg : Gate s) (ht : Tracks s) (h : Served L s)
    {acts : List Act} (hw : Along L Within s acts) (hr : Along L (Reserved L) s acts) :
    Along L (Room L) s acts := by
  induction acts generalizing s with
  | nil => trivial
  | cons a acts ih =>
    exact ⟨h.room hg ht a, ih (hg.step a) (ht.step hg a) (h.step hL hg hw.1 hr.1) hw.2 hr.2⟩

/-- **Admission to the log.** With the log `mkfs` lays out, and operations that keep to their
allowance: no write of the run is refused if and only if each comes while its group has logged
fewer than `log.size - 1` different blocks, and this is so whenever `begin_op` leaves two blocks
of the log unreserved. -/
theorem log_admission (disk : Disk) (acts : List Act)
    (hw : Along mkfsLayout Within (boot disk) acts) :
    (Along mkfsLayout (Fits mkfsLayout) (boot disk) acts ↔
      Along mkfsLayout (Room mkfsLayout) (boot disk) acts) ∧
    (Along mkfsLayout (Reserved mkfsLayout) (boot disk) acts →
      Along mkfsLayout (Fits mkfsLayout) (boot disk) acts) := by
  have hiff := along_fits_iff (L := mkfsLayout) le_rfl (gate_boot disk)
    (show Tracks (boot disk) from rfl) (by simp [boot]) acts
  exact ⟨hiff, fun hr => hiff.mpr (along_room le_rfl (gate_boot disk)
    (show Tracks (boot disk) from rfl) (served_of_empty rfl) hw hr)⟩

instance (s : St) (a : Act) : Decidable (Within s a) := by
  unfold Within; split <;> infer_instance

instance decidableAlong (L : Layout) (C : St → Act → Prop) [∀ s a, Decidable (C s a)] (s : St) :
    (acts : List Act) → Decidable (Along L C s acts)
  | [] => isTrue trivial
  | a :: acts =>
    haveI := decidableAlong L C (step L s a) acts
    inferInstanceAs (Decidable (C s a ∧ Along L C (step L s a) acts))

/-- Recovery from a clean log, then three operations that are let in together. -/
def threeBegin : List Act := [.go, .go, .go, .begin_op 0, .begin_op 1, .begin_op 2]

/-- Operation `o` logs its full allowance of blocks. -/
def fullAllowance (o : ℕ) : List Act :=
  (List.range MAXOPBLOCKS).map fun i => .log_write o (100 + 10 * o + i) fun _ => 0

/-- One operation with its full allowance is within every limit. -/
theorem log_admission_one :
    Along mkfsLayout Within (boot fun _ _ => 0) (threeBegin ++ fullAllowance 0) ∧
    (Along mkfsLayout (Fits mkfsLayout) (boot fun _ _ => 0) (threeBegin ++ fullAllowance 0) ↔
      Along mkfsLayout (Room mkfsLayout) (boot fun _ _ => 0) (threeBegin ++ fullAllowance 0)) := by
  have h : Along mkfsLayout Within (boot fun _ _ => 0) (threeBegin ++ fullAllowance 0) := by
    decide +kernel
  exact ⟨h, (log_admission _ _ h).1⟩

/-- Three operations that use their full allowance at once: the last write panics. -/
theorem three_full_operations_panic :
    Along mkfsLayout Within (boot fun _ _ => 0)
      (threeBegin ++ fullAllowance 0 ++ fullAllowance 1 ++ fullAllowance 2) ∧
    (run mkfsLayout (boot fun _ _ => 0)
      (threeBegin ++ fullAllowance 0 ++ fullAllowance 1 ++ fullAllowance 2)).pc =
        .panic .tooBig := by
  constructor <;> decide +kernel

end Xv6.Log
