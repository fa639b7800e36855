import Xv6.PipeReady

/-!
A pipe is a queue. The counters run free modulo `2 ^ 32`, and `PIPESIZE` divides that, so a byte
keeps its slot when they wrap.
-/

namespace Xv6.Pipe

open Xv6.ByteMem

variable {P : Type} [DecidableEq P] {procs : List P} {p : P} {s : St P}

/-! ### The ring buffer -/

/-- The number of bytes in the pipe. -/
def PipeData.count (d : PipeData) : ℕ := (d.nwrite - d.nread).toNat

/-- The bytes in the pipe, `data[nread..nwrite)`. -/
def PipeData.pending (d : PipeData) : List Byte :=
  (List.range d.count).map fun k => d.data ((d.nread.toNat + k) % PIPESIZE)

variable {d : PipeData}

lemma toNat_one : (1 : BitVec 32).toNat = 1 := rfl

lemma count_eq : d.count = (2 ^ 32 - d.nread.toNat + d.nwrite.toNat) % 2 ^ 32 := by
  unfold PipeData.count
  rw [BitVec.toNat_sub]

lemma empty_iff : d.empty ↔ d.count = 0 := by
  have h1 := d.nread.isLt
  have h2 := d.nwrite.isLt
  rw [count_eq, PipeData.empty, ← BitVec.toNat_inj]
  omega

lemma full_iff : d.full ↔ d.count = PIPESIZE := by
  have h1 := d.nread.isLt
  have h2 := d.nwrite.isLt
  rw [count_eq, PipeData.full, ← BitVec.toNat_inj, BitVec.toNat_add, PIPESIZE]
  simp only [BitVec.toNat_ofNat]
  omega

lemma push_pending (ch : Byte) (h : d.count < PIPESIZE) :
    (d.push ch).count = d.count + 1 ∧ (d.push ch).pending = d.pending ++ [ch] := by
  have h1 := d.nread.isLt
  have h2 := d.nwrite.isLt
  have hcount : (d.push ch).count = d.count + 1 := by
    rw [count_eq, PIPESIZE] at h
    rw [count_eq, count_eq]
    simp only [PipeData.push, BitVec.toNat_add, toNat_one]
    omega
  refine ⟨hcount, ?_⟩
  unfold PipeData.pending
  rw [hcount, List.range_succ, List.map_append, List.map_singleton]
  have hslot : (d.nread.toNat + d.count) % PIPESIZE = d.nwrite.toNat % PIPESIZE := by
    rw [count_eq, PIPESIZE]
    omega
  congr 1
  · refine List.map_congr_left fun k hk => ?_
    have hk := List.mem_range.mp hk
    simp only [PipeData.push]
    refine Function.update_of_ne ?_ _ _
    rw [← hslot]
    rw [PIPESIZE] at h ⊢
    omega
  · simp only [PipeData.push, hslot, Function.update_self]

lemma pop_pending (h : 0 < d.count) :
    d.pop.count + 1 = d.count ∧ d.pending = d.front :: d.pop.pending := by
  have h1 := d.nread.isLt
  have h2 := d.nwrite.isLt
  have hcount : d.pop.count + 1 = d.count := by
    rw [count_eq] at h
    rw [count_eq, count_eq]
    simp only [PipeData.pop, BitVec.toNat_add, toNat_one]
    omega
  refine ⟨hcount, ?_⟩
  unfold PipeData.pending
  rw [← hcount, List.range_succ_eq_map, List.map_cons, List.map_map]
  congr 1
  refine List.map_congr_left fun k hk => ?_
  simp only [PipeData.pop, Function.comp_apply, BitVec.toNat_add, toNat_one]
  congr 1
  rw [PIPESIZE]
  omega

/-! ### The queue -/

/-- The bytes stored are those delivered and then those in the pipe, and a reader about to return
`0` has found the pipe empty and its write end closed. -/
structure Fifo (s : St P) : Prop where
  bound : s.pi.count ≤ PIPESIZE
  queue : s.stored = s.delivered ++ s.pi.pending
  zero : ∀ p n todo, s.pc p = .rDone n 0 todo → 0 < n →
    s.pi.empty ∧ s.pi.writeopen = false

omit [DecidableEq P] in
lemma fifo_init {data : ℕ → Byte} {killed : P → Bool} : Fifo (init data killed : St P) := by
  refine ⟨?_, ?_, fun p n todo h => by simp [init] at h⟩
  · simp [init, PipeData.count]
  · simp [init, PipeData.pending, PipeData.count]

lemma Fifo.pass {s' : St P} {c : Pc P} (h : Fifo s) (hpi : s'.pi = s.pi)
    (hs : s'.stored = s.stored) (hd : s'.delivered = s.delivered)
    (hpc : ∀ q, q ≠ p → s'.pc q = s.pc q) (hp : s'.pc p = c)
    (hc : ∀ n todo, c = .rDone n 0 todo → 0 < n → s.pi.empty ∧ s.pi.writeopen = false) :
    Fifo s' := by
  refine ⟨by rw [hpi]; exact h.bound, by rw [hs, hd, hpi]; exact h.queue, fun q n todo hq hn => ?_⟩
  rw [hpi]
  by_cases hqp : q = p
  · subst hqp
    exact hc n todo (hp.symm.trans hq) hn
  · rw [hpc q hqp] at hq
    exact h.zero q n todo hq hn

lemma Fifo.goto {c : Pc P} (h : Fifo s)
    (hc : ∀ n todo, c = .rDone n 0 todo → 0 < n → s.pi.empty ∧ s.pi.writeopen = false) :
    Fifo (s.goto p c) :=
  h.pass rfl rfl rfl (fun _ hq => goto_pc_ne s c hq) (goto_pc_self s p c) hc

lemma Fifo.scan {r : P} {c : Chan} {next : Pc P} (h : Fifo s)
    (hc : ∀ n todo, next = .rDone n 0 todo → 0 < n → s.pi.empty ∧ s.pi.writeopen = false) :
    Fifo (s.scan p r c next) := by
  unfold St.scan
  split_ifs
  · exact h
  · refine h.pass ?_ ?_ ?_ (fun q hq => ?_) (goto_pc_self _ p next) hc
    · simp
    · simp
    · simp
    · rw [goto_pc_ne _ _ hq, wake_pc]

lemma Fifo.go (hL : Locked s) (h : Fifo s) : Fifo (go procs p true s) := by
  have hk := hL.know p
  have hne : ∀ {r n todo}, (s.pc p).locked = true → r ≠ p → s.pc r ≠ .rDone n 0 todo := by
    intro r n todo hp hr hc
    have := hL.only hp hr
    rw [hc] at this
    cases this
  unfold Pipe.go
  cases hp : s.pc p with
  | user => exact h
  | wAcquire buf i =>
    dsimp only
    unfold St.acquire
    cases hl : s.lock with
    | none => exact h.pass rfl rfl rfl (fun q hq => goto_pc_ne s _ hq) (goto_pc_self s p _) (by simp)
    | some x => exact h
  | wTest buf i i0 =>
    dsimp only
    split_ifs
    · exact h.goto (by simp)
    · exact h.pass rfl rfl rfl (fun q hq => goto_pc_ne s _ hq) (goto_pc_self s p _) (by simp)
    · exact h.goto (by simp)
  | wKilled buf i i0 =>
    dsimp only
    split_ifs
    · exact h.pass rfl rfl rfl (fun q hq => goto_pc_ne s _ hq) (goto_pc_self s p _) (by simp)
    · exact h.goto (by simp)
  | wByte buf i i0 =>
    simp only [reduceIte]
    split_ifs with h1
    · exact h.goto (by simp)
    · have hlt : s.pi.count < PIPESIZE := by
        rw [full_iff] at h1
        have := h.bound
        omega
      obtain ⟨h2, h3⟩ := push_pending (buf.getD i 0) hlt
      refine ⟨?_, ?_, fun q n todo hq hn => ?_⟩
      · simp only [h2]; omega
      · simp only [h3, goto_delivered]
        rw [h.queue, List.append_assoc]
      · by_cases hqp : q = p
        · subst hqp; simp at hq
        · simp only [goto_pc_ne s _ hqp] at hq
          exact absurd hq (hne (by rw [hp]; rfl) hqp)
  | wFull buf i todo =>
    cases todo with
    | nil => exact h.goto (by simp)
    | cons r todo => exact h.scan (by simp)
  | wDone i todo =>
    cases todo with
    | nil => exact h.pass rfl rfl rfl (fun q hq => goto_pc_ne s _ hq) (goto_pc_self s p _) (by simp)
    | cons r todo => exact h.scan (by simp)
  | rAcquire n =>
    dsimp only
    unfold St.acquire
    cases hl : s.lock with
    | none => exact h.pass rfl rfl rfl (fun q hq => goto_pc_ne s _ hq) (goto_pc_self s p _) (by simp)
    | some x => exact h
  | rTest n =>
    dsimp only
    split_ifs
    · exact h.goto (by simp)
    · exact h.goto (by simp)
  | rKilled n =>
    dsimp only
    split_ifs
    · exact h.pass rfl rfl rfl (fun q hq => goto_pc_ne s _ hq) (goto_pc_self s p _) (by simp)
    · exact h.goto (by simp)
  | rCopy n i =>
    rw [hp] at hk
    simp only [reduceIte]
    split_ifs with h1
    · have hpos : 0 < s.pi.count := by
        have := h1.2
        rw [empty_iff] at this
        omega
      obtain ⟨h2, h3⟩ := pop_pending hpos
      refine ⟨?_, ?_, fun q m todo hq hn => ?_⟩
      · have := h.bound
        simp only; omega
      · simp only [goto_stored]
        rw [h.queue, h3, List.append_assoc]
        rfl
      · by_cases hqp : q = p
        · subst hqp; simp at hq
        · simp only [goto_pc_ne s _ hqp] at hq
          exact absurd hq (hne (by rw [hp]; rfl) hqp)
    · -- the loop ends: with nothing read for a positive size, the pipe was empty throughout
      refine h.goto fun m todo hm hn => ?_
      simp only [Pc.rDone.injEq] at hm
      obtain ⟨rfl, rfl, -⟩ := hm
      have he : s.pi.empty := by
        by_contra hc
        exact h1 ⟨hn, hc⟩
      refine ⟨he, ?_⟩
      by_contra hc
      exact hk rfl ⟨he, by simpa using hc⟩
  | rDone n i todo =>
    cases todo with
    | nil => exact h.pass rfl rfl rfl (fun q hq => goto_pc_ne s _ hq) (goto_pc_self s p _) (by simp)
    | cons r todo =>
      refine h.scan fun m todo' hm hn => ?_
      simp only [Pc.rDone.injEq] at hm
      obtain ⟨rfl, rfl, -⟩ := hm
      exact h.zero p n _ hp hn
  | cAcquire w =>
    dsimp only
    cases hl : s.lock with
    | none =>
      have hcnt : (s.pi.close w).count = s.pi.count ∧ (s.pi.close w).pending = s.pi.pending := by
        cases w <;> exact ⟨rfl, rfl⟩
      refine ⟨?_, ?_, fun q n todo hq hn => ?_⟩
      · simp only [hcnt.1]; exact h.bound
      · simp only [hcnt.2]; exact h.queue
      · by_cases hqp : q = p
        · subst hqp; simp at hq
        · simp only [goto_pc_ne s _ hqp] at hq
          have := hL.none_of hl q
          rw [hq] at this
          cases this
    | some x => exact h
  | cDone w todo =>
    cases todo with
    | nil => exact h.pass rfl rfl rfl (fun q hq => goto_pc_ne s _ hq) (goto_pc_self s p _) (by simp)
    | cons r todo => exact h.scan (by simp)
  | sLock c k => exact h.goto (by simp)
  | sRelease c k =>
    exact h.pass rfl rfl rfl (fun q hq => goto_pc_ne s _ hq) (goto_pc_self s p _) (by simp)
  | sSched c k =>
    exact h.pass rfl rfl rfl (fun q hq => goto_pc_ne s _ hq) (goto_pc_self s p _) (by simp)
  | asleep c k =>
    dsimp only
    split_ifs
    · exact h
    · exact h.pass rfl rfl rfl (fun q hq => goto_pc_ne s _ hq) (goto_pc_self s p _)
        (by cases k <;> simp [Resume.pc])

/-- The step makes no failing copy. -/
def Copies : Act P → Prop
  | .fault _ => False
  | _ => True

instance (a : Act P) : Decidable (Copies a) :=
  match a with
  | .fault _ => isFalse id
  | .call _ _ | .go _ | .kill _ => isTrue trivial

lemma Fifo.step (hL : Locked s) (h : Fifo s) {a : Act P} (ha : Copies a) :
    Fifo (step procs s a) := by
  cases a with
  | call p c =>
    simp only [Pipe.step]
    split_ifs
    · exact h.goto (by cases c <;> simp [Call.pc])
    · exact h
  | go p => exact h.go hL
  | fault p => exact ha.elim
  | kill p =>
    simp only [Pipe.step]
    split_ifs <;> exact ⟨h.bound, h.queue, h.zero⟩

lemma fifo_run (hL : Locked s) (h : Fifo s) {acts : List (Act P)} (ha : ∀ a ∈ acts, Copies a) :
    Fifo (run procs s acts) := by
  induction acts generalizing s with
  | nil => exact h
  | cons a acts ih =>
    refine ih (hL.step a) (h.step hL (ha a List.mem_cons_self)) fun b hb => ?_
    exact ha b (List.mem_cons_of_mem a hb)

/-- **A pipe is a queue**, in every run in which the copies to and from user memory succeed: what is
delivered and then what is in the pipe is what was stored, there are never more than `PIPESIZE`
bytes between the counters, and a read returns `0` only at the end of the file. -/
theorem pipe_fifo (n : ℕ) (data : ℕ → Byte) (killed : Fin n → Bool) (acts : List (Act (Fin n)))
    (ha : ∀ a ∈ acts, Copies a) :
    let s := run (List.finRange n) (init data killed) acts
    s.delivered ++ s.pi.pending = s.stored ∧ (s.pi.nwrite - s.pi.nread).toNat ≤ PIPESIZE ∧
      ∀ p m todo, s.pc p = .rDone m 0 todo → 0 < m →
        s.pi.nread = s.pi.nwrite ∧ s.pi.writeopen = false := by
  have h : Fifo (run (List.finRange n) (init data killed) acts) :=
    fifo_run locked_init fifo_init ha
  exact ⟨h.queue.symm, h.bound, h.zero⟩

/-- The reader that slept is delivered the first of the two bytes. -/
theorem pipe_fifo_two_bytes :
    (∀ a ∈ firstByte ++ List.replicate 9 (.go 1) ++ List.replicate 6 (.go 0), Copies a) ∧
    let s := run (List.finRange 2) (init (fun _ => 0) (fun _ => false))
      (firstByte ++ List.replicate 9 (.go 1) ++ List.replicate 6 (.go 0))
    s.delivered = [1] ∧ s.stored = [1, 2] ∧ s.delivered ++ s.pi.pending = s.stored := by
  have ha : ∀ a ∈ firstByte ++ List.replicate 9 (.go 1) ++ List.replicate 6 (.go 0),
      Copies a := by decide +kernel
  exact ⟨ha, by decide +kernel, by decide +kernel,
    (pipe_fifo 2 (fun _ => 0) (fun _ => false) _ ha).1⟩

end Xv6.Pipe
