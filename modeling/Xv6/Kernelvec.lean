import Xv6.Rv

/-!
Interrupts of the kernel itself: `kernelvec` and `timervec` of `kernelvec.S`, and the frame of
`kerneltrap` of `trap.c`.

The handler proper is arbitrary code that follows the calling convention, may give up the core
and come back on another, and leaves the interrupted stack alone.
-/

namespace Xv6.Kernelvec

open Xv6.ByteMem Xv6.Rv

/-- `kernelvec` up to the call of `kerneltrap`. -/
def kernelvecEntry : List Instr := [
  .addi .sp .sp (-256),
  .sd .ra 0 .sp, .sd .sp 8 .sp, .sd .gp 16 .sp, .sd .tp 24 .sp, .sd .t0 32 .sp, .sd .t1 40 .sp,
  .sd .t2 48 .sp, .sd .s0 56 .sp, .sd .s1 64 .sp, .sd .a0 72 .sp, .sd .a1 80 .sp, .sd .a2 88 .sp,
  .sd .a3 96 .sp, .sd .a4 104 .sp, .sd .a5 112 .sp, .sd .a6 120 .sp, .sd .a7 128 .sp,
  .sd .s2 136 .sp, .sd .s3 144 .sp, .sd .s4 152 .sp, .sd .s5 160 .sp, .sd .s6 168 .sp,
  .sd .s7 176 .sp, .sd .s8 184 .sp, .sd .s9 192 .sp, .sd .s10 200 .sp, .sd .s11 208 .sp,
  .sd .t3 216 .sp, .sd .t4 224 .sp, .sd .t5 232 .sp, .sd .t6 240 .sp]

/-- `kernelvec` from the return of `kerneltrap`. -/
def kernelvecExit : List Instr := [
  .ld .ra 0 .sp, .ld .sp 8 .sp, .ld .gp 16 .sp, .ld .t0 32 .sp, .ld .t1 40 .sp, .ld .t2 48 .sp,
  .ld .s0 56 .sp, .ld .s1 64 .sp, .ld .a0 72 .sp, .ld .a1 80 .sp, .ld .a2 88 .sp, .ld .a3 96 .sp,
  .ld .a4 104 .sp, .ld .a5 112 .sp, .ld .a6 120 .sp, .ld .a7 128 .sp, .ld .s2 136 .sp,
  .ld .s3 144 .sp, .ld .s4 152 .sp, .ld .s5 160 .sp, .ld .s6 168 .sp, .ld .s7 176 .sp,
  .ld .s8 184 .sp, .ld .s9 192 .sp, .ld .s10 200 .sp, .ld .s11 208 .sp, .ld .t3 216 .sp,
  .ld .t4 224 .sp, .ld .t5 232 .sp, .ld .t6 240 .sp,
  .addi .sp .sp 256,
  .sret]

def timervec : List Instr := [
  .csrrw .a0 .mscratch .a0,
  .sd .a1 0 .a0, .sd .a2 8 .a0, .sd .a3 16 .a0,
  .ld .a1 24 .a0, .ld .a2 32 .a0,
  .ld .a3 0 .a1, .add .a3 .a3 .a2, .sd .a3 0 .a1,
  .li .a1 2, .csrw .sip .a1,
  .ld .a3 16 .a0, .ld .a2 8 .a0, .ld .a1 0 .a0,
  .csrrw .a0 .mscratch .a0,
  .mret]

/-- What `kerneltrap` calls: `devintr` with its answer, the test of the current process, and
`yield`. -/
structure Handler where
  devintr : State → State × ℕ
  running : State → Bool
  yield : State → State

/-- The state in which the work of `kerneltrap` is done. -/
def Handler.after (h : Handler) (s : State) : State :=
  let (s1, which_dev) := h.devintr s
  if which_dev = 2 ∧ h.running s1 then h.yield s1 else s1

/-- `kerneltrap`; `none` is a panic. -/
def kerneltrap (h : Handler) (s : State) : Option State :=
  if !(s.csr .sstatus).getLsbD SPP then none
  else if (s.csr .sstatus).getLsbD SIE then none
  else if (h.devintr s).2 = 0 then none
  else some (((h.after s).setCsr .sepc (s.csr .sepc)).setCsr .sstatus (s.csr .sstatus))

variable (tr : Word → ℕ → ℕ)

/-- An interrupt of kernel code in the state `s`, until that code goes on. -/
def interrupt (h : Handler) (s : State) : Option State :=
  (kerneltrap h (exec tr (trap s) kernelvecEntry)).map (exec tr · kernelvecExit)

/-! ### The registers of interrupted code -/

def exitSlots : Slots := [
  (.ra, 0), (.sp, 8), (.gp, 16), (.t0, 32), (.t1, 40), (.t2, 48), (.s0, 56), (.s1, 64), (.a0, 72),
  (.a1, 80), (.a2, 88), (.a3, 96), (.a4, 104), (.a5, 112), (.a6, 120), (.a7, 128), (.s2, 136),
  (.s3, 144), (.s4, 152), (.s5, 160), (.s6, 168), (.s7, 176), (.s8, 184), (.s9, 192), (.s10, 200),
  (.s11, 208), (.t3, 216), (.t4, 224), (.t5, 232), (.t6, 240)]

/-- All registers are saved, and `tp` is not restored. -/
def entrySlots : Slots := exitSlots.take 3 ++ (.tp, 24) :: exitSlots.drop 3

def back : List Instr := [.addi .sp .sp 256, .sret]

lemma entry_eq : kernelvecEntry = .addi .sp .sp (-256) :: stores Reg.sp entrySlots := rfl

lemma exit_eq : kernelvecExit = loads Reg.sp exitSlots ++ back := rfl

lemma apart_entrySlots : Apart entrySlots 256 := ⟨by decide, by decide, by decide⟩

lemma exitSlots_subset : exitSlots ⊆ entrySlots := by decide

lemma mem_exitSlots {r : Reg} (h : r ≠ .tp) : r ∈ exitSlots.map Prod.fst := by
  cases r <;> first | exact absurd rfl h | decide

lemma tp_notMem : Reg.tp ∉ exitSlots.map Prod.fst := by decide

/-- What the handler keeps to, when called in the state `t` with the interrupted registers at
`stk`: it knows the interrupt, and comes back with its stack pointer, page table and mode, and
the frame on its stack. -/
structure Handles (h : Handler) (stk : ℕ) (t : State) : Prop where
  known : (h.devintr t).2 ≠ 0
  sp : (h.after t).reg .sp = t.reg .sp
  satp : (h.after t).csr .satp = t.csr .satp
  mode : (h.after t).mode = t.mode
  mem : ∀ a, stk ≤ a → a < stk + 256 → (h.after t).mem a = t.mem a

variable {tr} {s : State} {stk : ℕ} {h : Handler}

/-- The 256 bytes below the stack pointer are mapped to `stk`. -/
def Stack (tr : Word → ℕ → ℕ) (s : State) (stk : ℕ) : Prop :=
  ∀ o, o + 8 ≤ 256 → tr (s.csr .satp) (s.reg .sp + -256 + BitVec.ofNat 64 o).toNat = stk + o

/-- The state in which `kerneltrap` is called. -/
def called (s : State) (stk : ℕ) : State :=
  let f := Function.update s.reg .sp (s.reg .sp + -256)
  { trap s with reg := f, mem := saveTo s.mem stk f entrySlots }

lemma exec_entry (hs : Stack tr s stk) : exec tr (trap s) kernelvecEntry = called s stk := by
  have hw : Window tr ((trap s).setReg .sp (s.reg .sp + -256)) .sp stk 256 := by
    intro o ho
    rw [State.phys_supervisor rfl, State.setReg_self]
    exact hs o ho
  rw [entry_eq, exec_cons]
  exact exec_stores hw apart_entrySlots.inside

/-- **Interrupts are transparent to kernel code**: from any state of the kernel, and whatever
handler follows the calling convention, `kerneltrap` does not panic, and the interrupted code goes
on at the same pc with all registers but `tp` as they were, the interrupt enable as it was, and
outside its free stack the memory that the handler left; `tp` is that of the core it is now on. -/
theorem interrupt_transparent (hm : s.mode = .supervisor) (hs : Stack tr s stk)
    (hb : Handles h stk (called s stk)) :
    ∃ u, interrupt tr h s = some u ∧ u.pc = s.pc ∧ u.mode = .supervisor ∧
      (∀ r, r ≠ .tp → u.reg r = s.reg r) ∧ u.reg .tp = (h.after (called s stk)).reg .tp ∧
      (u.csr .sstatus).getLsbD SIE = (s.csr .sstatus).getLsbD SIE ∧
      u.mem = (h.after (called s stk)).mem ∧
      ∀ a, a < stk ∨ stk + 256 ≤ a → (called s stk).mem a = s.mem a := by
  let t := called s stk
  let f := Function.update s.reg .sp (s.reg .sp + -256)
  let t' := ((h.after t).setCsr .sepc s.pc).setCsr .sstatus ((trap s).csr .sstatus)
  have hspp : ((trap s).csr .sstatus).getLsbD SPP = true := by
    rw [trap_sstatus, if_pos rfl, hm]
    rfl
  have hsie : ((trap s).csr .sstatus).getLsbD SIE = false := by
    rw [trap_sstatus, if_neg (by decide), if_pos rfl]
  have hcall : kerneltrap h t = some t' := by
    have h1 : (t.csr .sstatus).getLsbD SPP = true := hspp
    have h2 : (t.csr .sstatus).getLsbD SIE = false := hsie
    rw [kerneltrap, h1, h2]
    exact if_neg hb.known
  -- the frame is intact, and `sp` is back at it
  have hframe : Holds t'.mem stk exitSlots f := by
    have h1 : Holds t.mem stk entrySlots f := holds_saveTo apart_entrySlots
    refine (h1.subset exitSlots_subset).congr fun x hx => ld64_congr fun a _ _ => ?_
    have := apart_entrySlots.inside x (exitSlots_subset hx)
    exact hb.mem a (by omega) (by omega)
  have hfsp : f .sp = s.reg .sp + -256 := Function.update_self ..
  have hsp : t'.reg .sp = f .sp := hb.sp
  have hmode : t'.mode = .supervisor := hb.mode
  have hw : Window tr t' .sp stk 256 := by
    intro o ho
    have hsatp : t'.csr .satp = s.csr .satp := hb.satp
    rw [State.phys_supervisor hmode, hsatp, hsp, hfsp]
    exact hs o ho
  let g := loadFrom t'.mem stk t'.reg exitSlots
  have hload : exec tr t' (loads Reg.sp exitSlots) = { t' with reg := g } := by
    refine exec_loads hw (fun x hx => apart_entrySlots.inside x (exitSlots_subset hx)) ?_
    intro x hx h
    rw [hframe x hx, h, hsp]
  have hg : ∀ r, r ≠ .tp → g r = f r := fun r hr => loadFrom_holds hframe (mem_exitSlots hr)
  have hgtp : g .tp = t'.reg .tp := loadFrom_of_notMem tp_notMem
  let u := step tr { t' with reg := Function.update g .sp (g .sp + 256) } .sret
  have hexit : exec tr t' kernelvecExit = u := by
    rw [exit_eq, exec_append, hload]
    rfl
  refine ⟨u, ?_, ?_, ?_, fun r hr => ?_, ?_, ?_, rfl, fun a ha => ?_⟩
  · rw [interrupt, exec_entry hs, hcall, Option.map_some, hexit]
  · change t'.csr .sepc = s.pc
    rw [show t'.csr .sepc = ((h.after t).setCsr .sepc s.pc).csr .sepc from rfl, State.setCsr_self]
  · change (if (t'.csr .sstatus).getLsbD SPP then Mode.supervisor else .user) = .supervisor
    rw [State.setCsr_self, hspp]
    rfl
  · change Function.update g .sp (g .sp + 256) r = s.reg r
    by_cases hrsp : r = .sp
    · have h1 : s.reg .sp + -256 + 256 = s.reg .sp := by
        rw [BitVec.add_assoc]
        exact BitVec.add_zero _
      rw [hrsp, Function.update_self, hg .sp (by decide), hfsp, h1]
    · rw [Function.update_of_ne hrsp, hg r hr]
      exact Function.update_of_ne hrsp _ _
  · change Function.update g .sp (g .sp + 256) .tp = _
    rw [Function.update_of_ne (by decide), hgtp]
    rfl
  · rw [sret_sstatus, if_neg (by decide), if_neg (by decide), if_pos rfl]
    change (t'.csr .sstatus).getLsbD SPIE = _
    rw [State.setCsr_self, trap_sstatus, if_neg (by decide), if_neg (by decide), if_pos rfl]
  · refine saveTo_out fun x hx => ?_
    have := apart_entrySlots.inside x hx
    omega

/-- A timer interrupt that moves the interrupted code to core 1. -/
def moves : Handler := ⟨fun s => (s, 2), fun _ => true, fun s => s.setReg .tp 1⟩

def kernel0 : State :=
  ⟨Function.update (fun _ => 7) .sp 4096, fun _ => 0, fun _ => 0, .supervisor, 0x80002000⟩

lemma stack0 : Stack (fun _ a => a) kernel0 3840 := by
  intro o ho
  have h1 : kernel0.reg .sp + -256 = BitVec.ofNat 64 3840 := by decide
  rw [h1]
  change (BitVec.ofNat 64 3840 + BitVec.ofNat 64 o).toNat = 3840 + o
  rw [BitVec.toNat_add, BitVec.toNat_ofNat, BitVec.toNat_ofNat]
  omega

lemma handles0 : Handles moves 3840 (called kernel0 3840) :=
  ⟨by decide, State.setReg_ne (called kernel0 3840) 1 (by decide), rfl, rfl, fun _ _ _ => rfl⟩

theorem interrupt_transparent_moves : ∃ u, interrupt (fun _ a => a) moves kernel0 = some u ∧
    u.pc = 0x80002000 ∧ ∀ r, r ≠ .tp → u.reg r = kernel0.reg r := by
  obtain ⟨u, h1, h2, -, h3, -⟩ := interrupt_transparent rfl stack0 handles0
  exact ⟨u, h1, h2, h3⟩

/-! ### The timer

`timervec` runs in machine mode, where addresses are physical, with a scratch area for its core.
-/

/-- The scratch area of a core, its `mtimecmp` register and that of the clock, and the address
of `timervec`. -/
structure Timer where
  scratch : ℕ
  mtimecmp : ℕ
  mtime : ℕ
  vec : Word

/-- The interval between interrupts in `timerinit`. -/
def interval : Word := 1000000

variable (T : Timer)

/-- The scratch area, `mtimecmp` and `mtime` are apart and have addresses. -/
structure Timer.Ok : Prop where
  scratch_lt : T.scratch + 40 ≤ 2 ^ 64
  mtimecmp_lt : T.mtimecmp < 2 ^ 64
  apart : T.mtimecmp + 8 ≤ T.scratch ∨ T.scratch + 40 ≤ T.mtimecmp

/-- `timerinit` of `start.c`, but for the bit in `mie`. -/
def timerinit (s : State) : State :=
  let m := st64 s.mem T.mtimecmp (ld64 s.mem T.mtime + interval)
  let m := st64 m (T.scratch + 24) (BitVec.ofNat 64 T.mtimecmp)
  let m := st64 m (T.scratch + 32) interval
  let s := { s with mem := m }
  let s := (s.setCsr .mscratch (BitVec.ofNat 64 T.scratch)).setCsr .mtvec T.vec
  s.setCsr .mstatus (setBit (s.csr .mstatus) MIE true)

/-- The core is set up for `timervec`. -/
structure Timed (s : State) : Prop where
  mscratch : s.csr .mscratch = BitVec.ofNat 64 T.scratch
  mtvec : s.csr .mtvec = T.vec
  cmp : ld64 s.mem (T.scratch + 24) = BitVec.ofNat 64 T.mtimecmp
  interval : ld64 s.mem (T.scratch + 32) = interval

variable (tr) in
/-- A timer interrupt, until the interrupted code goes on; `none` if it goes anywhere else than
to `timervec`. -/
def tick (s : State) : Option State :=
  if (mtrap s).pc = T.vec then some (exec tr (mtrap s) timervec) else none

def scratchSlots : Slots := [(.a1, 0), (.a2, 8), (.a3, 16)]

def reschedule : List Instr := [
  .ld .a1 24 .a0, .ld .a2 32 .a0, .ld .a3 0 .a1, .add .a3 .a3 .a2, .sd .a3 0 .a1,
  .li .a1 2, .csrw .sip .a1]

def fin : List Instr := [.csrrw .a0 .mscratch .a0, .mret]

lemma timervec_eq : timervec = .csrrw .a0 .mscratch .a0 ::
    (stores Reg.a0 scratchSlots ++ (reschedule ++ (loads Reg.a0 scratchSlots.reverse ++ fin))) :=
  rfl

lemma apart_scratchSlots : Apart scratchSlots 24 := ⟨by decide, by decide, by decide⟩

lemma apart_reverse : Apart scratchSlots.reverse 24 := ⟨by decide, by decide, by decide⟩

lemma reverse_ne : ∀ x ∈ scratchSlots.reverse, x.1 ≠ Reg.a0 := by decide

variable {T}

lemma timerinit_timed (hT : T.Ok) (s : State) : Timed T (timerinit T s) := by
  have := hT.apart
  refine ⟨?_, ?_, ?_, ?_⟩
  · rw [timerinit, State.setCsr_ne _ _ (by decide), State.setCsr_ne _ _ (by decide),
      State.setCsr_self]
  · rw [timerinit, State.setCsr_ne _ _ (by decide), State.setCsr_self]
  · change ld64 (st64 (st64 _ _ _) (T.scratch + 32) _) _ = _
    rw [ld64_st64_ne (by omega), ld64_st64]
  · change ld64 (st64 (st64 _ _ _) (T.scratch + 32) _) _ = _
    rw [ld64_st64]

lemma timerinit_cmp (hT : T.Ok) (s : State) :
    ld64 (timerinit T s).mem T.mtimecmp = ld64 s.mem T.mtime + interval := by
  have := hT.apart
  change ld64 (st64 (st64 (st64 _ _ _) _ _) _ _) _ = _
  rw [ld64_st64_ne (by omega), ld64_st64_ne (by omega), ld64_st64]

variable (tr) in
lemma window_scratch (hT : T.Ok) {s : State} (hm : s.mode = .machine)
    (ha : s.reg .a0 = BitVec.ofNat 64 T.scratch) : Window tr s .a0 T.scratch 40 := by
  intro o ho
  have := hT.scratch_lt
  rw [State.phys, if_pos hm, ha, BitVec.toNat_add, BitVec.toNat_ofNat, BitVec.toNat_ofNat]
  omega

variable (tr) in
/-- The part between the saves and the restores. -/
lemma exec_reschedule (hT : T.Ok) {s : State} (hm : s.mode = .machine)
    (ha : s.reg .a0 = BitVec.ofNat 64 T.scratch)
    (hc : ld64 s.mem (T.scratch + 24) = BitVec.ofNat 64 T.mtimecmp)
    (hi : ld64 s.mem (T.scratch + 32) = interval) :
    ∃ g, exec tr s reschedule = { s with
        reg := g
        csr := Function.update s.csr .sip 2
        mem := st64 s.mem T.mtimecmp (ld64 s.mem T.mtimecmp + interval) } ∧
      ∀ r, r ∉ scratchSlots.map Prod.fst → g r = s.reg r := by
  have hw := window_scratch tr hT hm ha
  have hc' : (BitVec.ofNat 64 T.mtimecmp + BitVec.ofNat 64 0).toNat = T.mtimecmp := by
    have := hT.mtimecmp_lt
    rw [BitVec.toNat_add, BitVec.toNat_ofNat, BitVec.toNat_ofNat]
    omega
  let s1 := s.setReg .a1 (BitVec.ofNat 64 T.mtimecmp)
  let s2 := s1.setReg .a2 interval
  let s3 := s2.setReg .a3 (ld64 s.mem T.mtimecmp)
  let s4 := s3.setReg .a3 (ld64 s.mem T.mtimecmp + interval)
  let s5 := { s4 with mem := st64 s.mem T.mtimecmp (ld64 s.mem T.mtimecmp + interval) }
  have hphys : ∀ t : State, t.mode = .machine → t.reg .a1 = BitVec.ofNat 64 T.mtimecmp →
      t.phys tr (t.reg .a1 + BitVec.ofNat 64 0) = T.mtimecmp := by
    intro t ht ht1
    rw [State.phys, if_pos ht, ht1, hc']
  have e1 : step tr s (.ld .a1 24 .a0) = s1 := by
    rw [step, hw 24 (by omega), hc]
  have e2 : step tr s1 (.ld .a2 32 .a0) = s2 := by
    have h1 : s1.reg .a0 = s.reg .a0 := State.setReg_ne s _ (by decide)
    have h2 : s1.phys tr (s.reg .a0 + BitVec.ofNat 64 32) = T.scratch + 32 := hw 32 (by omega)
    rw [step, h1, h2, show s1.mem = s.mem from rfl, hi]
  have e3 : step tr s2 (.ld .a3 0 .a1) = s3 := by
    rw [step, hphys s2 hm rfl]
    rfl
  have e4 : step tr s3 (.add .a3 .a3 .a2) = s4 := rfl
  have e5 : step tr s4 (.sd .a3 0 .a1) = s5 := by
    rw [step, hphys s4 hm rfl]
    rfl
  refine ⟨(s5.setReg .a1 2).reg, ?_, ?_⟩
  · rw [reschedule, exec_cons, e1, exec_cons, e2, exec_cons, e3, exec_cons, e4, exec_cons, e5]
    rfl
  · intro r hr
    obtain ⟨h1, h2, h3⟩ : r ≠ .a1 ∧ r ≠ .a2 ∧ r ≠ .a3 := by simpa [scratchSlots] using hr
    rw [State.setReg_ne s5 _ h1]
    change s4.reg r = _
    rw [State.setReg_ne s3 _ h3, State.setReg_ne s2 _ h3, State.setReg_ne s1 _ h2,
      State.setReg_ne s _ h1]

variable (T) in
/-- Memory after a timer interrupt of the state `s`. -/
def ticked (s : State) : Mem :=
  let m := saveTo s.mem T.scratch s.reg scratchSlots
  st64 m T.mtimecmp (ld64 s.mem T.mtimecmp + interval)

lemma ticked_out {s : State} {a : ℕ} (h1 : a < T.scratch ∨ T.scratch + 24 ≤ a)
    (h2 : a < T.mtimecmp ∨ T.mtimecmp + 8 ≤ a) : ticked T s a = s.mem a := by
  refine (st64_out h2).trans (saveTo_out fun x hx => ?_)
  have := apart_scratchSlots.inside x hx
  omega

variable (tr) in
/-- What a timer interrupt does. -/
lemma tick_spec (hT : T.Ok) {s : State} (hs : Timed T s) : ∃ u, tick tr T s = some u ∧
    u.reg = s.reg ∧ u.pc = s.pc ∧ u.mode = s.mode ∧ u.csr .sip = 2 ∧ u.mem = ticked T s ∧
    (∀ c, c ≠ .sip → c ≠ .mstatus → c ≠ .mepc → u.csr c = s.csr c) ∧
    (u.csr .mstatus).getLsbD MIE = (s.csr .mstatus).getLsbD MIE := by
  have hlt := hT.scratch_lt
  have hap := hT.apart
  let p := T.scratch
  let s1 := ((mtrap s).setCsr .mscratch (s.reg .a0)).setReg .a0 (BitVec.ofNat 64 p)
  let s2 := { s1 with mem := saveTo s.mem p s.reg scratchSlots }
  have hreg : ∀ r, r ≠ .a0 → s1.reg r = s.reg r := fun r hr => State.setReg_ne _ _ hr
  have e1 : step tr (mtrap s) (.csrrw .a0 .mscratch .a0) = s1 := by
    have h1 : (mtrap s).csr .mscratch = BitVec.ofNat 64 p := hs.mscratch
    rw [step, h1]
    rfl
  have e2 : exec tr s1 (stores Reg.a0 scratchSlots) = s2 := by
    have hw := window_scratch tr hT (s := s1) rfl (State.setReg_self ..)
    rw [exec_stores hw fun x hx => (apart_scratchSlots.inside x hx).trans (by decide),
      saveTo_congr (g := s.reg) fun x hx => hreg x.1 ?_]
    · rfl
    · revert x
      decide
  have hld : ∀ o, 24 ≤ o → ld64 s2.mem (p + o) = ld64 s.mem (p + o) := fun o ho =>
    ld64_saveTo_out fun x hx => by
      have := apart_scratchSlots.inside x hx
      omega
  have ha0 : s1.reg .a0 = BitVec.ofNat 64 p := State.setReg_self ..
  obtain ⟨g, e3, hg⟩ := exec_reschedule tr hT (s := s2) rfl ha0
    ((hld 24 (by omega)).trans hs.cmp) ((hld 32 (by omega)).trans hs.interval)
  have hcmp : ld64 s2.mem T.mtimecmp = ld64 s.mem T.mtimecmp := ld64_saveTo_out fun x hx => by
    have := apart_scratchSlots.inside x hx
    omega
  rw [hcmp] at e3
  let s3 := { s2 with reg := g, csr := Function.update s1.csr .sip 2, mem := ticked T s }
  -- the saved registers, of which `mtimecmp` is apart
  have hold : Holds s3.mem p scratchSlots.reverse s.reg := by
    have h1 : Holds s2.mem p scratchSlots s.reg := holds_saveTo apart_scratchSlots
    refine (h1.subset (List.reverse_subset.mpr (List.Subset.refl _))).congr fun x hx => ?_
    have := apart_reverse.inside x hx
    exact ld64_st64_ne (by omega)
  have hga : g .a0 = BitVec.ofNat 64 p := (hg .a0 (by decide)).trans ha0
  let f := loadFrom s3.mem p g scratchSlots.reverse
  have e4 : exec tr s3 (loads Reg.a0 scratchSlots.reverse) = { s3 with reg := f } := by
    refine exec_loads (window_scratch tr hT rfl hga)
      (fun x hx => (apart_reverse.inside x hx).trans (by decide)) fun x hx h => ?_
    exact absurd h (reverse_ne x hx)
  have hf : ∀ r, r ≠ .a0 → f r = s.reg r := by
    intro r hr
    by_cases h : r ∈ scratchSlots.reverse.map Prod.fst
    · exact loadFrom_holds hold h
    · rw [show f r = g r from loadFrom_of_notMem h, hg r (by simpa using h)]
      exact hreg r hr
  have hfa : f .a0 = BitVec.ofNat 64 p := (loadFrom_of_notMem (by decide)).trans hga
  let s4 := (({ s3 with reg := f } : State).setCsr .mscratch (f .a0)).setReg .a0 (s.reg .a0)
  have e5 : step tr { s3 with reg := f } (.csrrw .a0 .mscratch .a0) = s4 := rfl
  have hexec : exec tr (mtrap s) timervec = step tr s4 .mret := by
    rw [timervec_eq, exec_cons, e1, exec_append, e2, exec_append, e3, exec_append]
    change exec tr (exec tr s3 _) fin = _
    rw [e4, fin, exec_cons, e5]
    rfl
  have hst : s4.csr .mstatus = (mtrap s).csr .mstatus := rfl
  refine ⟨_, (if_pos hs.mtvec).trans (congrArg some hexec), funext fun r => ?_, rfl,
    mret_mode tr hst, rfl, rfl, fun c h1 h2 h3 => ?_, ?_⟩
  · change s4.reg r = s.reg r
    by_cases hr : r = .a0
    · rw [hr]
      exact State.setReg_self ..
    · rw [State.setReg_ne _ _ hr]
      exact hf r hr
  · change (s4.setCsr .mstatus _).csr c = _
    rw [State.setCsr_ne _ _ h2]
    by_cases hc : c = .mscratch
    · rw [hc, hs.mscratch, ← hfa]
      exact State.setCsr_self { s3 with reg := f } .mscratch (f .a0)
    · have h4 : s1.csr c = s.csr c := by
        change ((mtrap s).setCsr .mscratch _).csr c = _
        rw [State.setCsr_ne _ _ hc]
        change ((s.setCsr .mepc _).setCsr .mstatus _).csr c = _
        rw [State.setCsr_ne _ _ h2, State.setCsr_ne _ _ h3]
      rw [← h4]
      change Function.update (Function.update s1.csr .sip 2) .mscratch _ c = _
      rw [Function.update_of_ne hc, Function.update_of_ne h1]
  · rw [mret_mstatus tr s4 (by decide), if_neg (by decide), if_pos rfl, hst,
      mtrap_mstatus s (by decide), if_neg (by decide), if_pos rfl]

variable (T) in
/-- Other code of the core, in any mode, and of the other cores. -/
structure Code (s s' : State) : Prop where
  mscratch : s'.csr .mscratch = s.csr .mscratch
  mtvec : s'.csr .mtvec = s.csr .mtvec
  scratch : ∀ a, T.scratch + 24 ≤ a → a < T.scratch + 40 → s'.mem a = s.mem a
  mtimecmp : ∀ a, T.mtimecmp ≤ a → a < T.mtimecmp + 8 → s'.mem a = s.mem a

variable (tr T) in
/-- The states of a core that was set up at the time `now`, with how many timer interrupts it had
since. -/
inductive Ticks (now : Word) : ℕ → State → Prop
  | timerinit {s : State} (h : ld64 s.mem T.mtime = now) : Ticks now 0 (timerinit T s)
  | code {n : ℕ} {s s' : State} (h : Ticks now n s) (hs : Code T s s') : Ticks now n s'
  | timer {n : ℕ} {s s' : State} (h : Ticks now n s) (hs : tick tr T s = some s') :
      Ticks now (n + 1) s'

variable {now : Word} {n : ℕ} {s' : State}

lemma timed_code (hs : Timed T s) (h : Code T s s') : Timed T s' where
  mscratch := h.mscratch.trans hs.mscratch
  mtvec := h.mtvec.trans hs.mtvec
  cmp := (ld64_congr fun _ _ _ => h.scratch _ (by omega) (by omega)).trans hs.cmp
  interval := (ld64_congr fun _ _ _ => h.scratch _ (by omega) (by omega)).trans hs.interval

lemma timed_tick (hT : T.Ok) (hs : Timed T s) (h : tick tr T s = some s') : Timed T s' := by
  obtain ⟨u, hu, -, -, -, -, hmem, hcsr, -⟩ := tick_spec tr hT hs
  obtain rfl : u = s' := Option.some.inj (hu.symm.trans h)
  have hap := hT.apart
  have hld : ∀ o, 24 ≤ o → o + 8 ≤ 40 →
      ld64 u.mem (T.scratch + o) = ld64 s.mem (T.scratch + o) := fun o h1 h2 =>
    ld64_congr fun a _ _ => hmem ▸ ticked_out (by omega) (by omega)
  exact ⟨(hcsr .mscratch (by decide) (by decide) (by decide)).trans hs.mscratch,
    (hcsr .mtvec (by decide) (by decide) (by decide)).trans hs.mtvec,
    (hld 24 (by omega) (by omega)).trans hs.cmp, (hld 32 (by omega) (by omega)).trans hs.interval⟩

lemma Ticks.timed (hT : T.Ok) (h : Ticks tr T now n s) : Timed T s := by
  induction h with
  | timerinit h => exact timerinit_timed hT _
  | code _ hs ih => exact timed_code ih hs
  | timer _ hs ih => exact timed_tick hT ih hs

lemma Ticks.cmp (hT : T.Ok) (h : Ticks tr T now n s) :
    ld64 s.mem T.mtimecmp = now + BitVec.ofNat 64 (n + 1) * interval := by
  induction h with
  | timerinit h =>
    rw [timerinit_cmp hT, h]
    exact congrArg _ (BitVec.one_mul _).symm
  | code _ hs ih => exact (ld64_congr hs.mtimecmp).trans ih
  | @timer n s s' h hs ih =>
    obtain ⟨u, hu, -, -, -, -, hmem, -⟩ := tick_spec tr hT (h.timed hT)
    obtain rfl : u = s' := Option.some.inj (hu.symm.trans hs)
    have h1 : BitVec.ofNat 64 (n + 1 + 1) = BitVec.ofNat 64 (n + 1) + 1#64 :=
      BitVec.ofNat_add ..
    rw [hmem, ticked, ld64_st64, ih, h1, BitVec.add_mul, BitVec.one_mul, BitVec.add_assoc]

/-- **Timer interrupts are transparent and do not drift**: in every state of every run of a core,
in whatever mode, a timer interrupt goes to `timervec` and leaves all registers, the pc, the mode,
the interrupt enables and the supervisor's control registers as they were, and memory outside the
save area; it raises the software interrupt, and the next one is due exactly an interval after the
last one was, however late this one came. -/
theorem timer_transparent (hT : T.Ok) (h : Ticks tr T now n s) :
    ∃ u, tick tr T s = some u ∧ u.reg = s.reg ∧ u.pc = s.pc ∧ u.mode = s.mode ∧
      (∀ c, c ≠ .sip → c ≠ .mstatus → c ≠ .mepc → u.csr c = s.csr c) ∧
      (u.csr .mstatus).getLsbD MIE = (s.csr .mstatus).getLsbD MIE ∧ u.csr .sip = 2 ∧
      (∀ a, a < T.scratch ∨ T.scratch + 24 ≤ a → a < T.mtimecmp ∨ T.mtimecmp + 8 ≤ a →
        u.mem a = s.mem a) ∧
      ld64 u.mem T.mtimecmp = now + BitVec.ofNat 64 (n + 2) * interval := by
  obtain ⟨u, hu, hreg, hpc, hmode, hsip, hmem, hcsr, hmie⟩ := tick_spec tr hT (h.timed hT)
  exact ⟨u, hu, hreg, hpc, hmode, hcsr, hmie, hsip, fun a h1 h2 => hmem ▸ ticked_out h1 h2,
    (h.timer hu).cmp hT⟩

/-- Core 0. -/
def timer0 : Timer := ⟨0x80019000, 0x2004000, 0x200bff8, 0x80005100⟩

lemma ticks0 : Ticks (fun _ a => a) timer0 0 0 (timerinit timer0 kernel0) :=
  Ticks.timerinit (by decide)

theorem timer_transparent_first :
    ∃ u, tick (fun _ a => a) timer0 (timerinit timer0 kernel0) = some u ∧ u.reg = kernel0.reg ∧
      ld64 u.mem timer0.mtimecmp = 2000000 := by
  obtain ⟨u, hu, hreg, -, -, -, -, -, -, hcmp⟩ := timer_transparent (T := timer0)
    ⟨by decide, by decide, by decide⟩ ticks0
  exact ⟨u, hu, hreg, hcmp.trans (by decide)⟩

end Xv6.Kernelvec
