import Xv6.Rv
import Xv6.Riscv

/-!
Traps from user space and returns to it: `uservec` and `userret` of `trampoline.S`, and the parts
of `usertrap` and `usertrapret` of `trap.c` that prepare them.

Between the two the kernel is arbitrary code that keeps its own page table and the identity of the
core. The user page table maps the trapframe page of the process at `TRAPFRAME`, without which
user code can reach it.
-/

namespace Xv6.Trampoline

open Xv6.ByteMem Xv6.Riscv Xv6.Rv

/-- Offsets of the fields of `struct trapframe` that are not user registers. -/
def kernel_satp : ℕ := 0
def kernel_sp : ℕ := 8
def kernel_trap : ℕ := 16
def epc : ℕ := 24
def kernel_hartid : ℕ := 32

def uservec : List Instr := [
  .csrw .sscratch .a0,
  .li .a0 (BitVec.ofNat 64 TRAPFRAME),
  .sd .ra 40 .a0, .sd .sp 48 .a0, .sd .gp 56 .a0, .sd .tp 64 .a0, .sd .t0 72 .a0, .sd .t1 80 .a0,
  .sd .t2 88 .a0, .sd .s0 96 .a0, .sd .s1 104 .a0, .sd .a1 120 .a0, .sd .a2 128 .a0,
  .sd .a3 136 .a0, .sd .a4 144 .a0, .sd .a5 152 .a0, .sd .a6 160 .a0, .sd .a7 168 .a0,
  .sd .s2 176 .a0, .sd .s3 184 .a0, .sd .s4 192 .a0, .sd .s5 200 .a0, .sd .s6 208 .a0,
  .sd .s7 216 .a0, .sd .s8 224 .a0, .sd .s9 232 .a0, .sd .s10 240 .a0, .sd .s11 248 .a0,
  .sd .t3 256 .a0, .sd .t4 264 .a0, .sd .t5 272 .a0, .sd .t6 280 .a0,
  .csrr .t0 .sscratch,
  .sd .t0 112 .a0,
  .ld .sp 8 .a0,
  .ld .tp 32 .a0,
  .ld .t0 16 .a0,
  .ld .t1 0 .a0,
  .sfence_vma,
  .csrw .satp .t1,
  .sfence_vma,
  .jr .t0]

def userret : List Instr := [
  .sfence_vma,
  .csrw .satp .a0,
  .sfence_vma,
  .li .a0 (BitVec.ofNat 64 TRAPFRAME),
  .ld .ra 40 .a0, .ld .sp 48 .a0, .ld .gp 56 .a0, .ld .tp 64 .a0, .ld .t0 72 .a0, .ld .t1 80 .a0,
  .ld .t2 88 .a0, .ld .s0 96 .a0, .ld .s1 104 .a0, .ld .a1 120 .a0, .ld .a2 128 .a0,
  .ld .a3 136 .a0, .ld .a4 144 .a0, .ld .a5 152 .a0, .ld .a6 160 .a0, .ld .a7 168 .a0,
  .ld .s2 176 .a0, .ld .s3 184 .a0, .ld .s4 192 .a0, .ld .s5 200 .a0, .ld .s6 208 .a0,
  .ld .s7 216 .a0, .ld .s8 224 .a0, .ld .s9 232 .a0, .ld .s10 240 .a0, .ld .s11 248 .a0,
  .ld .t3 256 .a0, .ld .t4 264 .a0, .ld .t5 272 .a0, .ld .t6 280 .a0,
  .ld .a0 112 .a0,
  .sret]

/-- What `usertrapret` reads of `struct proc`; `trapframe` and `pagetable` are physical. -/
structure Proc where
  trapframe : ℕ
  kstack : Word
  pagetable : Word

def MAKE_SATP (pagetable : Word) : Word := 8#64 <<< 60 ||| pagetable >>> 12

/-- Addresses fixed when the kernel is linked: of `usertrap`, of `kernelvec`, and of `uservec` in
the trampoline page. -/
structure Link where
  usertrap : Word
  kernelvec : Word
  trampoline_uservec : Word

variable (tr : Word → ℕ → ℕ) (L : Link) (p : Proc)

/-- `usertrap` up to the dispatch on `scause`; `none` is its panic. -/
def usertrap (s : State) : Option State :=
  if (s.csr .sstatus).getLsbD SPP then none
  else some
    { s.setCsr .stvec L.kernelvec with mem := st64 s.mem (p.trapframe + epc) (s.csr .sepc) }

/-- `usertrapret` up to the jump into the trampoline. -/
def usertrapret (s : State) : State :=
  let m := st64 s.mem (p.trapframe + kernel_satp) (s.csr .satp)
  let m := st64 m (p.trapframe + kernel_sp) (p.kstack + BitVec.ofNat 64 PGSIZE)
  let m := st64 m (p.trapframe + kernel_trap) L.usertrap
  let m := st64 m (p.trapframe + kernel_hartid) (s.reg .tp)
  let x := setBit (s.csr .sstatus) SIE false
  let x := setBit x SPP false
  let x := setBit x SPIE true
  let s := ((s.setCsr .stvec L.trampoline_uservec).setCsr .sstatus x).setCsr .sepc
    (ld64 m (p.trapframe + epc))
  { s.setReg .a0 (MAKE_SATP p.pagetable) with mem := m }

/-- A trap from user space, until the dispatch in `usertrap`; `none` if control goes anywhere
else. -/
def enter (s : State) : Option State :=
  if (trap s).pc ≠ L.trampoline_uservec then none
  else
    let s := exec tr (trap s) uservec
    if s.pc ≠ L.usertrap then none else usertrap L p s

/-- The return to user space, from the start of `usertrapret`. -/
def leave (s : State) : State := exec tr (usertrapret L p s) userret

/-! ### The trapframe -/

/-- The slots that `uservec` saves and `userret` restores through `a0`. -/
def userSlots : Slots := [
  (.ra, 40), (.sp, 48), (.gp, 56), (.tp, 64), (.t0, 72), (.t1, 80), (.t2, 88), (.s0, 96),
  (.s1, 104), (.a1, 120), (.a2, 128), (.a3, 136), (.a4, 144), (.a5, 152), (.a6, 160), (.a7, 168),
  (.s2, 176), (.s3, 184), (.s4, 192), (.s5, 200), (.s6, 208), (.s7, 216), (.s8, 224), (.s9, 232),
  (.s10, 240), (.s11, 248), (.t3, 256), (.t4, 264), (.t5, 272), (.t6, 280)]

/-- The user registers in the trapframe. -/
def frameSlots : Slots := (.a0, 112) :: userSlots

/-- The slot of `a0`, which `uservec` saves through `t0`. -/
def a0Slot : Slots := [(.t0, 112)]

/-- What `uservec` reads of the kernel's part. -/
def kernelSlots : Slots :=
  [(.sp, kernel_sp), (.tp, kernel_hartid), (.t0, kernel_trap), (.t1, kernel_satp)]

def toFrame : List Instr := [.csrw .sscratch .a0, .li .a0 (BitVec.ofNat 64 TRAPFRAME)]

def userA0 : List Instr := [.csrr .t0 .sscratch]

def toKernel : List Instr := [.sfence_vma, .csrw .satp .t1, .sfence_vma, .jr .t0]

def fromKernel : List Instr :=
  [.sfence_vma, .csrw .satp .a0, .sfence_vma, .li .a0 (BitVec.ofNat 64 TRAPFRAME)]

def toUser : List Instr := [.ld .a0 112 .a0, .sret]

lemma uservec_eq : uservec = toFrame ++ (stores Reg.a0 userSlots ++ (userA0 ++
    (stores Reg.a0 a0Slot ++ (loads Reg.a0 kernelSlots ++ toKernel)))) := rfl

lemma userret_eq : userret = fromKernel ++ (loads Reg.a0 userSlots ++ toUser) := rfl

lemma apart_frameSlots : Apart frameSlots 288 := ⟨by decide, by decide, by decide⟩

lemma apart_userSlots : Apart userSlots 288 := apart_frameSlots.tail

lemma mem_frameSlots (r : Reg) : r ∈ frameSlots.map Prod.fst := by
  cases r <;> decide

lemma mem_userSlots {r : Reg} (h : r ≠ .a0) : r ∈ userSlots.map Prod.fst := by
  have h1 := mem_frameSlots r
  simpa [frameSlots, h] using h1

lemma frameSlots_ge : ∀ x ∈ frameSlots, 40 ≤ x.2 := by decide

/-! ### Entering the kernel -/

/-- The user page table maps the trapframe. -/
def MapsFrame : Prop :=
  ∀ o, o + 8 ≤ PGSIZE → tr (MAKE_SATP p.pagetable) (TRAPFRAME + o) = p.trapframe + o

/-- The process is in user space on the core `hart`, and the next trap will find the kernel. -/
structure Ready (ksatp hart : Word) (u : State) : Prop where
  mode : u.mode = .user
  satp : u.csr .satp = MAKE_SATP p.pagetable
  stvec : u.csr .stvec = L.trampoline_uservec
  kernel_satp : ld64 u.mem (p.trapframe + kernel_satp) = ksatp
  kernel_sp : ld64 u.mem (p.trapframe + kernel_sp) = p.kstack + BitVec.ofNat 64 PGSIZE
  kernel_trap : ld64 u.mem (p.trapframe + kernel_trap) = L.usertrap
  kernel_hartid : ld64 u.mem (p.trapframe + kernel_hartid) = hart

/-- `usertrap` has been entered from the user state `u`: it executes with interrupts off on the
kernel stack and the page table of the kernel, and the trapframe has all of `u`. -/
structure Entered (ksatp hart : Word) (u s : State) : Prop where
  mode : s.mode = .supervisor
  satp : s.csr .satp = ksatp
  stvec : s.csr .stvec = L.kernelvec
  off : (s.csr .sstatus).getLsbD SIE = false
  pc : s.pc = L.usertrap
  sp : s.reg .sp = p.kstack + BitVec.ofNat 64 PGSIZE
  tp : s.reg .tp = hart
  frame : Holds s.mem p.trapframe frameSlots u.reg
  epc : ld64 s.mem (p.trapframe + epc) = u.pc
  else_same : ∀ a, a < p.trapframe + 24 ∨ p.trapframe + 288 ≤ a → s.mem a = u.mem a

variable {tr L p} {ksatp hart : Word} {s u : State}

lemma frame_address {o : ℕ} (ho : o + 8 ≤ 288) :
    (BitVec.ofNat 64 TRAPFRAME + BitVec.ofNat 64 o).toNat = TRAPFRAME + o ∧ o + 8 ≤ PGSIZE := by
  unfold TRAPFRAME TRAMPOLINE MAXVA PGSIZE
  rw [← BitVec.ofNat_add, BitVec.toNat_ofNat, Nat.mod_eq_of_lt (by omega)]
  omega

lemma window (hf : MapsFrame tr p) (hm : s.mode ≠ .machine)
    (hs : s.csr .satp = MAKE_SATP p.pagetable) (ha : s.reg .a0 = BitVec.ofNat 64 TRAPFRAME) :
    Window tr s .a0 p.trapframe 288 := by
  intro o ho
  obtain ⟨h1, h2⟩ := frame_address ho
  rw [State.phys, if_neg hm, hs, ha, h1]
  exact hf o h2

/-- The memory after the stores of `uservec` by a process with the registers `f`. -/
def saved (m : Mem) (tf : ℕ) (f : Reg → Word) : Mem :=
  st64 (saveTo m tf f userSlots) (tf + 112) (f .a0)

lemma saved_out {m : Mem} {tf a : ℕ} {f : Reg → Word} (h : a < tf + 40 ∨ tf + 288 ≤ a) :
    saved m tf f a = m a := by
  refine (st64_out (by omega)).trans (saveTo_out fun x hx => ?_)
  have h1 := frameSlots_ge x (List.mem_cons_of_mem _ hx)
  have h2 := apart_userSlots.inside x hx
  omega

lemma holds_saved (m : Mem) (tf : ℕ) (f : Reg → Word) : Holds (saved m tf f) tf frameSlots f := by
  intro x hx
  rcases List.mem_cons.mp hx with rfl | hx
  · exact ld64_st64 ..
  · have h1 : x.2 + 8 ≤ 112 ∨ 112 + 8 ≤ x.2 := by
      have := (List.pairwise_cons.mp apart_frameSlots.disjoint).1 x hx
      omega
    exact (ld64_st64_ne (by omega)).trans (holds_saveTo apart_userSlots x hx)

lemma kernelSlots_ne : ∀ x ∈ kernelSlots, x.1 ≠ Reg.a0 := by decide

/-- `uservec` as a whole: the registers go to the trapframe, and the kernel's stack, core, page
table and entry point come from it. -/
lemma exec_uservec (hf : MapsFrame tr p) (hm : s.mode = .supervisor)
    (hs : s.csr .satp = MAKE_SATP p.pagetable) :
    let m := saved s.mem p.trapframe s.reg
    exec tr s uservec =
      { reg := loadFrom m p.trapframe (Function.update (Function.update s.reg .a0
          (BitVec.ofNat 64 TRAPFRAME)) .t0 (s.reg .a0)) kernelSlots
        csr := Function.update (Function.update s.csr .sscratch (s.reg .a0)) .satp
          (ld64 m (p.trapframe + kernel_satp))
        mem := m
        mode := s.mode
        pc := ld64 m (p.trapframe + kernel_trap) } := by
  intro m
  have hsm : s.mode ≠ .machine := by simp [hm]
  let s1 := (s.setCsr .sscratch (s.reg .a0)).setReg .a0 (BitVec.ofNat 64 TRAPFRAME)
  have hs1 : s1.csr .satp = MAKE_SATP p.pagetable := hs
  have h1 : exec tr s1 (stores Reg.a0 userSlots) =
      { s1 with mem := saveTo s.mem p.trapframe s1.reg userSlots } :=
    exec_stores (window hf hsm hs1 rfl) apart_userSlots.inside
  have hreg : saveTo s.mem p.trapframe s1.reg userSlots =
      saveTo s.mem p.trapframe s.reg userSlots := by
    refine saveTo_congr fun x hx => Function.update_of_ne ?_ _ _
    rintro h
    have h2 : x.1 ∈ userSlots.map Prod.fst := List.mem_map_of_mem hx
    exact (List.nodup_cons.mp apart_frameSlots.nodup).1 (h ▸ h2)
  let s3 := ({ s1 with mem := saveTo s.mem p.trapframe s.reg userSlots } : State).setReg .t0
    (s.reg .a0)
  have h3 : exec tr s3 (stores Reg.a0 a0Slot) = { s3 with mem := m } :=
    exec_stores (window hf hsm hs1 rfl) (n := 288) (by decide)
  have h4 : exec tr { s3 with mem := m } (loads Reg.a0 kernelSlots) =
      { s3 with mem := m, reg := loadFrom m p.trapframe s3.reg kernelSlots } :=
    exec_loads (n := 288) (window hf hsm hs1 rfl) (by decide)
      fun x hx h => absurd h (kernelSlots_ne x hx)
  rw [uservec_eq, exec_append, exec_append, exec_append, exec_append, exec_append]
  change exec tr (exec tr (exec tr (exec tr (exec tr s1 _) _) _) _) _ = _
  rw [h1, hreg]
  change exec tr (exec tr (exec tr s3 _) _) _ = _
  rw [h3, h4]
  rfl

/-- **Entering the kernel**: whatever user code left in the registers, the trap reaches
`usertrap` on the process's kernel stack, and the trapframe has the user registers and pc. -/
lemma enter_spec (hf : MapsFrame tr p) (h : Ready L p ksatp hart u) :
    ∃ s, enter tr L p u = some s ∧ Entered L p ksatp hart u s := by
  have hcsr : (trap u).csr .satp = MAKE_SATP p.pagetable := h.satp
  have hexec := exec_uservec hf (s := trap u) rfl hcsr
  have hmem : ∀ o, o + 8 ≤ 40 → ld64 (saved u.mem p.trapframe u.reg) (p.trapframe + o) =
      ld64 u.mem (p.trapframe + o) := fun o ho => ld64_congr fun a _ _ => saved_out (by omega)
  refine ⟨{ mem := st64 (saved u.mem p.trapframe u.reg) (p.trapframe + epc) u.pc
            reg := loadFrom (saved u.mem p.trapframe u.reg) p.trapframe (Function.update
              (Function.update u.reg .a0 (BitVec.ofNat 64 TRAPFRAME)) .t0 (u.reg .a0)) kernelSlots
            csr := Function.update (Function.update (Function.update (trap u).csr .sscratch
              (u.reg .a0)) .satp (ld64 (saved u.mem p.trapframe u.reg) (p.trapframe + kernel_satp)))
              .stvec L.kernelvec
            mode := .supervisor
            pc := ld64 (saved u.mem p.trapframe u.reg) (p.trapframe + kernel_trap) }, ?_, ?_⟩
  · have hspp : ((trap u).csr .sstatus).getLsbD SPP = false := by
      rw [trap_sstatus, if_pos rfl, h.mode]
      rfl
    have hpc : (exec tr (trap u) uservec).pc = L.usertrap := by
      rw [hexec]
      exact (hmem kernel_trap (by decide)).trans h.kernel_trap
    have hvec : (trap u).pc = L.trampoline_uservec := h.stvec
    unfold enter
    rw [if_neg (not_not.mpr hvec)]
    dsimp only
    rw [if_neg (not_not.mpr hpc), hexec]
    exact if_neg (by rw [Bool.not_eq_true]; exact hspp)
  · refine ⟨rfl, ?_, rfl, ?_, ?_, ?_, ?_, ?_, ld64_st64 .., fun a ha => ?_⟩
    · exact (hmem 0 (by omega)).trans h.kernel_satp
    · change ((trap u).csr .sstatus).getLsbD SIE = false
      rw [trap_sstatus, if_neg (by decide), if_pos rfl]
    · exact (hmem kernel_trap (by decide)).trans h.kernel_trap
    · exact (hmem kernel_sp (by decide)).trans h.kernel_sp
    · exact (hmem kernel_hartid (by decide)).trans h.kernel_hartid
    · refine (holds_saved u.mem p.trapframe u.reg).congr fun x hx => ld64_st64_ne ?_
      have := frameSlots_ge x hx
      unfold epc
      omega
    · refine (st64_out ?_).trans (saved_out (by omega))
      unfold epc
      omega

/-! ### Returning to user space -/

lemma exec_userret {f : Reg → Word} (hf : MapsFrame tr p) (hm : s.mode = .supervisor)
    (ha : s.reg .a0 = MAKE_SATP p.pagetable) (hh : Holds s.mem p.trapframe frameSlots f) :
    exec tr s userret = step tr { s.setCsr .satp (MAKE_SATP p.pagetable) with reg := f } .sret := by
  have hsm : s.mode ≠ .machine := by simp [hm]
  let s1 := (s.setCsr .satp (MAKE_SATP p.pagetable)).setReg .a0 (BitVec.ofNat 64 TRAPFRAME)
  have hs1 : exec tr s fromKernel = s1 := by
    change (s.setCsr .satp (s.reg .a0)).setReg .a0 _ = _
    rw [ha]
  have hsatp : s1.csr .satp = MAKE_SATP p.pagetable := State.setCsr_self s .satp _
  have hne : ∀ x ∈ userSlots, x.1 ≠ Reg.a0 := fun x hx h => by
    have h2 : x.1 ∈ userSlots.map Prod.fst := List.mem_map_of_mem hx
    exact (List.nodup_cons.mp apart_frameSlots.nodup).1 (h ▸ h2)
  have h1 : exec tr s1 (loads Reg.a0 userSlots) =
      { s1 with reg := loadFrom s.mem p.trapframe s1.reg userSlots } :=
    exec_loads (window hf hsm hsatp rfl) apart_userSlots.inside fun x hx h => absurd h (hne x hx)
  have ha0 : loadFrom s.mem p.trapframe s1.reg userSlots .a0 = BitVec.ofNat 64 TRAPFRAME :=
    (loadFrom_of_notMem (List.nodup_cons.mp apart_frameSlots.nodup).1).trans
      (State.setReg_self ..)
  let s2 : State := { s1 with reg := loadFrom s.mem p.trapframe s1.reg userSlots }
  have hw : s2.phys tr (s2.reg .a0 + BitVec.ofNat 64 112) = p.trapframe + 112 :=
    window (s := s2) hf hsm hsatp ha0 112 (by omega)
  have hreg : Function.update (loadFrom s.mem p.trapframe s1.reg userSlots) .a0
      (ld64 s.mem (p.trapframe + 112)) = f := by
    funext r
    by_cases hr : r = .a0
    · rw [hr, Function.update_self]
      exact hh (Reg.a0, 112) (List.mem_cons_self ..)
    · rw [Function.update_of_ne hr]
      exact loadFrom_holds (hh.subset (List.subset_cons_self ..)) (mem_userSlots hr)
  have h2 : step tr s2 (.ld .a0 112 .a0) = s2.setReg .a0 (ld64 s.mem (p.trapframe + 112)) :=
    congrArg (fun a => s2.setReg .a0 (ld64 s.mem a)) hw
  have h3 : s2.setReg .a0 (ld64 s.mem (p.trapframe + 112)) =
      { s.setCsr .satp (MAKE_SATP p.pagetable) with reg := f } := by
    unfold State.setReg
    rw [hreg]
    rfl
  rw [userret_eq, exec_append, exec_append, hs1, h1]
  have h4 : exec tr s2 toUser = step tr (step tr s2 (.ld .a0 112 .a0)) .sret := rfl
  exact h4.trans (by rw [h2, h3])

/-- The slots in the order in which `usertrapret` writes them. -/
def returnSlots : Slots :=
  [(.t1, kernel_satp), (.sp, kernel_sp), (.t0, kernel_trap), (.tp, kernel_hartid)]

/-- The registers that `uservec` will load. -/
def kernelRegs (L : Link) (p : Proc) (s : State) : Reg → Word
  | .t1 => s.csr .satp
  | .sp => p.kstack + BitVec.ofNat 64 PGSIZE
  | .t0 => L.usertrap
  | .tp => s.reg .tp
  | _ => 0

lemma usertrapret_mem : (usertrapret L p s).mem =
    saveTo s.mem p.trapframe (kernelRegs L p s) returnSlots := rfl

lemma apart_returnSlots : Apart returnSlots 40 := ⟨by decide, by decide, by decide⟩

lemma usertrapret_epc : ld64 (usertrapret L p s).mem (p.trapframe + epc) =
    ld64 s.mem (p.trapframe + epc) := by
  have h : ∀ x ∈ returnSlots, epc + 8 ≤ x.2 ∨ x.2 + 8 ≤ epc := by decide
  rw [usertrapret_mem]
  exact ld64_saveTo_out fun x hx => by
    have := h x hx
    omega

lemma usertrapret_out {a : ℕ} (h : a < p.trapframe ∨ p.trapframe + 40 ≤ a) :
    (usertrapret L p s).mem a = s.mem a := by
  rw [usertrapret_mem]
  refine saveTo_out fun x hx => ?_
  have := apart_returnSlots.inside x hx
  omega

/-- **Returning to user space**: from any state of the kernel, the process goes on with the
registers and at the pc in its trapframe, and the next trap will find the kernel on this core. -/
lemma leave_spec {f : Reg → Word} (hf : MapsFrame tr p) (hm : s.mode = .supervisor)
    (hk : s.csr .satp = ksatp) (hh : Holds s.mem p.trapframe frameSlots f) :
    (leave tr L p s).reg = f ∧ (leave tr L p s).pc = ld64 s.mem (p.trapframe + epc) ∧
      Ready L p ksatp (s.reg .tp) (leave tr L p s) ∧
      ∀ a, a < p.trapframe ∨ p.trapframe + 40 ≤ a → (leave tr L p s).mem a = s.mem a := by
  let t := usertrapret L p s
  have hh' : Holds t.mem p.trapframe frameSlots f := hh.congr fun x hx => ld64_congr fun a _ _ => by
    have := frameSlots_ge x hx
    exact usertrapret_out (by omega)
  have hk' : Holds t.mem p.trapframe returnSlots (kernelRegs L p s) := by
    rw [usertrapret_mem]
    exact holds_saveTo apart_returnSlots
  have hspp : (t.csr .sstatus).getLsbD SPP = false := by
    change (setBit (setBit _ SPP false) SPIE true).getLsbD SPP = false
    rw [getLsbD_setBit _ (by decide), getLsbD_setBit _ (by decide), if_neg (by decide), if_pos rfl]
  have hexec : leave tr L p s =
      step tr { t.setCsr .satp (MAKE_SATP p.pagetable) with reg := f } .sret :=
    exec_userret (s := t) hf hm (State.setReg_self s .a0 _) hh'
  rw [hexec]
  refine ⟨rfl, usertrapret_epc, ⟨?_, State.setCsr_self t .satp _, rfl, ?_, ?_, ?_, ?_⟩,
    fun a ha => usertrapret_out ha⟩
  · change (if (t.csr .sstatus).getLsbD SPP then Mode.supervisor else .user) = .user
    rw [hspp]
    rfl
  · exact (hk' (.t1, kernel_satp) (by decide)).trans hk
  · exact hk' (.sp, kernel_sp) (by decide)
  · exact hk' (.t0, kernel_trap) (by decide)
  · exact hk' (.tp, kernel_hartid) (by decide)

/-! ### Runs of a process

A process alternates between user code and the kernel; while it is in the kernel it may sleep,
be interrupted and go on on another core.
-/

variable (p) in
/-- User code, and whatever executes at the same time elsewhere: anything can become of the
registers, and of memory but for the trapframe page. -/
structure UserStep (u u' : State) : Prop where
  mode : u'.mode = u.mode
  csr : u'.csr = u.csr
  mem : ∀ a, p.trapframe ≤ a → a < p.trapframe + PGSIZE → u'.mem a = u.mem a

/-- The kernel from the dispatch in `usertrap` to `usertrapret`. -/
structure KernelStep (ksatp : Word) (t : State) : Prop where
  mode : t.mode = .supervisor
  satp : t.csr .satp = ksatp

variable (tr L p) in
/-- The states in which the process is in user space, and the core it is on: first after
`forkret`, then after user code and traps. -/
inductive Rounds (ksatp : Word) : Word → State → Prop
  | forkret {t : State} (ht : KernelStep ksatp t) : Rounds ksatp (t.reg .tp) (leave tr L p t)
  | user {hart : Word} {u u' : State} (h : Rounds ksatp hart u) (hu : UserStep p u u') :
      Rounds ksatp hart u'
  | trap {hart : Word} {u s t : State} (h : Rounds ksatp hart u) (hs : enter tr L p u = some s)
      (ht : KernelStep ksatp t) : Rounds ksatp (t.reg .tp) (leave tr L p t)

variable {t u' : State}

lemma ready_user (h : Ready L p ksatp hart u) (hu : UserStep p u u') : Ready L p ksatp hart u' := by
  have hld : ∀ o, o + 8 ≤ 40 → ld64 u'.mem (p.trapframe + o) = ld64 u.mem (p.trapframe + o) :=
    fun o ho => ld64_congr fun a _ _ => by
      refine hu.mem a (by omega) ?_
      unfold PGSIZE
      omega
  exact ⟨hu.mode.trans h.mode, by rw [hu.csr, h.satp], by rw [hu.csr, h.stvec],
    (hld kernel_satp (by decide)).trans h.kernel_satp,
    (hld kernel_sp (by decide)).trans h.kernel_sp,
    (hld kernel_trap (by decide)).trans h.kernel_trap,
    (hld kernel_hartid (by decide)).trans h.kernel_hartid⟩

/-- The registers in the trapframe. -/
def frameRegs (m : Mem) (tf : ℕ) : Reg → Word := loadFrom m tf (fun _ => 0) frameSlots

lemma holds_frameRegs (m : Mem) (tf : ℕ) : Holds m tf frameSlots (frameRegs m tf) :=
  holds_loadFrom apart_frameSlots

lemma Rounds.ready (hf : MapsFrame tr p) (h : Rounds tr L p ksatp hart u) :
    Ready L p ksatp hart u := by
  induction h with
  | forkret ht => exact (leave_spec hf ht.mode ht.satp (holds_frameRegs _ _)).2.2.1
  | user _ hu ih => exact ready_user ih hu
  | trap _ _ ht => exact (leave_spec hf ht.mode ht.satp (holds_frameRegs _ _)).2.2.1

/-- **User code cannot choose how the kernel is entered**: in every run, whatever the process left
in its registers, its next trap reaches `usertrap` without a panic, with interrupts off, on its
own kernel stack, the kernel's page table and the core it is on, and its registers and pc are in
its trapframe. -/
theorem kernel_entry (hf : MapsFrame tr p) (h : Rounds tr L p ksatp hart u) :
    ∃ s, enter tr L p u = some s ∧ Entered L p ksatp hart u s :=
  enter_spec hf (h.ready hf)

/-- A process, the addresses of the kernel, and its page table. -/
def proc0 : Proc := ⟨0x87000000, 0x3fffffd000, 0x86fff000⟩

def link0 : Link := ⟨0x80001000, 0x80005000, 0x3ffffff000⟩

def table0 (satp : Word) (a : ℕ) : ℕ :=
  if satp = MAKE_SATP proc0.pagetable then a - TRAPFRAME + proc0.trapframe else a

/-- The kernel about to return to user space for the first time. -/
def first : State := ⟨fun _ => 0, fun _ => 0, fun _ => 0, .supervisor, 0⟩

lemma maps0 : MapsFrame table0 proc0 := by
  intro o _
  unfold table0
  rw [if_pos rfl]
  omega

lemma rounds_first : Rounds table0 link0 proc0 0 0 (leave table0 link0 proc0 first) :=
  Rounds.forkret (t := first) ⟨rfl, rfl⟩

/-- User code that has loaded its registers. -/
def loaded : State :=
  { leave table0 link0 proc0 first with reg := fun _ => 7, pc := 0x1000 }

lemma rounds_loaded : Rounds table0 link0 proc0 0 0 loaded :=
  rounds_first.user ⟨rfl, rfl, fun _ _ _ => rfl⟩

/-- The process traps, goes on at another core, and traps again. -/
theorem kernel_entry_second : ∃ s, enter table0 link0 proc0 loaded = some s ∧
    ∃ s', enter table0 link0 proc0
        (leave table0 link0 proc0 { s with reg := Function.update s.reg .tp 1 }) = some s' ∧
      Entered link0 proc0 0 1
        (leave table0 link0 proc0 { s with reg := Function.update s.reg .tp 1 }) s' := by
  obtain ⟨s, hs, he⟩ := enter_spec maps0 (rounds_loaded.ready maps0)
  have h := Rounds.trap (t := { s with reg := Function.update s.reg .tp 1 }) rounds_loaded hs
    ⟨he.mode, he.satp⟩
  have htp : Function.update s.reg .tp 1 .tp = 1 := Function.update_self ..
  exact ⟨s, hs, kernel_entry maps0 (htp ▸ h)⟩

/-- Kernel memory with a user register and the user pc replaced, as a system call does. -/
def answer (m : Mem) (tf : ℕ) (r : Word) : Mem :=
  st64 (st64 m (tf + epc) (ld64 m (tf + epc) + 4)) (tf + 112) r

lemma frame_congr {m m' : Mem} {tf : ℕ} {f : Reg → Word}
    (h : ∀ a, tf + 24 ≤ a → a < tf + 288 → m' a = m a) (hm : Holds m tf frameSlots f) :
    Holds m' tf frameSlots f := hm.congr fun x hx => ld64_congr fun a _ _ => by
  have h1 := frameSlots_ge x hx
  have h2 := apart_frameSlots.inside x hx
  exact h a (by omega) (by omega)

lemma holds_answer {m : Mem} {tf : ℕ} {f : Reg → Word} {r : Word} (hm : Holds m tf frameSlots f) :
    Holds (answer m tf r) tf frameSlots (Function.update f .a0 r) := by
  intro x hx
  rcases List.mem_cons.mp hx with rfl | hx'
  · rw [Function.update_self]
    exact ld64_st64 ..
  · have h1 := (List.pairwise_cons.mp apart_frameSlots.disjoint).1 x hx'
    have h2 := frameSlots_ge x hx
    have h3 : x.1 ≠ Reg.a0 := fun h => by
      have h4 : x.1 ∈ userSlots.map Prod.fst := List.mem_map_of_mem hx'
      exact (List.nodup_cons.mp apart_frameSlots.nodup).1 (h ▸ h4)
    rw [Function.update_of_ne h3, answer, ld64_st64_ne (by omega), ld64_st64_ne]
    · exact hm x hx
    · unfold epc
      omega

/-- **Traps are transparent**: a trap that the kernel handles without writing to the user part of
the trapframe ends with the user code at the same pc with the same registers, all of them; a
system call changes `a0` alone, and goes on after the instruction. -/
theorem trap_transparent (hf : MapsFrame tr p) (h : Rounds tr L p ksatp hart u)
    (hs : enter tr L p u = some s) (ht : KernelStep ksatp t) :
    ((∀ a, p.trapframe + 24 ≤ a → a < p.trapframe + 288 → t.mem a = s.mem a) →
      (leave tr L p t).mode = .user ∧ (leave tr L p t).reg = u.reg ∧ (leave tr L p t).pc = u.pc) ∧
    ∀ r, (∀ a, p.trapframe + 24 ≤ a → a < p.trapframe + 288 →
        t.mem a = answer s.mem p.trapframe r a) →
      (leave tr L p t).mode = .user ∧ (leave tr L p t).reg = Function.update u.reg .a0 r ∧
        (leave tr L p t).pc = u.pc + 4 := by
  obtain ⟨s', hs', he⟩ := enter_spec hf (h.ready hf)
  obtain rfl : s' = s := by
    rw [hs] at hs'
    exact (Option.some.inj hs').symm
  constructor
  · intro hm
    obtain ⟨h1, h2, h3, -⟩ := leave_spec (L := L) hf ht.mode ht.satp (frame_congr hm he.frame)
    refine ⟨h3.mode, h1, h2.trans ?_⟩
    rw [ld64_congr fun a _ _ => hm a (by unfold epc at *; omega) (by unfold epc at *; omega), he.epc]
  · intro r hm
    obtain ⟨h1, h2, h3, -⟩ := leave_spec (L := L) hf ht.mode ht.satp
      (frame_congr hm (holds_answer he.frame))
    refine ⟨h3.mode, h1, h2.trans ?_⟩
    rw [ld64_congr fun a _ _ => hm a (by unfold epc at *; omega) (by unfold epc at *; omega), answer,
      ld64_st64_ne (by unfold epc; omega), ld64_st64, he.epc]

/-- A system call that returns 42. -/
theorem trap_transparent_call : ∃ s t, enter table0 link0 proc0 loaded = some s ∧
    t = { s with mem := answer s.mem proc0.trapframe 42 } ∧
    (leave table0 link0 proc0 t).reg = Function.update (fun _ => 7) .a0 42 ∧
      (leave table0 link0 proc0 t).pc = 0x1004 := by
  obtain ⟨s, hs, he⟩ := enter_spec maps0 (rounds_loaded.ready maps0)
  exact ⟨s, _, hs, rfl, ((trap_transparent maps0 rounds_loaded hs
    (t := { s with mem := answer s.mem proc0.trapframe 42 }) ⟨he.mode, he.satp⟩).2 42
      fun _ _ _ => rfl).2⟩

end Xv6.Trampoline
