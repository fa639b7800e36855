import Xv6.ByteMem
import Mathlib.Logic.Function.Basic
import Mathlib.Data.List.Nodup

/-!
A small RV64 machine for straight-line system code: the integer registers, the control registers
such code uses, and a byte memory behind an address translation. The rules are those of blocks of
stores and loads at constant offsets from one register, as in the code that saves and restores a
register file.
-/

namespace Xv6.Rv

open Xv6.ByteMem

/-- The integer registers under their names in the calling convention, but for `zero`. -/
inductive Reg
  | ra | sp | gp | tp | t0 | t1 | t2 | s0 | s1 | a0 | a1 | a2 | a3 | a4 | a5 | a6 | a7
  | s2 | s3 | s4 | s5 | s6 | s7 | s8 | s9 | s10 | s11 | t3 | t4 | t5 | t6
  deriving DecidableEq

inductive Csr
  | sstatus | sepc | stvec | sscratch | satp | sip | mstatus | mepc | mtvec | mscratch
  deriving DecidableEq

inductive Mode
  | user | supervisor | machine
  deriving DecidableEq

structure State where
  reg : Reg → Word
  csr : Csr → Word
  mem : Mem
  mode : Mode
  pc : Word

inductive Instr
  | ld (rd : Reg) (off : ℕ) (b : Reg)
  | sd (rs : Reg) (off : ℕ) (b : Reg)
  | li (rd : Reg) (v : Word)
  | addi (rd rs : Reg) (v : Word)
  | add (rd rs rt : Reg)
  | csrr (rd : Reg) (c : Csr)
  | csrw (c : Csr) (rs : Reg)
  | csrrw (rd : Reg) (c : Csr) (rs : Reg)
  | sfence_vma
  | jr (rs : Reg)
  | sret
  | mret

/-- Bits of `sstatus` and `mstatus`: interrupt enables, their previous values, previous modes. -/
def SIE : ℕ := 1
def MIE : ℕ := 3
def SPIE : ℕ := 5
def MPIE : ℕ := 7
def SPP : ℕ := 8

def bit (k : ℕ) : Word := 1#64 <<< k

/-- The word with bit `k` set to `v`. -/
def setBit (w : Word) (k : ℕ) (v : Bool) : Word := if v then w ||| bit k else w &&& ~~~bit k

lemma getLsbD_bit {k : ℕ} (hk : k < 64) (j : ℕ) : (bit k).getLsbD j = decide (j = k) := by
  unfold bit
  rw [BitVec.getLsbD_shiftLeft]
  by_cases h : j = k
  · simp [h, hk]
  · simp only [BitVec.getLsbD_one]
    simp [h]
    omega

lemma getLsbD_setBit (w : Word) {k : ℕ} (hk : k < 64) (v : Bool) (j : ℕ) :
    (setBit w k v).getLsbD j = if j = k then v else w.getLsbD j := by
  unfold setBit
  by_cases h : j = k
  · cases v <;> simp [getLsbD_bit hk, h]
  · cases v <;> simp [getLsbD_bit hk, h]
    exact BitVec.lt_of_getLsbD

def Mode.code : Mode → Word
  | .user => 0
  | .supervisor => 1
  | .machine => 3

/-- The word with the mode `v` in `MPP`. -/
def setMpp (w : Word) (v : Mode) : Word := w &&& ~~~(3#64 <<< 11) ||| v.code <<< 11

/-- The mode in `MPP`. -/
def mpp (w : Word) : Mode :=
  if w.extractLsb' 11 2 = 0 then .user else if w.extractLsb' 11 2 = 1 then .supervisor else .machine

lemma mpp_setMpp (w : Word) (v : Mode) : mpp (setMpp w v) = v := by
  have h : (setMpp w v).extractLsb' 11 2 = v.code.extractLsb' 0 2 := by
    apply BitVec.eq_of_getLsbD_eq
    intro i hi
    obtain rfl | rfl : i = 0 ∨ i = 1 := by omega
    · simp [setMpp]
    · simp [setMpp]
  unfold mpp
  rw [h]
  cases v <;> rfl

lemma getLsbD_setMpp (w : Word) (v : Mode) {k : ℕ} (hk : k < 11) :
    (setMpp w v).getLsbD k = w.getLsbD k := by
  have h : (3#64 <<< 11).getLsbD k = false := by
    rw [BitVec.getLsbD_shiftLeft, decide_eq_true hk]
    simp
  have h1 : (v.code <<< 11).getLsbD k = false := by
    rw [BitVec.getLsbD_shiftLeft, decide_eq_true hk]
    simp
  have h2 : decide (k < 64) = true := decide_eq_true (by omega)
  rw [setMpp, BitVec.getLsbD_or, BitVec.getLsbD_and, BitVec.getLsbD_not, h, h1, h2]
  simp

variable (tr : Word → ℕ → ℕ)

namespace State

def setReg (s : State) (r : Reg) (v : Word) : State := { s with reg := Function.update s.reg r v }

def setCsr (s : State) (c : Csr) (v : Word) : State := { s with csr := Function.update s.csr c v }

@[simp] lemma setReg_self (s : State) (r : Reg) (v : Word) : (s.setReg r v).reg r = v :=
  Function.update_self ..

lemma setReg_ne (s : State) {r r' : Reg} (v : Word) (h : r' ≠ r) :
    (s.setReg r v).reg r' = s.reg r' := Function.update_of_ne h _ _

@[simp] lemma setCsr_self (s : State) (c : Csr) (v : Word) : (s.setCsr c v).csr c = v :=
  Function.update_self ..

lemma setCsr_ne (s : State) {c c' : Csr} (v : Word) (h : c' ≠ c) :
    (s.setCsr c v).csr c' = s.csr c' := Function.update_of_ne h _ _

/-- Where an access to `a` goes: through the translation that `satp` selects, but in machine
mode. -/
def phys (s : State) (a : Word) : ℕ :=
  if s.mode = .machine then a.toNat else tr (s.csr .satp) a.toNat

variable {tr} in
lemma phys_supervisor {s : State} (h : s.mode = .supervisor) (a : Word) :
    s.phys tr a = tr (s.csr .satp) a.toNat := by
  rw [phys, h]
  rfl

end State

def step (s : State) : Instr → State
  | .ld rd off b => s.setReg rd (ld64 s.mem (s.phys tr (s.reg b + BitVec.ofNat 64 off)))
  | .sd rs off b =>
    { s with mem := st64 s.mem (s.phys tr (s.reg b + BitVec.ofNat 64 off)) (s.reg rs) }
  | .li rd v => s.setReg rd v
  | .addi rd rs v => s.setReg rd (s.reg rs + v)
  | .add rd rs rt => s.setReg rd (s.reg rs + s.reg rt)
  | .csrr rd c => s.setReg rd (s.csr c)
  | .csrw c rs => s.setCsr c (s.reg rs)
  | .csrrw rd c rs => (s.setCsr c (s.reg rs)).setReg rd (s.csr c)
  | .sfence_vma => s
  | .jr rs => { s with pc := s.reg rs }
  | .sret =>
    let w := s.csr .sstatus
    { s.setCsr .sstatus (setBit (setBit (setBit w SIE (w.getLsbD SPIE)) SPIE true) SPP false) with
      mode := if w.getLsbD SPP then .supervisor else .user
      pc := s.csr .sepc }
  | .mret =>
    let w := s.csr .mstatus
    { s.setCsr .mstatus (setMpp (setBit (setBit w MIE (w.getLsbD MPIE)) MPIE true) .user) with
      mode := mpp w
      pc := s.csr .mepc }

/-- A trap into supervisor mode. -/
def trap (s : State) : State :=
  let w := s.csr .sstatus
  let w' := setBit (setBit w SPIE (w.getLsbD SIE)) SIE false
  { (s.setCsr .sepc s.pc).setCsr .sstatus (setBit w' SPP (decide (s.mode = .supervisor))) with
    mode := .supervisor
    pc := s.csr .stvec }

/-- A trap into machine mode. -/
def mtrap (s : State) : State :=
  let w := s.csr .mstatus
  let w' := setBit (setBit w MPIE (w.getLsbD MIE)) MIE false
  { (s.setCsr .mepc s.pc).setCsr .mstatus (setMpp w' s.mode) with
    mode := .machine
    pc := s.csr .mtvec }

def exec (s : State) (is : List Instr) : State := is.foldl (step tr) s

@[simp] lemma exec_nil (s : State) : exec tr s [] = s := rfl

@[simp] lemma exec_cons (s : State) (i : Instr) (is : List Instr) :
    exec tr s (i :: is) = exec tr (step tr s i) is := rfl

lemma trap_sstatus (s : State) (k : ℕ) : ((trap s).csr .sstatus).getLsbD k =
    if k = SPP then decide (s.mode = .supervisor) else if k = SIE then false
    else if k = SPIE then (s.csr .sstatus).getLsbD SIE else (s.csr .sstatus).getLsbD k := by
  change (setBit (setBit (setBit _ SPIE _) SIE false) SPP _).getLsbD k = _
  rw [getLsbD_setBit _ (by decide), getLsbD_setBit _ (by decide), getLsbD_setBit _ (by decide)]

lemma sret_sstatus (s : State) (k : ℕ) : ((step tr s .sret).csr .sstatus).getLsbD k =
    if k = SPP then false else if k = SPIE then true
    else if k = SIE then (s.csr .sstatus).getLsbD SPIE else (s.csr .sstatus).getLsbD k := by
  change (setBit (setBit (setBit _ SIE _) SPIE true) SPP false).getLsbD k = _
  rw [getLsbD_setBit _ (by decide), getLsbD_setBit _ (by decide), getLsbD_setBit _ (by decide)]

lemma mtrap_mstatus (s : State) {k : ℕ} (hk : k < 11) : ((mtrap s).csr .mstatus).getLsbD k =
    if k = MIE then false else if k = MPIE then (s.csr .mstatus).getLsbD MIE
    else (s.csr .mstatus).getLsbD k := by
  change (setMpp (setBit (setBit _ MPIE _) MIE false) _).getLsbD k = _
  rw [getLsbD_setMpp _ _ hk, getLsbD_setBit _ (by decide), getLsbD_setBit _ (by decide)]

lemma mret_mstatus (s : State) {k : ℕ} (hk : k < 11) :
    ((step tr s .mret).csr .mstatus).getLsbD k =
      if k = MPIE then true else if k = MIE then (s.csr .mstatus).getLsbD MPIE
      else (s.csr .mstatus).getLsbD k := by
  change (setMpp (setBit (setBit _ MIE _) MPIE true) .user).getLsbD k = _
  rw [getLsbD_setMpp _ _ hk, getLsbD_setBit _ (by decide), getLsbD_setBit _ (by decide)]

lemma mret_mode {s t : State} (h : t.csr .mstatus = (mtrap s).csr .mstatus) :
    (step tr t .mret).mode = s.mode := by
  change mpp (t.csr .mstatus) = _
  rw [h]
  exact mpp_setMpp ..

lemma exec_append (s : State) (is js : List Instr) :
    exec tr s (is ++ js) = exec tr (exec tr s is) js := List.foldl_append

/-! ### Blocks of stores and loads

Registers are kept in 8-byte slots at constant offsets from an address.
-/

/-- Registers and the offsets of their slots. -/
abbrev Slots := List (Reg × ℕ)

def stores (b : Reg) (l : Slots) : List Instr := l.map fun x => .sd x.1 x.2 b

def loads (b : Reg) (l : Slots) : List Instr := l.map fun x => .ld x.1 x.2 b

/-- The slots are disjoint and inside `n` bytes, and no register has two. -/
structure Apart (l : Slots) (n : ℕ) : Prop where
  inside : ∀ x ∈ l, x.2 + 8 ≤ n
  disjoint : l.Pairwise fun x y => x.2 + 8 ≤ y.2 ∨ y.2 + 8 ≤ x.2
  nodup : (l.map Prod.fst).Nodup

/-- The `n` bytes at the address in `b` are the `n` bytes of memory at `p`. -/
def Window (s : State) (b : Reg) (p n : ℕ) : Prop :=
  ∀ o, o + 8 ≤ n → s.phys tr (s.reg b + BitVec.ofNat 64 o) = p + o

/-- Memory with the registers `f` in their slots at `p`. -/
def saveTo (m : Mem) (p : ℕ) (f : Reg → Word) (l : Slots) : Mem :=
  l.foldl (fun m x => st64 m (p + x.2) (f x.1)) m

/-- Registers with what their slots at `p` hold. -/
def loadFrom (m : Mem) (p : ℕ) (f : Reg → Word) (l : Slots) : Reg → Word :=
  l.foldl (fun f x => Function.update f x.1 (ld64 m (p + x.2))) f

/-- The slots at `p` hold the registers `f`. -/
def Holds (m : Mem) (p : ℕ) (l : Slots) (f : Reg → Word) : Prop :=
  ∀ x ∈ l, ld64 m (p + x.2) = f x.1

variable {tr} {s : State} {b : Reg} {l : Slots} {m m' : Mem} {p n a : ℕ} {f g : Reg → Word}

lemma Apart.tail {x : Reg × ℕ} (h : Apart (x :: l) n) : Apart l n where
  inside y hy := h.inside y (List.mem_cons_of_mem _ hy)
  disjoint := h.disjoint.of_cons
  nodup := (List.nodup_cons.mp h.nodup).2

lemma Apart.mono {k : ℕ} (h : Apart l n) (hk : n ≤ k) : Apart l k where
  inside x hx := (h.inside x hx).trans hk
  disjoint := h.disjoint
  nodup := h.nodup

lemma Apart.sublist {k : Slots} (h : Apart l n) (hk : k.Sublist l) : Apart k n where
  inside x hx := h.inside x (hk.subset hx)
  disjoint := h.disjoint.sublist hk
  nodup := h.nodup.sublist (hk.map _)

lemma exec_stores (hw : Window tr s b p n) (hl : ∀ x ∈ l, x.2 + 8 ≤ n) :
    exec tr s (stores b l) = { s with mem := saveTo s.mem p s.reg l } := by
  induction l generalizing s with
  | nil => rfl
  | cons x l ih =>
    have hx := hw x.2 (hl x (List.mem_cons_self ..))
    have hs : step tr s (.sd x.1 x.2 b) = { s with mem := st64 s.mem (p + x.2) (s.reg x.1) } := by
      simp only [step, hx]
    have hw' : Window tr { s with mem := st64 s.mem (p + x.2) (s.reg x.1) } b p n := hw
    have h1 := ih hw' fun y hy => hl y (List.mem_cons_of_mem _ hy)
    simp only [stores, List.map_cons, exec_cons, hs]
    exact h1

lemma exec_loads (hw : Window tr s b p n) (hl : ∀ x ∈ l, x.2 + 8 ≤ n)
    (hb : ∀ x ∈ l, x.1 = b → ld64 s.mem (p + x.2) = s.reg b) :
    exec tr s (loads b l) = { s with reg := loadFrom s.mem p s.reg l } := by
  induction l generalizing s with
  | nil => rfl
  | cons x l ih =>
    have hx := hw x.2 (hl x (List.mem_cons_self ..))
    have hs : step tr s (.ld x.1 x.2 b) = s.setReg x.1 (ld64 s.mem (p + x.2)) := by
      simp only [step, hx]
    have hkeep : (s.setReg x.1 (ld64 s.mem (p + x.2))).reg b = s.reg b := by
      by_cases h : x.1 = b
      · rw [← hb x (List.mem_cons_self ..) h, ← h]
        exact Function.update_self ..
      · exact Function.update_of_ne (Ne.symm h) _ _
    have hw' : Window tr (s.setReg x.1 (ld64 s.mem (p + x.2))) b p n := by
      intro o ho
      rw [hkeep]
      exact hw o ho
    have h1 := ih hw' (fun y hy => hl y (List.mem_cons_of_mem _ hy)) fun y hy h => by
      rw [hkeep]
      exact hb y (List.mem_cons_of_mem _ hy) h
    simp only [loads, List.map_cons, exec_cons, hs]
    exact h1

lemma saveTo_congr (h : ∀ x ∈ l, f x.1 = g x.1) : saveTo m p f l = saveTo m p g l := by
  induction l generalizing m with
  | nil => rfl
  | cons x l ih =>
    have h1 := h x (List.mem_cons_self ..)
    simp only [saveTo, List.foldl_cons, h1]
    exact ih fun y hy => h y (List.mem_cons_of_mem _ hy)

lemma saveTo_out (h : ∀ x ∈ l, a < p + x.2 ∨ p + x.2 + 8 ≤ a) : saveTo m p f l a = m a := by
  induction l generalizing m with
  | nil => rfl
  | cons x l ih =>
    have h1 := ih (m := st64 m (p + x.2) (f x.1)) fun y hy => h y (List.mem_cons_of_mem _ hy)
    exact h1.trans (st64_out (h x (List.mem_cons_self ..)))

lemma ld64_saveTo_out (h : ∀ x ∈ l, a + 8 ≤ p + x.2 ∨ p + x.2 + 8 ≤ a) :
    ld64 (saveTo m p f l) a = ld64 m a :=
  ld64_congr fun _ _ _ => saveTo_out fun x hx => by
    have := h x hx
    omega

lemma holds_saveTo (h : Apart l n) : Holds (saveTo m p f l) p l f := by
  induction l generalizing m with
  | nil => simp [Holds]
  | cons x l ih =>
    intro y hy
    rcases List.mem_cons.mp hy with rfl | hy
    · have h1 := (List.pairwise_cons.mp h.disjoint).1
      refine (ld64_saveTo_out (m := st64 m (p + y.2) (f y.1)) fun z hz => ?_).trans (ld64_st64 ..)
      have := h1 z hz
      omega
    · exact ih h.tail y hy

lemma loadFrom_of_notMem {r : Reg} (h : r ∉ l.map Prod.fst) : loadFrom m p f l r = f r := by
  induction l generalizing f with
  | nil => rfl
  | cons x l ih =>
    simp only [List.map_cons, List.mem_cons, not_or] at h
    exact (ih h.2).trans (Function.update_of_ne h.1 _ _)

lemma loadFrom_holds (hm : Holds m p l g) {r : Reg} (hr : r ∈ l.map Prod.fst) :
    loadFrom m p f l r = g r := by
  induction l generalizing f with
  | nil => simp at hr
  | cons x l ih =>
    have hm' : Holds m p l g := fun y hy => hm y (List.mem_cons_of_mem _ hy)
    by_cases h : r ∈ l.map Prod.fst
    · exact ih hm' h
    · have hx : r = x.1 := by simpa [h] using hr
      have h1 : loadFrom m p (Function.update f x.1 (ld64 m (p + x.2))) l r = _ :=
        loadFrom_of_notMem h
      refine h1.trans ?_
      rw [hx, Function.update_self]
      exact hm x (List.mem_cons_self ..)

lemma holds_loadFrom (h : Apart l n) : Holds m p l (loadFrom m p f l) := by
  induction l generalizing f with
  | nil => simp [Holds]
  | cons x l ih =>
    intro y hy
    rcases List.mem_cons.mp hy with rfl | hy
    · refine Eq.symm ((loadFrom_of_notMem (List.nodup_cons.mp h.nodup).1).trans ?_)
      exact Function.update_self ..
    · exact ih h.tail y hy

lemma Holds.congr (h : Holds m p l f) (hm : ∀ x ∈ l, ld64 m' (p + x.2) = ld64 m (p + x.2)) :
    Holds m' p l f := fun x hx => (hm x hx).trans (h x hx)

lemma Holds.subset {k : Slots} (h : Holds m p l f) (hk : k ⊆ l) : Holds m p k f :=
  fun x hx => h x (hk hx)

end Xv6.Rv
