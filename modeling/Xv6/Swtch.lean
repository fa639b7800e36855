import Xv6.Rv
import Xv6.Runs

/-!
Switching threads: `swtch.S`.

The cores share a memory. Each switch, executed with `old` in `a0` and `new` in `a1`, is one step,
between which the cores execute any code that leaves the saved contexts alone; `allocproc` sets
up the context of a new process. The abstract machine keeps the registers of a suspended thread
aside, as values.
-/

namespace Xv6.Swtch

open Xv6.ByteMem Xv6.Rv Xv6.Runs

def swtch : List Instr := [
  .sd .ra 0 .a0, .sd .sp 8 .a0, .sd .s0 16 .a0, .sd .s1 24 .a0, .sd .s2 32 .a0, .sd .s3 40 .a0,
  .sd .s4 48 .a0, .sd .s5 56 .a0, .sd .s6 64 .a0, .sd .s7 72 .a0, .sd .s8 80 .a0, .sd .s9 88 .a0,
  .sd .s10 96 .a0, .sd .s11 104 .a0,
  .ld .ra 0 .a1, .ld .sp 8 .a1, .ld .s0 16 .a1, .ld .s1 24 .a1, .ld .s2 32 .a1, .ld .s3 40 .a1,
  .ld .s4 48 .a1, .ld .s5 56 .a1, .ld .s6 64 .a1, .ld .s7 72 .a1, .ld .s8 80 .a1, .ld .s9 88 .a1,
  .ld .s10 96 .a1, .ld .s11 104 .a1,
  .jr .ra]

/-- `struct context`. -/
def context : Slots := [
  (.ra, 0), (.sp, 8), (.s0, 16), (.s1, 24), (.s2, 32), (.s3, 40), (.s4, 48), (.s5, 56), (.s6, 64),
  (.s7, 72), (.s8, 80), (.s9, 88), (.s10, 96), (.s11, 104)]

def ret : List Instr := [.jr .ra]

lemma swtch_eq : swtch = stores Reg.a0 context ++ (loads Reg.a1 context ++ ret) := rfl

lemma apart_context : Apart context 112 := ⟨by decide, by decide, by decide⟩

lemma context_ne : ∀ x ∈ context, x.1 ≠ Reg.a0 ∧ x.1 ≠ Reg.a1 := by decide

variable {tr : Word → ℕ → ℕ} {s : State}

lemma exec_swtch {old new : ℕ} (ho : Window tr s .a0 old 112) (hn : Window tr s .a1 new 112) :
    let m := saveTo s.mem old s.reg context
    exec tr s swtch = { s with
      mem := m
      reg := loadFrom m new s.reg context
      pc := loadFrom m new s.reg context .ra } := by
  intro m
  have h1 : exec tr s (stores Reg.a0 context) = { s with mem := m } :=
    exec_stores ho apart_context.inside
  have h2 : exec tr { s with mem := m } (loads Reg.a1 context) =
      { s with mem := m, reg := loadFrom m new s.reg context } :=
    exec_loads (n := 112) hn apart_context.inside fun x hx h => absurd h (context_ne x hx).2
  rw [swtch_eq, exec_append, exec_append, h1, h2]
  rfl

/-! ### Cores and threads -/

variable {N : ℕ}

/-- What a core has of its own. -/
structure Core where
  reg : Reg → Word
  csr : Csr → Word
  mode : Mode
  pc : Word

structure World (N : ℕ) where
  mem : Mem
  core : Fin N → Core

inductive Event (N : ℕ)
  /-- Core `c` executes some other code, which leaves it in `s`. -/
  | other (c : Fin N) (s : State)
  /-- `allocproc` clears the context at `k` and sets its `ra` and `sp`. -/
  | allocproc (k : ℕ) (ra sp : Word)
  | swtch (c : Fin N)

def Core.state (r : Core) (m : Mem) : State := ⟨r.reg, r.csr, m, r.mode, r.pc⟩

def coreOf (s : State) : Core := ⟨s.reg, s.csr, s.mode, s.pc⟩

/-- Core `c` has got to `s`. -/
def World.put (w : World N) (c : Fin N) (s : State) : World N :=
  ⟨s.mem, Function.update w.core c (coreOf s)⟩

variable (tr) in
def step (w : World N) : Event N → World N
  | .other c s => w.put c s
  | .allocproc k ra sp => { w with mem := st64 (st64 (fill w.mem k 0 112) k ra) (k + 8) sp }
  | .swtch c => w.put c (exec tr ((w.core c).state w.mem) swtch)

/-- Where core `c` is told to save its registers, and where to find others. -/
def World.old (w : World N) (c : Fin N) : ℕ := ((w.core c).reg .a0).toNat

def World.new (w : World N) (c : Fin N) : ℕ := ((w.core c).reg .a1).toNat

/-- The contexts in kernel memory, which the kernel's page table maps directly: no two overlap. -/
structure Contexts (tr : Word → ℕ → ℕ) (ksatp : Word) (C : Set ℕ) : Prop where
  apart : ∀ k ∈ C, ∀ k' ∈ C, k ≠ k' → k + 112 ≤ k' ∨ k' + 112 ≤ k
  direct : ∀ k ∈ C, k + 112 ≤ 2 ^ 64 ∧ ∀ o, o + 8 ≤ 112 → tr ksatp (k + o) = k + o

/-- What the events keep to: other code leaves the contexts alone, and switches are between
contexts, in the kernel. -/
def Ok (ksatp : Word) (C : Set ℕ) (w : World N) : Event N → Prop
  | .other _ s => ∀ k ∈ C, ∀ a, k ≤ a → a < k + 112 → s.mem a = w.mem a
  | .allocproc k _ _ => k ∈ C
  | .swtch c => (w.core c).mode = .supervisor ∧ (w.core c).csr .satp = ksatp ∧ w.old c ∈ C ∧
      w.new c ∈ C

/-! ### The abstract machine -/

/-- The cores, and the registers of suspended threads. -/
structure Spec (N : ℕ) where
  core : Fin N → Core
  ctx : ℕ → Reg → Word

/-- The registers `f` with those of a context replaced by `g`. -/
def resume (f g : Reg → Word) : Reg → Word := fun r => if r ∈ context.map Prod.fst then g r else f r

def Spec.step (a : Spec N) : Event N → Spec N
  | .other c s => { a with core := Function.update a.core c (coreOf s) }
  | .allocproc k ra sp =>
    { a with ctx := Function.update a.ctx k fun
      | .ra => ra
      | .sp => sp
      | _ => 0 }
  | .swtch c =>
    let f := (a.core c).reg
    let ctx := Function.update a.ctx (f .a0).toNat f
    let g := resume f (ctx (f .a1).toNat)
    { core := Function.update a.core c { a.core c with reg := g, pc := g .ra }, ctx := ctx }

/-- The contexts in memory hold the registers of the suspended threads. -/
structure Sim (C : Set ℕ) (w : World N) (a : Spec N) : Prop where
  core : w.core = a.core
  ctx : ∀ k ∈ C, Holds w.mem k context (a.ctx k)

variable {ksatp : Word} {C : Set ℕ} {w : World N} {a : Spec N} {e : Event N} {k : ℕ}

lemma loadFrom_context {m : Mem} {f g : Reg → Word} (h : Holds m k context g) :
    loadFrom m k f context = resume f g := by
  funext r
  unfold resume
  by_cases hr : r ∈ context.map Prod.fst
  · rw [if_pos hr]
    exact loadFrom_holds h hr
  · rw [if_neg hr]
    exact loadFrom_of_notMem hr

lemma context_congr {m m' : Mem} {f : Reg → Word} (h : Holds m k context f)
    (hm : ∀ a, k ≤ a → a < k + 112 → m' a = m a) : Holds m' k context f :=
  h.congr fun x hx => ld64_congr fun a _ _ => by
    have := apart_context.inside x hx
    exact hm a (by omega) (by omega)

lemma holds_save (hC : Contexts tr ksatp C) {f : Reg → Word} {m : Mem} {ctx : ℕ → Reg → Word}
    {old : ℕ} (ho : old ∈ C) (h : ∀ k ∈ C, Holds m k context (ctx k)) :
    ∀ k ∈ C, Holds (saveTo m old f context) k context (Function.update ctx old f k) := by
  intro k hk
  by_cases hko : k = old
  · subst hko
    rw [Function.update_self]
    exact holds_saveTo apart_context
  · rw [Function.update_of_ne hko]
    refine context_congr (h k hk) fun a h1 h2 => saveTo_out fun x hx => ?_
    have h3 := hC.apart k hk old ho hko
    have h4 := apart_context.inside x hx
    omega

lemma window_context (hC : Contexts tr ksatp C) {r : Core} {m : Mem} {b : Reg}
    (hm : r.mode = .supervisor) (hs : r.csr .satp = ksatp) (hb : (r.reg b).toNat ∈ C) :
    Window tr (r.state m) b (r.reg b).toNat 112 := by
  intro o ho
  obtain ⟨h1, h2⟩ := hC.direct _ hb
  have hsm : (r.state m).mode ≠ .machine := by
    change r.mode ≠ .machine
    simp [hm]
  have h3 : (r.reg b + BitVec.ofNat 64 o).toNat = (r.reg b).toNat + o := by
    rw [BitVec.toNat_add, BitVec.toNat_ofNat, Nat.mod_eq_of_lt (a := o) (by omega)]
    exact Nat.mod_eq_of_lt (by omega)
  rw [State.phys, if_neg hsm]
  change tr (r.csr .satp) (r.reg b + BitVec.ofNat 64 o).toNat = _
  rw [h3, hs]
  exact h2 o ho

lemma step_swtch {c : Fin N} (hC : Contexts tr ksatp C) (he : Ok ksatp C w (.swtch c)) :
    let m := saveTo w.mem (w.old c) (w.core c).reg context
    let g := loadFrom m (w.new c) (w.core c).reg context
    step tr w (.swtch c) =
      ⟨m, Function.update w.core c { w.core c with reg := g, pc := g .ra }⟩ := by
  obtain ⟨hm, hs, ho, hn⟩ := he
  have hexec := exec_swtch (window_context (m := w.mem) hC hm hs ho)
    (window_context (m := w.mem) hC hm hs hn)
  exact congrArg (w.put c) hexec

/-- The registers of a new process. -/
def newRegs (ra sp : Word) : Reg → Word
  | .ra => ra
  | .sp => sp
  | _ => 0

lemma context_cases : ∀ x ∈ context, x = (.ra, 0) ∨ x = (.sp, 8) ∨
    16 ≤ x.2 ∧ ∀ ra sp, newRegs ra sp x.1 = 0 := by
  simp [context, newRegs]

lemma holds_allocproc (m : Mem) (k : ℕ) (ra sp : Word) :
    Holds (st64 (st64 (fill m k 0 112) k ra) (k + 8) sp) k context (newRegs ra sp) := by
  intro x hx
  rcases context_cases x hx with rfl | rfl | ⟨h16, h0⟩
  · exact (ld64_st64_ne (by omega)).trans (ld64_st64 ..)
  · exact ld64_st64 ..
  · have h1 := apart_context.inside x hx
    rw [h0, ld64_st64_ne (by omega), ld64_st64_ne (by omega)]
    exact ld64_fill_zero (by omega) (by omega)

/-- **What an event does**, to both machines. -/
lemma sim_step (hC : Contexts tr ksatp C) (h : Sim C w a) (he : Ok ksatp C w e) :
    Sim C (step tr w e) (a.step e) := by
  cases e with
  | other c s =>
    refine ⟨by rw [Spec.step, ← h.core]; rfl, fun k hk => ?_⟩
    exact context_congr (h.ctx k hk) fun a h1 h2 => he k hk a h1 h2
  | allocproc k ra sp =>
    refine ⟨h.core, fun k' hk' => ?_⟩
    change Holds _ k' context (Function.update a.ctx k (newRegs ra sp) k')
    by_cases hkk : k' = k
    · subst hkk
      rw [Function.update_self]
      exact holds_allocproc w.mem k' ra sp
    · rw [Function.update_of_ne hkk]
      refine context_congr (h.ctx k' hk') fun a h1 h2 => ?_
      have h3 := hC.apart k' hk' k he hkk
      exact (st64_out (by omega)).trans ((st64_out (by omega)).trans (fill_out (by omega)))
  | swtch c =>
    obtain ⟨hm, hs, ho, hn⟩ := id he
    have hctx := holds_save hC (f := (w.core c).reg) ho h.ctx
    have hload := loadFrom_context (f := (w.core c).reg) (hctx _ hn)
    rw [step_swtch hC he]
    constructor
    · rw [hload, Spec.step, ← h.core]
      rfl
    · rw [Spec.step, ← h.core]
      exact hctx

/-- **`swtch` exchanges register files**: along every run the cores of the machine are those of
the abstract one, and the contexts in memory hold what it keeps aside. -/
lemma sim_run (hC : Contexts tr ksatp C) (es : List (Event N)) {w : World N} {a : Spec N}
    (h : Sim C w a) (hes : Along (step tr) (Ok ksatp C) w es) :
    Sim C (run (step tr) w es) (run Spec.step a es) := by
  induction es generalizing w a with
  | nil => exact h
  | cons e es ih => exact ih (sim_step hC h hes.1) hes.2

/-- A machine and its abstraction. -/
def World.spec (w : World N) : Spec N := ⟨w.core, fun k => loadFrom w.mem k (fun _ => 0) context⟩

lemma sim_spec (w : World N) : Sim C w w.spec := ⟨rfl, fun _ _ => holds_loadFrom apart_context⟩

/-- No event of the run saves registers in context `k` or sets it up. -/
def Keeps (k : ℕ) (w : World N) : Event N → Prop
  | .other _ _ => True
  | .allocproc k' _ _ => k' ≠ k
  | .swtch c => w.old c ≠ k

lemma sim_keeps (hC : Contexts tr ksatp C) (es : List (Event N)) {w : World N} {a : Spec N}
    (h : Sim C w a) (hes : Along (step tr) (Ok ksatp C) w es)
    (hk : Along (step tr) (Keeps k) w es) : (run Spec.step a es).ctx k = a.ctx k := by
  induction es generalizing w a with
  | nil => rfl
  | cons e es ih =>
    refine (ih (sim_step hC h hes.1) hes.2 hk.2).trans ?_
    cases e with
    | other c s => rfl
    | allocproc k' ra sp => exact Function.update_of_ne (Ne.symm hk.1) _ _
    | swtch c =>
      have h1 : (a.core c).reg .a0 = (w.core c).reg .a0 := by rw [h.core]
      exact Function.update_of_ne (by rw [h1]; exact Ne.symm hk.1) _ _

/-- A context that no event touches is what the core that switches to it goes on with. -/
lemma resumed (hC : Contexts tr ksatp C) {es : List (Event N)} {c : Fin N} {f : Reg → Word}
    (hf : Holds w.mem k context f)
    (hes : Along (step tr) (Ok ksatp C) w (es ++ [.swtch c]))
    (hk : Along (step tr) (Keeps k) w (es ++ [.swtch c]))
    (hn : (run (step tr) w es).new c = k) :
    let w' := run (step tr) w (es ++ [.swtch c])
    (∀ r ∈ context.map Prod.fst, (w'.core c).reg r = f r) ∧ (w'.core c).pc = f .ra := by
  intro w'
  obtain ⟨hes1, hes2⟩ := along_append.mp hes
  obtain ⟨hk1, hk2⟩ := along_append.mp hk
  have hsim := sim_run hC es (sim_spec w) hes1
  have hctx := sim_keeps hC es (sim_spec w) hes1 hk1
  have hend : w'.core = ((run Spec.step w.spec es).step (.swtch c)).core := by
    rw [← (sim_step hC hsim hes2.1).core]
    exact congrArg World.core (run_append (step tr) w es [.swtch c])
  have hcore := hsim.core
  let a := run Spec.step w.spec es
  have hold : ((a.core c).reg .a0).toNat ≠ k := by
    rw [← hcore]
    exact hk2.1
  have hnew : ((a.core c).reg .a1).toNat = k := by
    rw [← hcore]
    exact hn
  have hreg : (w'.core c).reg = resume (a.core c).reg (a.ctx k) ∧
      (w'.core c).pc = resume (a.core c).reg (a.ctx k) .ra := by
    have h1 : Function.update a.ctx ((a.core c).reg .a0).toNat (a.core c).reg
        ((a.core c).reg .a1).toNat = a.ctx k := by
      rw [hnew, Function.update_of_ne (Ne.symm hold)]
    have h2 : w'.core c = { a.core c with
        reg := resume (a.core c).reg (Function.update a.ctx ((a.core c).reg .a0).toNat
          (a.core c).reg ((a.core c).reg .a1).toNat)
        pc := resume (a.core c).reg (Function.update a.ctx ((a.core c).reg .a0).toNat
          (a.core c).reg ((a.core c).reg .a1).toNat) .ra } := by
      rw [hend]
      exact Function.update_self ..
    rw [h2, h1]
    exact ⟨rfl, rfl⟩
  have hval : ∀ r ∈ context.map Prod.fst, resume (a.core c).reg (a.ctx k) r = f r := by
    intro r hr
    obtain ⟨x, hx, rfl⟩ := List.mem_map.mp hr
    have h3 : a.ctx k = loadFrom w.mem k (fun _ => 0) context := hctx
    rw [resume, if_pos hr, h3]
    exact loadFrom_holds hf hr
  rw [hreg.1, hreg.2]
  exact ⟨hval, hval .ra (by decide)⟩

/-- **A thread goes on where it left**: when a core switches to a context in which some core
saved its registers, and which nothing was saved in or set up since, it has that core's `ra`,
`sp` and `s0` to `s11` of then and returns to where that core called `swtch` from, whatever every
core has executed in between. -/
theorem resumes_where_left (hC : Contexts tr ksatp C) (w : World N) (c c' : Fin N)
    (es : List (Event N))
    (hes : Along (step tr) (Ok ksatp C) w (.swtch c :: (es ++ [.swtch c'])))
    (hk : Along (step tr) (Keeps (w.old c)) (step tr w (.swtch c)) (es ++ [.swtch c']))
    (hn : (run (step tr) (step tr w (.swtch c)) es).new c' = w.old c) :
    let w' := run (step tr) w (.swtch c :: (es ++ [.swtch c']))
    (∀ r ∈ context.map Prod.fst, (w'.core c').reg r = (w.core c).reg r) ∧
      (w'.core c').pc = (w.core c).reg .ra := by
  have hsaved : Holds (step tr w (.swtch c)).mem (w.old c) context (w.core c).reg := by
    rw [step_swtch hC hes.1]
    exact holds_saveTo apart_context
  exact resumed hC hsaved hes.2 hk hn

/-- Two cores, of which the first is to leave context `0x80010000` and the second to enter it. -/
def twoCores : World 2 where
  mem _ := 0
  core c := {
    reg r :=
      if r = .a0 then (if c.val = 0 then 0x80010000 else 0x80010200)
      else if r = .a1 then (if c.val = 0 then 0x80010100 else 0x80010000)
      else 7
    csr _ := 0
    mode := .supervisor
    pc := 0 }

lemma contexts_apart : Contexts (fun _ a => a) 0 {0x80010000, 0x80010100, 0x80010200} where
  apart k hk k' hk' hne := by
    simp only [Set.mem_insert_iff, Set.mem_singleton_iff] at hk hk'
    omega
  direct k hk := by
    simp only [Set.mem_insert_iff, Set.mem_singleton_iff] at hk
    refine ⟨by omega, fun o _ => rfl⟩

/-- The thread that the first core left goes on on the second. -/
theorem resumes_on_other_core :
    ((run (step fun _ a => a) twoCores [.swtch 0, .swtch 1]).core 1).reg .sp = 7 ∧
      ((run (step fun _ a => a) twoCores [.swtch 0, .swtch 1]).core 1).pc = 7 := by
  have hne : (0x80010200 : ℕ) ≠ 0x80010000 := by decide
  have h := resumes_where_left contexts_apart twoCores 0 1 []
    ⟨⟨rfl, rfl, Or.inl rfl, Or.inr (Or.inl rfl)⟩, ⟨rfl, rfl, Or.inr (Or.inr rfl), Or.inl rfl⟩, trivial⟩
    ⟨hne, trivial⟩ rfl
  exact ⟨h.1 .sp (by decide), h.2⟩

/-- A new process starts at the `ra` and `sp` that `allocproc` gives it, with the other saved
registers zero. -/
lemma starts_fresh (hC : Contexts tr ksatp C) (w : World N) (ra sp : Word) (c : Fin N)
    (es : List (Event N))
    (hes : Along (step tr) (Ok ksatp C) w (.allocproc k ra sp :: (es ++ [.swtch c])))
    (hk : Along (step tr) (Keeps k) (step tr w (.allocproc k ra sp)) (es ++ [.swtch c]))
    (hn : (run (step tr) (step tr w (.allocproc k ra sp)) es).new c = k) :
    let w' := run (step tr) w (.allocproc k ra sp :: (es ++ [.swtch c]))
    (∀ r ∈ context.map Prod.fst, (w'.core c).reg r = newRegs ra sp r) ∧ (w'.core c).pc = ra :=
  resumed hC (holds_allocproc w.mem k ra sp) hes.2 hk hn

end Xv6.Swtch
