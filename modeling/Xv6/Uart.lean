import Xv6.Runs
import Mathlib.Data.Finset.Card
import Mathlib.Data.Fintype.Card
import Mathlib.Tactic.Common

/-!
The serial driver (`uart.c`): processes write to a ring of 32 bytes under a lock, `uartstart`
moves bytes from the ring to the device, and `uartputc_sync` writes to the device without the
lock. A core reads the status register and writes a byte in two steps, and anything can happen on
other cores in between.

The device takes bytes into its FIFO, sends them one after the other, and raises an interrupt when
the FIFO gets empty.
-/

namespace Xv6.Uart

open Xv6.Runs

abbrev Byte := BitVec 8

/-- `UART_TX_BUF_SIZE` -/
def SIZE : ℕ := 32

/-- Where a core is in the driver. `sync` is in `uartputc_sync`, called from `uartintr` or not. -/
inductive Pc
  | client
  /-- `uartputc` about to take the lock. -/
  | putc (b : Byte)
  /-- `uartintr` before it takes the lock. -/
  | intr
  /-- The loop of `uartstart`, with the lock: its test of the ring, its test of the device, and
  its write. -/
  | ring
  | idle
  | write (b : Byte)
  | sync (b : Byte) (inIntr : Bool)
  | syncWrite (b : Byte) (inIntr : Bool)
  deriving DecidableEq

/-- The core is about to write to the device. -/
def Pc.byte : Pc → Option Byte
  | .write b | .syncWrite b _ => some b
  | _ => none

/-- The core will get to the tests of `uartstart`. -/
def Pc.Starts : Pc → Prop
  | .intr | .ring | .idle | .write _ | .sync _ true | .syncWrite _ true => True
  | _ => False

def Pc.Locked : Pc → Prop
  | .ring | .idle | .write _ => True
  | _ => False

/-- The byte that has left the ring but is not yet written. -/
def Pc.onWay : Pc → List Byte
  | .write b => [b]
  | _ => []

variable {C : Type} [DecidableEq C]

/-- `asleep` are the bytes of the processes that sleep in `uartputc` on `uart_tx_r`, `awake` those
of the processes that were woken. As history, the bytes put into the ring, the bytes written to
the device, with whether they are from the ring, the bytes on the line, and the cores that wrote
since the FIFO was empty. -/
structure State (C : Type) where
  uart_tx_buf : ℕ → Byte
  uart_tx_w : ℕ
  uart_tx_r : ℕ
  lock : Option C
  pc : C → Pc
  asleep : List Byte
  awake : List Byte
  fifo : List Byte
  irq : Bool
  put : List Byte
  written : List (Byte × Bool)
  line : List Byte
  wrote : Finset C

inductive Act
  /-- The next step of the core in the driver. -/
  | go
  | uartputc (b : Byte)
  /-- A process that was woken goes on in `uartputc`. -/
  | resume
  | uartputc_sync (b : Byte)
  /-- An interrupt of the device, which input can raise too. -/
  | interrupt
  /-- The device sends a byte. -/
  | send
  deriving DecidableEq

def State.goto (s : State C) (c : C) (pc : Pc) : State C :=
  { s with pc := Function.update s.pc c pc }

/-- A write to `THR`. -/
def State.thr (s : State C) (c : C) (b : Byte) (ring : Bool) : State C :=
  { s with fifo := s.fifo ++ [b], written := s.written ++ [(b, ring)], wrote := insert c s.wrote }

/-- `uartputc` with the lock: it sleeps, which gives the lock back, or puts the byte. -/
def State.uartputc (s : State C) (c : C) (b : Byte) : State C :=
  if s.uart_tx_w = s.uart_tx_r + SIZE then
    { s with asleep := s.asleep ++ [b] }.goto c .client
  else
    { s with
      uart_tx_buf := Function.update s.uart_tx_buf (s.uart_tx_w % SIZE) b
      uart_tx_w := s.uart_tx_w + 1
      put := s.put ++ [b]
      lock := some c }.goto c .ring

def go (s : State C) (c : C) : State C :=
  match s.pc c with
  | .client => s
  | .putc b => if s.lock = none then s.uartputc c b else s
  | .intr => if s.lock = none then { s with lock := some c }.goto c .ring else s
  | .ring =>
    if s.uart_tx_w = s.uart_tx_r then { s with lock := none }.goto c .client else s.goto c .idle
  | .idle =>
    if s.fifo ≠ [] then { s with lock := none }.goto c .client
    else
      { s with
        uart_tx_r := s.uart_tx_r + 1
        asleep := []
        awake := s.awake ++ s.asleep }.goto c (.write (s.uart_tx_buf (s.uart_tx_r % SIZE)))
  | .write b => (s.thr c b true).goto c .ring
  | .sync b i => if s.fifo ≠ [] then s else s.goto c (.syncWrite b i)
  | .syncWrite b i => (s.thr c b false).goto c (if i then .intr else .client)

/-- `uartputc_sync` is called from the kernel or from `uartintr`, before it takes the lock. -/
def step (s : State C) (e : C × Act) : State C :=
  let (c, a) := e
  match a with
  | .go => go s c
  | .uartputc b => if s.pc c = .client then s.goto c (.putc b) else s
  | .resume =>
    match s.awake with
    | [] => s
    | b :: awake => if s.pc c = .client then { s with awake := awake }.goto c (.putc b) else s
  | .uartputc_sync b =>
    if s.pc c = .client then s.goto c (.sync b false)
    else if s.pc c = .intr then s.goto c (.sync b true) else s
  | .interrupt => if s.pc c = .client then { s with irq := false }.goto c .intr else s
  | .send =>
    match s.fifo with
    | [] => s
    | b :: fifo =>
      { s with
        fifo := fifo
        line := s.line ++ [b]
        irq := s.irq || fifo.isEmpty
        wrote := if fifo = [] then ∅ else s.wrote }

def init : State C :=
  ⟨fun _ => 0, 0, 0, none, fun _ => .client, [], [], [], false, [], [], [], ∅⟩

/-! ### The invariant -/

/-- The byte on its way from the ring to the device. -/
def State.onWay (s : State C) : List Byte :=
  match s.lock with
  | none => []
  | some c => (s.pc c).onWay

/-- The bytes from the ring among those written to the device. -/
def State.fromRing (s : State C) : List Byte := (s.written.filter Prod.snd).map Prod.fst

structure Inv (s : State C) : Prop where
  lock : ∀ c, (s.pc c).Locked ↔ s.lock = some c
  le : s.uart_tx_r ≤ s.uart_tx_w ∧ s.uart_tx_w ≤ s.uart_tx_r + SIZE
  idle : ∀ c, s.pc c = .idle → s.uart_tx_r < s.uart_tx_w
  length : s.put.length = s.uart_tx_w
  buf : ∀ i, s.uart_tx_r ≤ i → i < s.uart_tx_w → s.put[i]? = some (s.uart_tx_buf (i % SIZE))
  sent : s.put.take s.uart_tx_r = s.fromRing ++ s.onWay
  device : s.written.map Prod.fst = s.line ++ s.fifo
  asleep : s.asleep ≠ [] → s.uart_tx_w = s.uart_tx_r + SIZE
  few : s.fifo.length ≤ s.wrote.card
  empty : s.fifo = [] → s.wrote = ∅
  pending : ∀ c, (s.pc c).byte.isSome → s.fifo ≠ [] → c ∉ s.wrote
  busy : s.uart_tx_r < s.uart_tx_w → s.fifo ≠ [] ∨ s.irq = true ∨ ∃ c, (s.pc c).Starts

variable {s : State C} {c : C} {b : Byte}

lemma goto_pc (s : State C) (c c' : C) (pc : Pc) :
    (s.goto c pc).pc c' = if c' = c then pc else s.pc c' := Function.update_apply ..

@[simp] lemma goto_self (s : State C) (c : C) (pc : Pc) : (s.goto c pc).pc c = pc := by
  rw [goto_pc, if_pos rfl]

lemma goto_ne (s : State C) {c c' : C} (pc : Pc) (h : c' ≠ c) :
    (s.goto c pc).pc c' = s.pc c' := by rw [goto_pc, if_neg h]

section

omit [DecidableEq C]

lemma onWay_some (h : s.lock = some c) : s.onWay = (s.pc c).onWay := by rw [State.onWay, h]

lemma onWay_none (h : s.lock = none) : s.onWay = [] := by rw [State.onWay, h]

lemma Inv.not_locked (h : Inv s) {c' : C} (hl : s.lock = some c) (hc : c' ≠ c) :
    ¬(s.pc c').Locked := fun h1 => hc (Option.some.inj (((h.lock c').mp h1).symm.trans hl))

lemma Inv.not_idle (h : Inv s) {c' : C} (hl : s.lock = some c) (hc : c' ≠ c) :
    s.pc c' ≠ .idle := fun h1 => h.not_locked hl hc (by rw [h1]; trivial)

lemma Inv.all_unlocked (h : Inv s) (hl : s.lock = none) (c : C) : ¬(s.pc c).Locked := fun h1 => by
  rw [(h.lock c).mp h1] at hl
  cases hl

lemma Inv.fresh (h : Inv s) (hb : (s.pc c).byte.isSome) : c ∉ s.wrote := by
  by_cases hf : s.fifo = []
  · rw [h.empty hf]
    exact Finset.notMem_empty c
  · exact h.pending c hb hf

lemma Inv.send (h : Inv s) {fifo : List Byte} (hf : s.fifo = b :: fifo) :
    Inv { s with
      fifo := fifo
      line := s.line ++ [b]
      irq := s.irq || fifo.isEmpty
      wrote := if fifo = [] then ∅ else s.wrote } := by
  have hne : s.fifo ≠ [] := by simp [hf]
  refine ⟨h.lock, h.le, h.idle, h.length, h.buf, h.sent, ?_, h.asleep, ?_, fun h1 => if_pos h1,
    fun c hc h1 => ?_, fun hlt => ?_⟩
  · change s.written.map Prod.fst = s.line ++ [b] ++ fifo
    rw [h.device, hf, List.append_assoc]
    rfl
  · change fifo.length ≤ (if fifo = [] then ∅ else s.wrote).card
    have h1 := h.few
    rw [hf, List.length_cons] at h1
    by_cases hn : fifo = []
    · simp [hn]
    · rw [if_neg hn]
      omega
  · change c ∉ if fifo = [] then ∅ else s.wrote
    rw [if_neg h1]
    exact h.pending c hc hne
  · by_cases hn : fifo = []
    · exact Or.inr (Or.inl (by simp [hn]))
    · exact Or.inl hn

lemma Inv.sleep (h : Inv s) (hw : s.uart_tx_w = s.uart_tx_r + SIZE) :
    Inv { s with asleep := s.asleep ++ [b] } :=
  ⟨h.lock, h.le, h.idle, h.length, h.buf, h.sent, h.device, fun _ => hw, h.few, h.empty, h.pending,
    h.busy⟩

end

lemma goto_onWay {pc : Pc} (ho : pc.onWay = (s.pc c).onWay) : (s.goto c pc).onWay = s.onWay := by
  cases hlk : s.lock with
  | none => rw [onWay_none hlk, onWay_none (s := s.goto c pc) hlk]
  | some c' =>
    rw [onWay_some hlk, onWay_some (s := s.goto c pc) hlk]
    by_cases hc : c' = c
    · rw [hc, goto_self, ho]
    · rw [goto_ne _ _ hc]

/-- A step of a core that changes only where it is. -/
lemma Inv.goto (h : Inv s) {pc : Pc} (hl : pc.Locked ↔ (s.pc c).Locked)
    (ho : pc.onWay = (s.pc c).onWay) (hi : pc = .idle → s.uart_tx_r < s.uart_tx_w)
    (hb : pc.byte.isSome → s.fifo ≠ [] → c ∉ s.wrote) (hs : (s.pc c).Starts → pc.Starts) :
    Inv (s.goto c pc) where
  lock c' := by
    by_cases hc : c' = c
    · rw [hc, goto_self, hl]
      exact h.lock c
    · rw [goto_ne _ _ hc]
      exact h.lock c'
  le := h.le
  idle c' hc' := by
    by_cases hc : c' = c
    · rw [hc, goto_self] at hc'
      exact hi hc'
    · rw [goto_ne _ _ hc] at hc'
      exact h.idle c' hc'
  length := h.length
  buf := h.buf
  sent := h.sent.trans (congrArg _ (goto_onWay ho).symm)
  device := h.device
  asleep := h.asleep
  few := h.few
  empty := h.empty
  pending c' hc' hf := by
    by_cases hc : c' = c
    · rw [hc, goto_self] at hc'
      exact hc ▸ hb hc' hf
    · rw [goto_ne _ _ hc] at hc'
      exact h.pending c' hc' hf
  busy hlt := by
    rcases h.busy hlt with h1 | h1 | ⟨c', h1⟩
    · exact Or.inl h1
    · exact Or.inr (Or.inl h1)
    · refine Or.inr (Or.inr ⟨c', ?_⟩)
      by_cases hc : c' = c
      · rw [hc] at h1 ⊢
        rw [goto_self]
        exact hs h1
      · rwa [goto_ne _ _ hc]

lemma Inv.idle_goto (h : Inv s) {pc : Pc} (hpc : pc ≠ .idle) {c' : C}
    (hc' : (s.goto c pc).pc c' = .idle) : s.uart_tx_r < s.uart_tx_w := by
  by_cases hc : c' = c
  · rw [hc, goto_self] at hc'
    exact absurd hc' hpc
  · rw [goto_ne _ _ hc] at hc'
    exact h.idle c' hc'

lemma Inv.pending_goto (h : Inv s) {pc : Pc} (hpc : pc.byte = none) {c' : C}
    (hc' : ((s.goto c pc).pc c').byte.isSome) (hf : s.fifo ≠ []) : c' ∉ s.wrote := by
  by_cases hc : c' = c
  · rw [hc, goto_self, hpc] at hc'
    cases hc'
  · rw [goto_ne _ _ hc] at hc'
    exact h.pending c' hc' hf

lemma Inv.acquire (h : Inv s) (hl : s.lock = none) :
    Inv ({ s with lock := some c }.goto c .ring) where
  lock c' := by
    by_cases hc : c' = c
    · rw [hc, goto_self]
      exact iff_of_true trivial rfl
    · rw [goto_ne _ _ hc]
      exact iff_of_false (h.all_unlocked hl c') fun h1 => hc (Option.some.inj h1).symm
  le := h.le
  idle _ hc' := h.idle_goto (by decide) hc'
  length := h.length
  buf := h.buf
  sent := by
    refine h.sent.trans ?_
    rw [onWay_none hl, onWay_some (c := c) rfl, goto_self]
    rfl
  device := h.device
  asleep := h.asleep
  few := h.few
  empty := h.empty
  pending _ hc' hf := h.pending_goto rfl hc' hf
  busy _ := Or.inr (Or.inr ⟨c, by rw [goto_self]; trivial⟩)

lemma Inv.leave (h : Inv s) (hl : s.lock = some c) (ho : (s.pc c).onWay = [])
    (hb : s.uart_tx_r < s.uart_tx_w → s.fifo ≠ []) :
    Inv ({ s with lock := none }.goto c .client) where
  lock c' := by
    by_cases hc : c' = c
    · rw [hc, goto_self]
      exact iff_of_false id fun h1 => nomatch h1
    · rw [goto_ne _ _ hc]
      exact iff_of_false (h.not_locked hl hc) fun h1 => nomatch h1
  le := h.le
  idle _ hc' := h.idle_goto (by decide) hc'
  length := h.length
  buf := h.buf
  sent := by
    refine h.sent.trans ?_
    rw [onWay_some hl, ho, onWay_none rfl]
    rfl
  device := h.device
  asleep := h.asleep
  few := h.few
  empty := h.empty
  pending _ hc' hf := h.pending_goto rfl hc' hf
  busy hlt := Or.inl (hb hlt)

lemma Inv.put (h : Inv s) (hl : s.lock = none) (hw : s.uart_tx_w ≠ s.uart_tx_r + SIZE) :
    Inv ({ s with
      uart_tx_buf := Function.update s.uart_tx_buf (s.uart_tx_w % SIZE) b
      uart_tx_w := s.uart_tx_w + 1
      put := s.put ++ [b]
      lock := some c }.goto c .ring) := by
  have hle := h.le
  have ha := h.acquire (c := c) hl
  refine ⟨ha.lock, ⟨?_, ?_⟩, fun c' hc' => ?_, ?_, fun i h1 h2 => ?_, ?_, h.device, fun h1 => ?_,
    h.few, h.empty, ha.pending, fun _ => Or.inr (Or.inr ⟨c, by rw [goto_self]; trivial⟩)⟩
  · exact hle.1.trans (Nat.le_succ _)
  · change s.uart_tx_w + 1 ≤ s.uart_tx_r + SIZE
    omega
  · exact (ha.idle c' hc').trans (Nat.lt_succ_self _)
  · change (s.put ++ [b]).length = s.uart_tx_w + 1
    rw [List.length_append, h.length]
    rfl
  · change (s.put ++ [b])[i]? = some (Function.update s.uart_tx_buf (s.uart_tx_w % SIZE) b (i % SIZE))
    change i < s.uart_tx_w + 1 at h2
    change s.uart_tx_r ≤ i at h1
    by_cases hi : i = s.uart_tx_w
    · rw [hi, Function.update_self, ← h.length, List.getElem?_concat_length]
    · have hne : i % SIZE ≠ s.uart_tx_w % SIZE := by
        unfold SIZE at *
        omega
      rw [Function.update_of_ne hne, List.getElem?_append_left (by rw [h.length]; omega)]
      exact h.buf i h1 (by omega)
  · change (s.put ++ [b]).take s.uart_tx_r = _
    rw [List.take_append_of_le_length (by rw [h.length]; exact hle.1)]
    exact ha.sent
  · exact absurd (h.asleep h1) hw

/-- The byte at `uart_tx_r` leaves the ring, and all writers that sleep are woken. -/
lemma Inv.take (h : Inv s) (hpc : s.pc c = .idle) (hf : s.fifo = []) :
    Inv ({ s with
      uart_tx_r := s.uart_tx_r + 1
      asleep := []
      awake := s.awake ++ s.asleep }.goto c (.write (s.uart_tx_buf (s.uart_tx_r % SIZE)))) := by
  have hle := h.le
  have hlt := h.idle c hpc
  have hl : s.lock = some c := (h.lock c).mp (by rw [hpc]; trivial)
  refine ⟨fun c' => ?_, ⟨hlt, ?_⟩, fun c' hc' => ?_, h.length, fun i h1 h2 => ?_, ?_, h.device,
    fun h1 => absurd rfl h1, h.few, h.empty, fun c' _ hf' => absurd hf hf',
    fun _ => Or.inr (Or.inr ⟨c, by rw [goto_self]; trivial⟩)⟩
  · by_cases hc : c' = c
    · rw [hc, goto_self]
      exact iff_of_true trivial hl
    · rw [goto_ne _ _ hc]
      exact h.lock c'
  · exact hle.2.trans (Nat.add_le_add_right (Nat.le_succ _) _)
  · by_cases hc : c' = c
    · rw [hc, goto_self] at hc'
      cases hc'
    · rw [goto_ne _ _ hc] at hc'
      exact absurd hc' (h.not_idle hl hc)
  · exact h.buf i (by change s.uart_tx_r + 1 ≤ i at h1; omega) h2
  · let v := s.uart_tx_buf (s.uart_tx_r % SIZE)
    have ho : (s.goto c (.write v)).onWay = [v] := by
      rw [onWay_some (s := s.goto c (.write v)) hl, goto_self]
      rfl
    change s.put.take (s.uart_tx_r + 1) = s.fromRing ++ (s.goto c (.write v)).onWay
    have h1 := h.sent
    rw [onWay_some hl, hpc] at h1
    rw [List.take_add_one, h1, h.buf _ le_rfl hlt, ho]
    simp [Pc.onWay, v]

/-- A write to the device, from the ring or not; there is room in its FIFO for a byte of every
core. -/
lemma Inv.thr (h : Inv s) {ring : Bool} {pc : Pc} (hbyte : (s.pc c).byte = some b)
    (hl : pc.Locked ↔ (s.pc c).Locked)
    (hi : pc ≠ .idle) (hb : pc.byte = none) (ho : pc.onWay = [])
    (hr : (s.pc c).onWay = if ring then [b] else []) (hrl : ring = true → s.lock = some c) :
    Inv ((s.thr c b ring).goto c pc) := by
  have hfresh := h.fresh (c := c) (by rw [hbyte]; rfl)
  refine ⟨fun c' => ?_, h.le, fun c' hc' => ?_, h.length, h.buf, ?_, ?_, h.asleep, ?_,
    fun h1 => absurd h1 (by simp [State.thr, State.goto]), fun c' hc' _ hw => ?_,
    fun _ => Or.inl (by simp [State.thr, State.goto])⟩
  · by_cases hc : c' = c
    · rw [hc, goto_self, hl]
      exact h.lock c
    · rw [goto_ne _ _ hc]
      exact h.lock c'
  · by_cases hc : c' = c
    · rw [hc, goto_self] at hc'
      exact absurd hc' hi
    · rw [goto_ne _ _ hc] at hc'
      exact h.idle c' hc'
  · have h1 := h.sent
    change s.put.take s.uart_tx_r =
      ((s.written ++ [(b, ring)]).filter Prod.snd).map Prod.fst ++ (s.goto c pc).onWay
    rw [List.filter_append, List.map_append]
    cases ring with
    | true =>
      rw [onWay_some (hrl rfl), hr] at h1
      rw [onWay_some (s := s.goto c pc) (hrl rfl), goto_self, ho, List.append_nil]
      exact h1
    | false =>
      rw [goto_onWay (ho.trans hr.symm)]
      simpa [State.fromRing] using h1
  · change (s.written ++ [(b, ring)]).map Prod.fst = s.line ++ (s.fifo ++ [b])
    rw [List.map_append, h.device, List.append_assoc]
    rfl
  · change (s.fifo ++ [b]).length ≤ (insert c s.wrote).card
    rw [List.length_append, Finset.card_insert_of_notMem hfresh]
    exact Nat.add_le_add_right h.few 1
  · by_cases hc : c' = c
    · rw [hc, goto_self, hb] at hc'
      cases hc'
    · rw [goto_ne _ _ hc] at hc'
      exact (Finset.mem_insert.mp hw).elim hc (h.fresh hc')

lemma Inv.go (h : Inv s) (c : C) : Inv (go s c) := by
  unfold Uart.go
  cases hpc : s.pc c with
  | client => exact h
  | putc b =>
    dsimp only
    by_cases hl : s.lock = none
    · rw [if_pos hl, State.uartputc]
      by_cases hw : s.uart_tx_w = s.uart_tx_r + SIZE
      · rw [if_pos hw]
        have hpc' : ({ s with asleep := s.asleep ++ [b] } : State C).pc c = .putc b := hpc
        exact (h.sleep hw).goto (by rw [hpc']; exact Iff.rfl) (by rw [hpc']; rfl)
          (fun h1 => nomatch h1) (fun h1 => nomatch h1) (by rw [hpc']; exact id)
      · rw [if_neg hw]
        exact h.put hl hw
    · rw [if_neg hl]
      exact h
  | intr =>
    dsimp only
    by_cases hl : s.lock = none
    · rw [if_pos hl]
      exact h.acquire hl
    · rw [if_neg hl]
      exact h
  | ring =>
    have hl : s.lock = some c := (h.lock c).mp (by rw [hpc]; trivial)
    dsimp only
    by_cases hw : s.uart_tx_w = s.uart_tx_r
    · rw [if_pos hw]
      exact h.leave hl (by rw [hpc]; rfl) fun h1 => by omega
    · rw [if_neg hw]
      have := h.le
      exact h.goto (by rw [hpc]; exact Iff.rfl) (by rw [hpc]; rfl) (fun _ => by omega)
        (fun h1 => nomatch h1) fun _ => trivial
  | idle =>
    have hl : s.lock = some c := (h.lock c).mp (by rw [hpc]; trivial)
    dsimp only
    by_cases hf : s.fifo = []
    · rw [if_neg (not_not.mpr hf)]
      exact h.take hpc hf
    · rw [if_pos hf]
      exact h.leave hl (by rw [hpc]; rfl) fun _ => hf
  | write b =>
    have hl : s.lock = some c := (h.lock c).mp (by rw [hpc]; trivial)
    exact h.thr (by rw [hpc]; rfl) (by rw [hpc]; exact Iff.rfl) (by decide) rfl rfl
      (by rw [hpc]; rfl) fun _ => hl
  | sync b i =>
    dsimp only
    by_cases hf : s.fifo = []
    · rw [if_neg (not_not.mpr hf)]
      refine h.goto (by rw [hpc]; exact Iff.rfl) (by rw [hpc]; rfl) (fun h1 => nomatch h1)
        (fun _ h1 => absurd hf h1) ?_
      rw [hpc]
      cases i <;> exact id
    · rw [if_pos hf]
      exact h
  | syncWrite b i =>
    cases i <;> exact h.thr (by rw [hpc]; rfl) (by rw [hpc]; exact Iff.rfl) (by decide) rfl rfl
      (by rw [hpc]; rfl) fun h1 => nomatch h1

lemma Inv.interrupt (h : Inv s) (hpc : s.pc c = .client) :
    Inv ({ s with irq := false }.goto c .intr) := by
  have h1 : Inv (s.goto c .intr) := h.goto (by rw [hpc]; exact Iff.rfl) (by rw [hpc]; rfl)
    (fun h1 => nomatch h1) (fun h1 => nomatch h1) fun _ => trivial
  exact ⟨h1.lock, h1.le, h1.idle, h1.length, h1.buf, h1.sent, h1.device, h1.asleep, h1.few, h1.empty,
    h1.pending, fun _ => Or.inr (Or.inr ⟨c, by rw [goto_self]; trivial⟩)⟩

lemma Inv.step (h : Inv s) (e : C × Act) : Inv (step s e) := by
  obtain ⟨c, a⟩ := e
  cases a with
  | go => exact h.go c
  | uartputc b =>
    dsimp only [Uart.step]
    by_cases hpc : s.pc c = .client
    · rw [if_pos hpc]
      exact h.goto (by rw [hpc]; exact Iff.rfl) (by rw [hpc]; rfl) (fun h1 => nomatch h1)
        (fun h1 => nomatch h1) (by rw [hpc]; exact id)
    · rw [if_neg hpc]
      exact h
  | resume =>
    dsimp only [Uart.step]
    cases haw : s.awake with
    | nil => exact h
    | cons b awake =>
      dsimp only
      by_cases hpc : s.pc c = .client
      · rw [if_pos hpc]
        have h1 : Inv { s with awake := awake } := ⟨h.lock, h.le, h.idle, h.length, h.buf, h.sent,
          h.device, h.asleep, h.few, h.empty, h.pending, h.busy⟩
        have hpc' : ({ s with awake := awake } : State C).pc c = .client := hpc
        exact h1.goto (by rw [hpc']; exact Iff.rfl) (by rw [hpc']; rfl) (fun h1 => nomatch h1)
          (fun h1 => nomatch h1) (by rw [hpc']; exact id)
      · rw [if_neg hpc]
        exact h
  | uartputc_sync b =>
    dsimp only [Uart.step]
    by_cases hpc : s.pc c = .client
    · rw [if_pos hpc]
      exact h.goto (by rw [hpc]; exact Iff.rfl) (by rw [hpc]; rfl) (fun h1 => nomatch h1)
        (fun h1 => nomatch h1) (by rw [hpc]; exact id)
    · rw [if_neg hpc]
      by_cases hpc' : s.pc c = .intr
      · rw [if_pos hpc']
        exact h.goto (by rw [hpc']; exact Iff.rfl) (by rw [hpc']; rfl) (fun h1 => nomatch h1)
          (fun h1 => nomatch h1) fun _ => trivial
      · rw [if_neg hpc']
        exact h
  | interrupt =>
    dsimp only [Uart.step]
    by_cases hpc : s.pc c = .client
    · rw [if_pos hpc]
      exact h.interrupt hpc
    · rw [if_neg hpc]
      exact h
  | send =>
    dsimp only [Uart.step]
    cases hf : s.fifo with
    | nil => exact h
    | cons b fifo => exact h.send hf

omit [DecidableEq C] in
lemma inv_init : Inv (init : State C) where
  lock _ := iff_of_false id fun h => nomatch h
  le := ⟨le_rfl, Nat.zero_le _⟩
  idle _ h := nomatch h
  length := rfl
  buf _ _ h := absurd h (Nat.not_lt_zero _)
  sent := rfl
  device := rfl
  asleep h := absurd rfl h
  few := le_rfl
  empty _ := rfl
  pending _ h := nomatch h
  busy h := absurd h (lt_irrefl 0)

lemma inv_run (es : List (C × Act)) : Inv (run step (init : State C) es) := by
  induction es using List.reverseRecOn with
  | nil => exact inv_init
  | append_singleton es e ih =>
    rw [run_append]
    exact ih.step e

/-- The bytes in the ring, oldest first. -/
def State.ring (s : State C) : List Byte :=
  (List.range (s.uart_tx_w - s.uart_tx_r)).map fun i => s.uart_tx_buf ((s.uart_tx_r + i) % SIZE)

omit [DecidableEq C] in
lemma Inv.ring (h : Inv s) : s.ring = s.put.drop s.uart_tx_r := by
  refine List.ext_getElem? fun i => ?_
  have hle := h.le
  rw [State.ring, List.getElem?_map, List.getElem?_drop]
  by_cases hi : i < s.uart_tx_w - s.uart_tx_r
  · rw [List.getElem?_range hi, h.buf _ (Nat.le_add_right _ _) (by omega)]
    rfl
  · rw [List.getElem?_eq_none (by simpa using hi), List.getElem?_eq_none (by rw [h.length]; omega)]
    rfl

/-- **The serial driver loses, reorders and delays nothing**: in every run on any number of cores,
with `uartputc_sync` writing to the device behind the driver's back, the bytes put into the ring
are, in order, those written to the device from it, the one on its way, and those in the ring; all
bytes written to the device go to the line in order, and its FIFO never holds more than one byte
for every core; and whenever a byte or a process waits, the device is busy, its interrupt is
pending, or a core is on its way to start it. -/
theorem uart_reliable [Fintype C] (es : List (C × Act)) :
    let s := run step (init : State C) es
    s.put = s.fromRing ++ s.onWay ++ s.ring ∧ s.ring.length ≤ SIZE ∧
      s.written.map Prod.fst = s.line ++ s.fifo ∧ s.fifo.length ≤ Fintype.card C ∧
      (s.ring ≠ [] ∨ s.asleep ≠ [] →
        s.fifo ≠ [] ∨ s.irq = true ∨ ∃ c, (s.pc c).Starts) := by
  intro s
  have h : Inv s := inv_run es
  have hle := h.le
  have hlen : s.ring.length = s.uart_tx_w - s.uart_tx_r := by simp [State.ring]
  refine ⟨?_, by omega, h.device, h.few.trans (Finset.card_le_univ _), fun hw => h.busy ?_⟩
  · rw [h.ring, ← h.sent, List.take_append_drop]
  · rcases hw with hw | hw
    · have := List.length_pos_iff.mpr hw
      omega
    · have := h.asleep hw
      unfold SIZE at this
      omega

end Xv6.Uart
