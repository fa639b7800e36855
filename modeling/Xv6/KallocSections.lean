import Xv6.Kalloc
import Mathlib.Algebra.BigOperators.Group.Finset.Basic

/-!
The page allocator on several CPUs: `kalloc`, `kfree` and `check_and_increment` as the critical
sections under `temp_lock` and `kmem.lock` that they are made of, with everything other CPUs do in
between. The free list runs through the first words of the free pages. Whoever has a reference to a
page may write to it, share it, pass the reference on or give it up.

A count in `temp` is an `int`, and here an integer: there are fewer page table entries than it can
count.
-/

namespace Xv6.KallocSections

open Xv6.Riscv Xv6.Kalloc

/-- Where a CPU is in the allocator; `r` and `p` are the addresses of pages. -/
inductive Pc where
  | idle
  /-- `kfree` has been called and has the reference -/
  | kfree (p : ℕ)
  /-- it was the last reference -/
  | last (p : ℕ)
  /-- the page has been filled with junk -/
  | junked (p : ℕ)
  | kalloc
  /-- `kalloc` has taken `r` off the list; 0 if the list was empty -/
  | popped (r : ℕ)
  /-- `check_and_increment` has been called, by `kalloc` or by somebody with a reference -/
  | check (alloc : Bool) (p : ℕ)
  /-- it has found the count not negative -/
  | count (alloc : Bool) (p : ℕ)
  /-- it has counted the new reference -/
  | counted (alloc : Bool) (p : ℕ)
deriving DecidableEq

inductive Panic where
  | increment      -- "Increment problem"
  | kfree          -- "Error"
deriving DecidableEq

/-- What has happened to the pages: `kalloc` has returned one, `kfree` has put one on the list. -/
inductive Event (ι : Type) where
  | returned (c : ι) (p : ℕ)
  | listed (p : ℕ)
deriving DecidableEq

/-- `held c p` are the references to page `p` that CPU `c` has; the log has the newest event
first. -/
structure State (ι : Type) where
  next : ℕ → ℕ
  freelist : ℕ
  temp : ℕ → ℤ
  pc : ι → Pc
  held : ι → ℕ → ℕ
  log : List (Event ι)

variable {ι : Type} [DecidableEq ι]

/-- The first word of a page that `memset` has filled with `c`. -/
def junk (c : ℕ) : ℕ := c * 0x0101010101010101

def State.goto (s : State ι) (c : ι) (k : Pc) : State ι :=
  { s with pc := Function.update s.pc c k }

def State.setHeld (s : State ι) (c : ι) (p n : ℕ) : State ι :=
  { s with held := Function.update s.held c (Function.update (s.held c) p n) }

def State.setNext (s : State ι) (p v : ℕ) : State ι :=
  { s with next := Function.update s.next p v }

def State.setTemp (s : State ι) (p : ℕ) (n : ℤ) : State ι :=
  { s with temp := Function.update s.temp (p / PGSIZE) n }

/-- CPU `c` runs its next section, or the piece of code between two sections. -/
def go (c : ι) (s : State ι) : Except Panic (State ι) :=
  match s.pc c with
  | .idle => pure s
  | .kfree p =>
    let flag := s.temp (p / PGSIZE)
    if 0 < flag then
      pure ((s.setTemp p (flag - 1)).goto c (if 1 < flag then .idle else .last p))
    else throw .kfree
  | .last p => pure ((s.setNext p (junk 1)).goto c (.junked p))
  | .junked p =>
    pure ({ s.setNext p s.freelist with
      freelist := p
      log := Event.listed p :: s.log }.goto c .idle)
  | .kalloc =>
    let r := s.freelist
    pure ({ s with freelist := if r = 0 then r else s.next r }.goto c (.popped r))
  | .popped r =>
    pure (if r = 0 then s.goto c .idle else (s.setNext r (junk 5)).goto c (.check true r))
  | .check alloc p =>
    if s.temp (p / PGSIZE) < 0 then throw .increment else pure (s.goto c (.count alloc p))
  | .count alloc p =>
    pure ((s.setTemp p (s.temp (p / PGSIZE) + 1)).goto c (.counted alloc p))
  | .counted alloc p =>
    let s' := s.setHeld c p (s.held c p + 1)
    pure ({ s' with
      log := if alloc then Event.returned c p :: s.log else s.log }.goto c .idle)

/-- What a CPU may do. -/
inductive Act (ι : Type) where
  | kalloc (c : ι)
  | kfree (c : ι) (p : ℕ)
  | check_and_increment (c : ι) (p : ℕ)
  | go (c : ι)
  | hand (c d : ι) (p : ℕ)
  | write (c : ι) (p v : ℕ)

/-- CPU `c` is in no call and has a reference to the page. -/
def State.Owner (s : State ι) (c : ι) (p : ℕ) : Prop := s.pc c = .idle ∧ 0 < s.held c p

instance (s : State ι) (c : ι) (p : ℕ) : Decidable (s.Owner c p) :=
  inferInstanceAs (Decidable (_ ∧ _))

/-- Calls about a page, and writes to it, come from those that have a reference; others are not
made. -/
def step (s : State ι) : Act ι → Except Panic (State ι)
  | .kalloc c => pure (if s.pc c = .idle then s.goto c .kalloc else s)
  | .kfree c p =>
    pure (if s.Owner c p then (s.setHeld c p (s.held c p - 1)).goto c (.kfree p) else s)
  | .check_and_increment c p =>
    pure (if s.Owner c p then s.goto c (.check false p) else s)
  | .go c => go c s
  | .hand c d p =>
    let s' := s.setHeld c p (s.held c p - 1)
    pure (if s.Owner c p then s'.setHeld d p (s'.held d p + 1) else s)
  | .write c p v => pure (if 0 < s.held c p then s.setNext p v else s)

def run (s : State ι) (as : List (Act ι)) : Except Panic (State ι) := as.foldlM step s

/-- After the loop of `kinit`: every count is 1, and the booting CPU has a reference to each page
that `freerange` is going to free. -/
def boot (L : Layout) (c0 : ι) (next : ℕ → ℕ) : State ι where
  next := next
  freelist := 0
  temp := fun _ => 1
  pc := fun _ => .idle
  held := fun c p => if c = c0 ∧ InRange L p then 1 else 0
  log := []

/-! ### The free list -/

/-- From `h` on the first words link the pages of the list, up to the null pointer. -/
def Chain (next : ℕ → ℕ) : ℕ → List ℕ → Prop
  | h, [] => h = 0
  | h, p :: l => h = p ∧ p ≠ 0 ∧ Chain next (next p) l

variable {L : Layout} {next : ℕ → ℕ} {l : List ℕ} {h p q r v : ℕ} {s t : State ι} {c d : ι}

lemma Chain.write (hc : Chain next h l) (hp : p ∉ l) : Chain (Function.update next p v) h l := by
  induction l generalizing h with
  | nil => exact hc
  | cons q l ih =>
    obtain ⟨hq, h0, hl⟩ := hc
    rw [List.mem_cons, not_or] at hp
    refine ⟨hq, h0, ?_⟩
    rw [Function.update_of_ne (Ne.symm hp.1)]
    exact ih hl hp.2

/-! ### Pages in transit -/

/-- `temp` counts a reference to page `q` that nobody has. -/
def Pc.owed : Pc → ℕ → ℕ
  | .kfree p, q | .counted _ p, q => if q = p then 1 else 0
  | _, _ => 0

/-- Page `q` is neither counted nor on the list. -/
def Pc.loose : Pc → ℕ → ℕ
  | .last p, q | .junked p, q | .popped p, q | .check true p, q | .count true p, q =>
    if q = p then 1 else 0
  | _, _ => 0

/-- Page `q` is on its way from the list to the caller of `kalloc`. -/
def Pc.Coming : Pc → ℕ → Prop
  | .popped p, q | .check true p, q | .count true p, q | .counted true p, q => q = p
  | _, _ => False

/-- The CPU is sharing page `q`. -/
def Pc.Sharing : Pc → ℕ → Prop
  | .check false p, q | .count false p, q => q = p
  | _, _ => False

/-- The page the CPU is busy with. -/
def Pc.page : Pc → Option ℕ
  | .kfree p | .last p | .junked p | .check _ p | .count _ p | .counted _ p => some p
  | .popped p => if p = 0 then none else some p
  | _ => none

lemma part_pos (h : q = p) : 0 < if q = p then 1 else 0 := by
  rw [if_pos h]
  exact Nat.one_pos

lemma Pc.Coming.part {k : Pc} (h : k.Coming q) : 0 < k.owed q ∨ 0 < k.loose q := by
  unfold Pc.Coming at h
  split at h
  · exact Or.inr (part_pos h)
  · exact Or.inr (part_pos h)
  · exact Or.inr (part_pos h)
  · exact Or.inl (part_pos h)
  · exact h.elim

/-- Since `kalloc` last returned the page it has been put on the list. -/
def Back (log : List (Event ι)) (p : ℕ) : Prop :=
  ∀ l1 l2 c, log = l1 ++ .returned c p :: l2 → .listed p ∈ l1

omit [DecidableEq ι] in
lemma Back.listed (log : List (Event ι)) (p : ℕ) : Back (.listed p :: log) p := by
  intro l1 l2 c hl
  cases l1 with
  | nil => exact absurd (List.cons.inj hl).1 nofun
  | cons e l1 =>
    rw [← (List.cons.inj hl).1]
    exact List.mem_cons_self

omit [DecidableEq ι] in
lemma Back.cons {log : List (Event ι)} {e : Event ι} (h : Back log p)
    (he : ∀ c, e ≠ .returned c p) : Back (e :: log) p := by
  intro l1 l2 c hl
  cases l1 with
  | nil => exact absurd (List.cons.inj hl).1 (he c)
  | cons e' l1 => exact List.mem_cons_of_mem _ (h l1 l2 c (List.cons.inj hl).2)

lemma index_ne (hp : InRange L p) (hq : InRange L q) (h : q ≠ p) :
    q / PGSIZE ≠ p / PGSIZE := by
  have hp1 := hp.1
  have hq1 := hq.1
  unfold PGSIZE at *
  omega

omit [DecidableEq ι] in
lemma idle_parts (hpc : s.pc c = .idle) (q : ℕ) :
    (s.pc c).owed q = 0 ∧ (s.pc c).loose q = 0 := by
  rw [hpc]
  exact ⟨rfl, rfl⟩

@[simp] lemma goto_pc (s : State ι) (c : ι) (k : Pc) : (s.goto c k).pc c = k := by
  change Function.update s.pc c k c = k
  rw [Function.update_self]

lemma goto_pc_ne (s : State ι) (k : Pc) (h : d ≠ c) : (s.goto c k).pc d = s.pc d := by
  change Function.update s.pc c k d = s.pc d
  rw [Function.update_of_ne h]

lemma coming_goto {k : Pc} (h : ∃ d, ((s.goto c k).pc d).Coming q) :
    k.Coming q ∨ ∃ d, d ≠ c ∧ (s.pc d).Coming q := by
  obtain ⟨d, hd⟩ := h
  by_cases hdc : d = c
  · subst hdc
    rw [goto_pc] at hd
    exact Or.inl hd
  · rw [goto_pc_ne s k hdc] at hd
    exact Or.inr ⟨d, hdc, hd⟩

lemma coming_others {k : Pc} (hk : ¬ k.Coming q) (h : ∃ d, ((s.goto c k).pc d).Coming q) :
    ∃ d, (s.pc d).Coming q := by
  obtain ⟨d, -, hd⟩ := (coming_goto h).resolve_left hk
  exact ⟨d, hd⟩

@[simp] lemma setHeld_held (s : State ι) (c : ι) (p n : ℕ) : (s.setHeld c p n).held c p = n := by
  change Function.update s.held c (Function.update (s.held c) p n) c p = n
  rw [Function.update_self, Function.update_self]

lemma setHeld_held_ne (s : State ι) (c : ι) (n : ℕ) (h : q ≠ p) :
    (s.setHeld c p n).held c q = s.held c q := by
  change Function.update s.held c (Function.update (s.held c) p n) c q = s.held c q
  rw [Function.update_self, Function.update_of_ne h]

lemma setHeld_held_other (s : State ι) (p n : ℕ) (h : d ≠ c) :
    (s.setHeld c p n).held d = s.held d := by
  change Function.update s.held c (Function.update (s.held c) p n) d = s.held d
  rw [Function.update_of_ne h]

omit [DecidableEq ι] in
@[simp] lemma setTemp_temp (s : State ι) (p : ℕ) (n : ℤ) :
    (s.setTemp p n).temp (p / PGSIZE) = n := by
  change Function.update s.temp (p / PGSIZE) n (p / PGSIZE) = n
  rw [Function.update_self]

omit [DecidableEq ι] in
lemma setTemp_temp_ne (s : State ι) (n : ℤ) (hp : InRange L p) (hq : InRange L q) (h : q ≠ p) :
    (s.setTemp p n).temp (q / PGSIZE) = s.temp (q / PGSIZE) := by
  change Function.update s.temp (p / PGSIZE) n (q / PGSIZE) = s.temp (q / PGSIZE)
  rw [Function.update_of_ne (index_ne hp hq h)]

section

variable [Fintype ι]

/-- The outstanding references to page `p`. -/
def references (s : State ι) (p : ℕ) : ℕ := ∑ c, s.held c p

def owed (s : State ι) (p : ℕ) : ℕ := ∑ c, (s.pc c).owed p

def loose (s : State ι) (p : ℕ) : ℕ := ∑ c, (s.pc c).loose p

/-- Every page of the allocator is counted, on the list, or on the way between the two, and in one
of these places only; `l` is the list. -/
structure Inv (L : Layout) (l : List ℕ) (s : State ι) : Prop where
  chain : Chain s.next s.freelist l
  listed : ∀ p ∈ l, InRange L p
  held : ∀ c p, 0 < s.held c p → InRange L p
  busy : ∀ c p, (s.pc c).page = some p → InRange L p
  counts : ∀ p, InRange L p → s.temp (p / PGSIZE) = references s p + owed s p
  once : ∀ p, InRange L p → l.count p + loose s p = if s.temp (p / PGSIZE) = 0 then 1 else 0
  sharing : ∀ c p, (s.pc c).Sharing p → 0 < s.held c p
  fresh : ∀ c p, s.pc c = .counted true p → s.temp (p / PGSIZE) = 1
  back : ∀ p, InRange L p → p ∈ l ∨ (∃ c, (s.pc c).Coming p) → Back s.log p

/-! ### What one CPU contributes -/

lemma sum_change (f g : ι → ℕ) (c : ι) (h : ∀ d, d ≠ c → f d = g d) :
    ∑ d, f d + g c = ∑ d, g d + f c := by
  have hrest : ∑ d ∈ Finset.univ.erase c, f d = ∑ d ∈ Finset.univ.erase c, g d :=
    Finset.sum_congr rfl fun d hd => h d (Finset.ne_of_mem_erase hd)
  have hf := Finset.add_sum_erase Finset.univ f (Finset.mem_univ c)
  have hg := Finset.add_sum_erase Finset.univ g (Finset.mem_univ c)
  omega

lemma pair_le (f : ι → ℕ) (h : c ≠ d) : f c + f d ≤ ∑ e, f e := by
  have hc := Finset.add_sum_erase Finset.univ f (Finset.mem_univ c)
  have hd := Finset.add_sum_erase (Finset.univ.erase c) f
    (Finset.mem_erase.mpr ⟨Ne.symm h, Finset.mem_univ d⟩)
  omega

omit [DecidableEq ι] in
lemma part_le (f : ι → ℕ) (c : ι) : f c ≤ ∑ e, f e :=
  Finset.single_le_sum (fun _ _ => Nat.zero_le _) (Finset.mem_univ c)

omit [DecidableEq ι] in
lemma Inv.not_listed (hI : Inv L l s) (hp : InRange L p)
    (hl : 0 < (s.pc c).loose p ∨ s.temp (p / PGSIZE) ≠ 0) : p ∉ l := by
  intro hmem
  have hcount := List.count_pos_iff.mpr hmem
  have honce := hI.once p hp
  have hle : (s.pc c).loose p ≤ loose s p := part_le (fun e => (s.pc e).loose p) c
  split_ifs at honce with h0
  · rcases hl with hl | hl
    · omega
    · exact hl h0
  · omega

omit [DecidableEq ι] in
lemma Inv.uncounted (hI : Inv L l s) (hp : InRange L p) (hl : 0 < (s.pc c).loose p) :
    s.temp (p / PGSIZE) = 0 := by
  have honce := hI.once p hp
  have hle : (s.pc c).loose p ≤ loose s p := part_le (fun e => (s.pc e).loose p) c
  split_ifs at honce with h0
  · exact h0
  · omega

omit [DecidableEq ι] in
lemma Inv.counted (hI : Inv L l s) (c : ι) (hp : InRange L p) :
    (s.held c p + (s.pc c).owed p : ℤ) ≤ s.temp (p / PGSIZE) := by
  have hcount := hI.counts p hp
  have hheld : s.held c p ≤ references s p := part_le (fun e => s.held e p) c
  have howed : (s.pc c).owed p ≤ owed s p := part_le (fun e => (s.pc e).owed p) c
  omega

lemma Inv.alone (hI : Inv L l s) (hd : s.pc d = .counted true p) (hne : c ≠ d) :
    s.held c p = 0 ∧ (s.pc c).owed p = 0 ∧ (s.pc c).loose p = 0 := by
  have hp : InRange L p := hI.busy d p (by rw [hd]; rfl)
  have hone := hI.fresh d p hd
  have hcount := hI.counts p hp
  have hheld : s.held c p ≤ references s p := part_le (fun e => s.held e p) c
  have howed : (s.pc c).owed p + (s.pc d).owed p ≤ owed s p :=
    pair_le (fun e => (s.pc e).owed p) hne
  have hdown : (s.pc d).owed p = 1 := by
    rw [hd]
    exact if_pos rfl
  refine ⟨by omega, by omega, ?_⟩
  by_contra hl
  have h0 := hI.uncounted hp (Nat.pos_of_ne_zero hl)
  omega

/-! ### A step of one CPU -/

/-- Only CPU `c` does something, and `temp` and the list change by what it owes and has loose. -/
lemma Inv.change (hI : Inv L l s) (c : ι) {l' : List ℕ}
    (hpc : ∀ d, d ≠ c → t.pc d = s.pc d) (hheld : ∀ d, d ≠ c → t.held d = s.held d)
    (hchain : Chain t.next t.freelist l') (hlisted : ∀ p ∈ l', InRange L p)
    (hhas : ∀ p, 0 < t.held c p → InRange L p)
    (hbusy : ∀ p, (t.pc c).page = some p → InRange L p)
    (hcounts : ∀ p, InRange L p → t.temp (p / PGSIZE) + s.held c p + (s.pc c).owed p =
      s.temp (p / PGSIZE) + t.held c p + (t.pc c).owed p)
    (honce : ∀ p, InRange L p →
      l'.count p + (t.pc c).loose p + (if s.temp (p / PGSIZE) = 0 then 1 else 0) =
      l.count p + (s.pc c).loose p + if t.temp (p / PGSIZE) = 0 then 1 else 0)
    (hsharing : ∀ p, (t.pc c).Sharing p → 0 < t.held c p)
    (hfresh : ∀ p, t.pc c = .counted true p → t.temp (p / PGSIZE) = 1)
    (hothers : ∀ d p, d ≠ c → s.pc d = .counted true p → t.temp (p / PGSIZE) = s.temp (p / PGSIZE))
    (hback : ∀ p, InRange L p → p ∈ l' ∨ (∃ d, (t.pc d).Coming p) → Back t.log p) :
    Inv L l' t := by
  have hreferences : ∀ p, references t p + s.held c p = references s p + t.held c p := fun p =>
    sum_change (fun e => t.held e p) (fun e => s.held e p) c fun d hd => congrFun (hheld d hd) p
  have howed : ∀ p, owed t p + (s.pc c).owed p = owed s p + (t.pc c).owed p := fun p =>
    sum_change (fun e => (t.pc e).owed p) (fun e => (s.pc e).owed p) c fun d hd => by rw [hpc d hd]
  have hloose : ∀ p, loose t p + (s.pc c).loose p = loose s p + (t.pc c).loose p := fun p =>
    sum_change (fun e => (t.pc e).loose p) (fun e => (s.pc e).loose p) c
      fun d hd => by rw [hpc d hd]
  refine ⟨hchain, hlisted, fun d p hd => ?_, fun d p hd => ?_, fun p hp => ?_, fun p hp => ?_,
    fun d p hd => ?_, fun d p hd => ?_, hback⟩
  · by_cases hdc : d = c
    · subst hdc
      exact hhas p hd
    · rw [hheld d hdc] at hd
      exact hI.held d p hd
  · by_cases hdc : d = c
    · subst hdc
      exact hbusy p hd
    · rw [hpc d hdc] at hd
      exact hI.busy d p hd
  · have h1 := hreferences p
    have h2 := howed p
    have h3 := hcounts p hp
    have h4 := hI.counts p hp
    omega
  · have h1 := hloose p
    have h2 := honce p hp
    have h3 := hI.once p hp
    omega
  · by_cases hdc : d = c
    · subst hdc
      exact hsharing p hd
    · rw [hpc d hdc] at hd
      rw [hheld d hdc]
      exact hI.sharing d p hd
  · by_cases hdc : d = c
    · subst hdc
      exact hfresh p hd
    · rw [hpc d hdc] at hd
      rw [hothers d p hdc hd]
      exact hI.fresh d p hd

/-- CPU `c` goes on to `k`, with the same page in the same place, and writes at most to a page that
is not on the list. -/
lemma Inv.moves (hI : Inv L l s) {k : Pc} (hchain : Chain next s.freelist l)
    (howed : ∀ p, InRange L p → k.owed p = (s.pc c).owed p)
    (hloose : ∀ p, InRange L p → k.loose p = (s.pc c).loose p)
    (hbusy : ∀ p, k.page = some p → InRange L p) (hsharing : ∀ p, k.Sharing p → 0 < s.held c p)
    (hfresh : ∀ p, k ≠ .counted true p)
    (hcoming : ∀ p, InRange L p → k.Coming p → (s.pc c).Coming p) :
    Inv L l ({ s with next := next }.goto c k) := by
  refine hI.change c (fun d hd => goto_pc_ne _ k hd) (fun d hd => rfl) hchain hI.listed
    (hI.held c) (fun p hp => ?_) (fun p hp => ?_) (fun p hp => ?_) (fun p hp => ?_)
    (fun p hp => ?_) (fun d p hd hp => rfl) (fun p hp hcom => ?_)
  · rw [goto_pc] at hp
    exact hbusy p hp
  · rw [goto_pc, howed p hp]
    rfl
  · rw [goto_pc, hloose p hp]
    rfl
  · rw [goto_pc] at hp
    exact hsharing p hp
  · rw [goto_pc] at hp
    exact absurd hp (hfresh p)
  · refine hI.back p hp (hcom.imp_right fun h => ?_)
    rcases coming_goto h with hk | ⟨d, -, hd⟩
    · exact ⟨c, hcoming p hp hk⟩
    · exact ⟨d, hd⟩

/-- The first section of `kfree`. -/
lemma Inv.drop (hI : Inv L l s) (hpc : s.pc c = .kfree p) :
    0 < s.temp (p / PGSIZE) ∧
    Inv L l ((s.setTemp p (s.temp (p / PGSIZE) - 1)).goto c
      (if 1 < s.temp (p / PGSIZE) then .idle else .last p)) := by
  have hp : InRange L p := hI.busy c p (by rw [hpc]; rfl)
  have hone : (s.pc c).owed p = 1 := by
    rw [hpc]
    exact if_pos rfl
  have hpos : 0 < s.temp (p / PGSIZE) := by
    have hcounted := hI.counted c hp
    omega
  refine ⟨hpos, ?_⟩
  set flag := s.temp (p / PGSIZE) with hflag
  set k := if 1 < flag then Pc.idle else .last p with hk
  have hkowed : ∀ q, k.owed q = 0 := fun q => by
    rw [hk]
    split_ifs <;> rfl
  have hkloose : ∀ q, k.loose q = if 1 < flag then 0 else if q = p then 1 else 0 := fun q => by
    rw [hk]
    split_ifs <;> first | rfl | exact if_pos ‹_› | exact if_neg ‹_›
  refine hI.change c (fun d hd => goto_pc_ne _ k hd) (fun d hd => rfl) hI.chain hI.listed
    (hI.held c) (fun q hq => ?_) (fun q hq => ?_) (fun q hq => ?_) (fun q hq => ?_)
    (fun q hq => ?_) (fun d q hd hq => ?_) (fun q hq hcom => ?_)
  · rw [goto_pc, hk] at hq
    split_ifs at hq
    · cases hq
    · obtain rfl := Option.some.inj hq
      exact hp
  · rw [goto_pc, hkowed]
    by_cases hqp : q = p
    · subst hqp
      have ht : ((s.setTemp q (flag - 1)).goto c k).temp (q / PGSIZE) = flag - 1 :=
        setTemp_temp s q _
      rw [ht, hone]
      change _ = _ + (s.held c q : ℤ) + _
      omega
    · have ht : ((s.setTemp p (flag - 1)).goto c k).temp (q / PGSIZE) = s.temp (q / PGSIZE) :=
        setTemp_temp_ne s _ hp hq hqp
      have h0 : (s.pc c).owed q = 0 := by
        rw [hpc]
        exact if_neg hqp
      rw [ht, h0]
      rfl
  · have h0 : (s.pc c).loose q = 0 := by
      rw [hpc]
      rfl
    rw [goto_pc, hkloose, h0]
    by_cases hqp : q = p
    · subst hqp
      have ht : ((s.setTemp q (flag - 1)).goto c k).temp (q / PGSIZE) = flag - 1 :=
        setTemp_temp s q _
      rw [ht, ← hflag, if_pos rfl]
      split_ifs <;> omega
    · have ht : ((s.setTemp p (flag - 1)).goto c k).temp (q / PGSIZE) = s.temp (q / PGSIZE) :=
        setTemp_temp_ne s _ hp hq hqp
      rw [ht, if_neg hqp, ite_self]
  · rw [goto_pc, hk] at hq
    split_ifs at hq <;> exact hq.elim
  · rw [goto_pc, hk] at hq
    split_ifs at hq
  · -- nobody is returning the page from `kalloc`, for this CPU has had a reference to it
    have hqp : q ≠ p := by
      rintro rfl
      have hnone := (hI.alone hq (Ne.symm hd)).2.1
      omega
    exact setTemp_temp_ne s _ hp (hI.busy d q (by rw [hq]; rfl)) hqp
  · refine hI.back q hq (hcom.imp_right (coming_others fun hd => ?_))
    rw [hk] at hd
    split_ifs at hd <;> exact hd

/-- The second section of `kfree`. -/
lemma Inv.list (hI : Inv L l s) (hpc : s.pc c = .junked p) :
    Inv L (p :: l) ({ s.setNext p s.freelist with
      freelist := p
      log := Event.listed p :: s.log }.goto c .idle) := by
  have hp : InRange L p := hI.busy c p (by rw [hpc]; rfl)
  have hone : (s.pc c).loose p = 1 := by
    rw [hpc]
    exact if_pos rfl
  have hnot : p ∉ l := hI.not_listed hp (c := c) (Or.inl (by omega))
  refine hI.change c (fun d hd => goto_pc_ne _ _ hd) (fun d hd => rfl) ?_ ?_
    (hI.held c) (fun q hq => ?_) (fun q hq => ?_) (fun q hq => ?_) (fun q hq => ?_)
    (fun q hq => ?_) (fun d q hd hq => rfl) (fun q hq hcom => ?_)
  · refine ⟨rfl, Nat.ne_of_gt hp.pos, ?_⟩
    change Chain (Function.update s.next p s.freelist) (Function.update s.next p s.freelist p) l
    rw [Function.update_self]
    exact hI.chain.write hnot
  · intro q hq
    rcases List.mem_cons.mp hq with rfl | hq
    · exact hp
    · exact hI.listed q hq
  · rw [goto_pc] at hq
    cases hq
  · have h0 : (s.pc c).owed q = 0 := by
      rw [hpc]
      rfl
    rw [goto_pc, h0]
    rfl
  · rw [goto_pc, List.count_cons]
    by_cases hqp : q = p
    · subst hqp
      rw [hone, beq_self_eq_true, if_pos rfl]
      change _ + 1 + 0 + _ = _
      rfl
    · have h0 : (s.pc c).loose q = 0 := by
        rw [hpc]
        exact if_neg hqp
      rw [h0, if_neg (by rwa [beq_iff_eq, eq_comm])]
      rfl
  · rw [goto_pc] at hq
    exact hq.elim
  · rw [goto_pc] at hq
    cases hq
  · change Back (Event.listed p :: s.log) q
    by_cases hqp : q = p
    · subst hqp
      exact Back.listed _ _
    · refine Back.cons (hI.back q hq ?_) nofun
      exact hcom.imp (fun hmem => (List.mem_cons.mp hmem).resolve_left hqp) (coming_others id)

/-- The first section of `kalloc`, if there is a page. -/
lemma Inv.pop (hI : Inv L (r :: l) s) (hpc : s.pc c = .kalloc) :
    Inv L l ({ s with freelist := s.next r }.goto c (.popped r)) := by
  have hr : InRange L r := hI.listed r List.mem_cons_self
  obtain ⟨-, h0, hchain⟩ := hI.chain
  have hcall : ∀ q, (s.pc c).owed q = 0 ∧ (s.pc c).loose q = 0 := fun q => by
    rw [hpc]
    exact ⟨rfl, rfl⟩
  refine hI.change c (fun d hd => goto_pc_ne _ _ hd) (fun d hd => rfl) hchain
    (fun q hq => hI.listed q (List.mem_cons_of_mem _ hq))
    (hI.held c) (fun q hq => ?_) (fun q hq => ?_) (fun q hq => ?_) (fun q hq => ?_)
    (fun q hq => ?_) (fun d q hd hq => rfl) (fun q hq hcom => ?_)
  · rw [goto_pc] at hq
    change (if r = 0 then none else some r) = some q at hq
    rw [if_neg h0] at hq
    obtain rfl := Option.some.inj hq
    exact hr
  · rw [goto_pc, (hcall q).1]
    rfl
  · rw [goto_pc, (hcall q).2, List.count_cons]
    change _ + (if q = r then 1 else 0) + _ = _
    by_cases hqr : q = r
    · subst hqr
      rw [if_pos rfl, beq_self_eq_true, if_pos rfl]
      rfl
    · have hrq : ¬(r == q) = true := by rwa [beq_iff_eq, eq_comm]
      rw [if_neg hqr, if_neg hrq]
      rfl
  · rw [goto_pc] at hq
    exact hq.elim
  · rw [goto_pc] at hq
    cases hq
  · refine hI.back q hq ?_
    rcases hcom with hmem | hcom
    · exact Or.inl (List.mem_cons_of_mem _ hmem)
    · rcases coming_goto hcom with hk | ⟨d, -, hd⟩
      · obtain rfl : q = r := hk
        exact Or.inl List.mem_cons_self
      · exact Or.inr ⟨d, hd⟩

/-- The section of `check_and_increment`. -/
lemma Inv.increment (hI : Inv L l s) {alloc : Bool} (hpc : s.pc c = .count alloc p) :
    Inv L l ((s.setTemp p (s.temp (p / PGSIZE) + 1)).goto c (.counted alloc p)) := by
  have hp : InRange L p := hI.busy c p (by rw [hpc]; rfl)
  have howed : ∀ q, (s.pc c).owed q = 0 := fun q => by
    rw [hpc]
    rfl
  have hloose : ∀ q, (s.pc c).loose q = if alloc then if q = p then 1 else 0 else 0 := fun q => by
    rw [hpc]
    cases alloc <;> rfl
  have hself : ((s.setTemp p (s.temp (p / PGSIZE) + 1)).goto c (.counted alloc p)).temp
      (p / PGSIZE) = s.temp (p / PGSIZE) + 1 := setTemp_temp s p _
  have hrest : ∀ q, InRange L q → q ≠ p →
      ((s.setTemp p (s.temp (p / PGSIZE) + 1)).goto c (.counted alloc p)).temp (q / PGSIZE) =
        s.temp (q / PGSIZE) := fun q hq hqp => setTemp_temp_ne s _ hp hq hqp
  -- a page from the list has no reference yet, one that is shared has at least one
  have hbefore : if alloc then s.temp (p / PGSIZE) = 0 else 0 < s.temp (p / PGSIZE) := by
    cases alloc with
    | true => exact hI.uncounted hp (c := c) (by rw [hloose, if_pos rfl, if_pos rfl]; omega)
    | false =>
      have hheld : 0 < s.held c p := hI.sharing c p (by rw [hpc]; rfl)
      have hcounted := hI.counted c hp
      change 0 < s.temp (p / PGSIZE)
      omega
  refine hI.change c (fun d hd => goto_pc_ne _ _ hd) (fun d hd => rfl) hI.chain hI.listed
    (hI.held c) (fun q hq => ?_) (fun q hq => ?_) (fun q hq => ?_) (fun q hq => ?_)
    (fun q hq => ?_) (fun d q hd hq => ?_) (fun q hq hcom => ?_)
  · rw [goto_pc] at hq
    obtain rfl := Option.some.inj hq
    exact hp
  · rw [goto_pc, howed]
    change _ = _ + (s.held c q : ℤ) + ((if q = p then 1 else 0 : ℕ) : ℤ)
    by_cases hqp : q = p
    · subst hqp
      rw [hself, if_pos rfl]
      omega
    · rw [hrest q hq hqp, if_neg hqp]
  · rw [goto_pc, hloose]
    change _ + 0 + _ = _
    by_cases hqp : q = p
    · subst hqp
      rw [hself, if_pos rfl]
      cases alloc with
      | true =>
        rw [if_pos rfl] at hbefore ⊢
        rw [if_pos hbefore, if_neg (by omega)]
      | false =>
        have hpos : 0 < s.temp (q / PGSIZE) := hbefore
        have h1 : ¬s.temp (q / PGSIZE) + 1 = 0 := by omega
        rw [if_neg (Int.ne_of_gt hpos), if_neg h1]
        rfl
    · rw [hrest q hq hqp, if_neg hqp, ite_self]
  · rw [goto_pc] at hq
    exact hq.elim
  · rw [goto_pc] at hq
    obtain ⟨rfl, rfl⟩ := Pc.counted.inj hq
    rw [if_pos rfl] at hbefore
    rw [hself, hbefore]
    rfl
  · refine hrest q (hI.busy d q (by rw [hq]; rfl)) ?_
    rintro rfl
    have hone := hI.fresh d q hq
    have halone := hI.alone hq (Ne.symm hd)
    cases alloc with
    | true =>
      rw [if_pos rfl] at hbefore
      omega
    | false =>
      have hheld : 0 < s.held c q := hI.sharing c q (by rw [hpc]; rfl)
      omega
  · refine hI.back q hq (hcom.imp_right fun h => ?_)
    rcases coming_goto h with hk | ⟨d, -, hd⟩
    · refine ⟨c, ?_⟩
      rw [hpc]
      cases alloc with
      | true => exact hk
      | false => exact hk.elim
    · exact ⟨d, hd⟩

/-- The return from `check_and_increment`, or from `kalloc`. -/
lemma Inv.return (hI : Inv L l s) {alloc : Bool} (hpc : s.pc c = .counted alloc p) :
    Inv L l ({ s.setHeld c p (s.held c p + 1) with
      log := if alloc then Event.returned c p :: s.log else s.log }.goto c .idle) := by
  have hp : InRange L p := hI.busy c p (by rw [hpc]; rfl)
  have howed : ∀ q, (s.pc c).owed q = if q = p then 1 else 0 := fun q => by
    rw [hpc]
    rfl
  have hloose : ∀ q, (s.pc c).loose q = 0 := fun q => by
    rw [hpc]
    rfl
  refine hI.change c (fun d hd => goto_pc_ne _ _ hd) (fun d hd => setHeld_held_other s p _ hd)
    hI.chain hI.listed (fun q hq => ?_) (fun q hq => ?_) (fun q hq => ?_) (fun q hq => ?_)
    (fun q hq => ?_) (fun q hq => ?_) (fun d q hd hq => rfl) (fun q hq hcom => ?_)
  · change 0 < (s.setHeld c p (s.held c p + 1)).held c q at hq
    by_cases hqp : q = p
    · exact hqp ▸ hp
    · rw [setHeld_held_ne s c _ hqp] at hq
      exact hI.held c q hq
  · rw [goto_pc] at hq
    cases hq
  · rw [goto_pc, howed]
    change s.temp (q / PGSIZE) + _ + _ =
      s.temp (q / PGSIZE) + ((s.setHeld c p (s.held c p + 1)).held c q : ℤ) + 0
    by_cases hqp : q = p
    · subst hqp
      rw [setHeld_held, if_pos rfl]
      push_cast
      omega
    · rw [setHeld_held_ne s c _ hqp, if_neg hqp]
      rfl
  · rw [goto_pc, hloose]
    rfl
  · rw [goto_pc] at hq
    exact hq.elim
  · rw [goto_pc] at hq
    cases hq
  · have hcom' : q ∈ l ∨ ∃ d, d ≠ c ∧ (s.pc d).Coming q :=
      hcom.imp_right fun h => (coming_goto h).resolve_left id
    have hback := hI.back q hq (hcom'.imp_right fun ⟨d, _, hd⟩ => ⟨d, hd⟩)
    cases alloc with
    | false => exact hback
    | true =>
      refine Back.cons hback fun e he => ?_
      -- the page that `kalloc` returns is neither on the list nor coming to anybody else
      obtain rfl : p = q := (Event.returned.inj he).2
      rcases hcom' with hmem | ⟨d, hdc, hd⟩
      · have hone := hI.fresh c p hpc
        exact hI.not_listed hp (c := c) (Or.inr (by omega)) hmem
      · have halone := hI.alone hpc hdc
        have hpart : 0 < (s.pc d).owed p ∨ 0 < (s.pc d).loose p := Pc.Coming.part hd
        omega

/-! ### All steps -/

/-- **A section** does not panic. -/
lemma Inv.go (hI : Inv L l s) (c : ι) : ∃ t, go c s = .ok t ∧ ∃ l', Inv L l' t := by
  unfold KallocSections.go
  cases hpc : s.pc c with
  | idle => exact ⟨s, rfl, l, hI⟩
  | kfree p =>
    obtain ⟨hpos, hdrop⟩ := hI.drop hpc
    dsimp only
    rw [if_pos hpos]
    exact ⟨_, rfl, l, hdrop⟩
  | last p =>
    have hp : InRange L p := hI.busy c p (by rw [hpc]; rfl)
    have hloose : 0 < (s.pc c).loose p := by
      rw [hpc]
      exact part_pos rfl
    refine ⟨_, rfl, l, hI.moves (hI.chain.write (hI.not_listed hp (Or.inl hloose)))
      (fun q _ => ?_) (fun q _ => ?_) (fun q hq => ?_) (fun q hq => hq.elim) nofun
      (fun q _ hq => hq.elim)⟩
    · rw [hpc]
      rfl
    · rw [hpc]
      rfl
    · obtain rfl := Option.some.inj hq
      exact hp
  | junked p => exact ⟨_, rfl, p :: l, hI.list hpc⟩
  | kalloc =>
    cases l with
    | nil =>
      have h0 : s.freelist = 0 := hI.chain
      refine ⟨_, rfl, [], ?_⟩
      rw [if_pos h0]
      refine hI.moves hI.chain (fun q _ => ?_) (fun q hq => ?_) (fun q hq => ?_)
        (fun q hq => hq.elim) nofun (fun q hq hcom => ?_)
      · rw [hpc]
        rfl
      · rw [hpc, h0]
        exact if_neg (Nat.ne_of_gt hq.pos)
      · rw [h0] at hq
        cases hq
      · obtain rfl : q = s.freelist := hcom
        exact absurd h0 (Nat.ne_of_gt hq.pos)
    | cons r l =>
      obtain ⟨hr, h0, -⟩ := hI.chain
      refine ⟨_, rfl, l, ?_⟩
      rw [hr, if_neg h0]
      exact hI.pop hpc
  | popped r =>
    refine ⟨_, rfl, l, ?_⟩
    split_ifs with h0
    · refine hI.moves hI.chain (fun q _ => ?_) (fun q hq => ?_) nofun (fun q hq => hq.elim) nofun
        (fun q _ hq => hq.elim)
      · rw [hpc]
        rfl
      · rw [hpc, h0]
        exact (if_neg (Nat.ne_of_gt hq.pos)).symm
    · have hr : InRange L r := hI.busy c r (by rw [hpc]; exact if_neg h0)
      have hloose : 0 < (s.pc c).loose r := by
        rw [hpc]
        exact part_pos rfl
      refine hI.moves (hI.chain.write (hI.not_listed hr (Or.inl hloose))) (fun q _ => ?_)
        (fun q _ => ?_) (fun q hq => ?_) (fun q hq => hq.elim) nofun (fun q _ hq => ?_)
      · rw [hpc]
        rfl
      · rw [hpc]
        rfl
      · obtain rfl := Option.some.inj hq
        exact hr
      · rw [hpc]
        exact hq
  | check alloc p =>
    have hp : InRange L p := hI.busy c p (by rw [hpc]; rfl)
    have hcounted := hI.counted c hp
    dsimp only
    rw [if_neg (by omega)]
    refine ⟨_, rfl, l, hI.moves hI.chain (fun q _ => ?_) (fun q _ => ?_)
      (fun q hq => ?_) (fun q hq => hI.sharing c q ?_) nofun (fun q _ hq => ?_)⟩
    · rw [hpc]
      rfl
    · rw [hpc]
      cases alloc <;> rfl
    · obtain rfl := Option.some.inj hq
      exact hp
    · rw [hpc]
      cases alloc <;> exact hq
    · rw [hpc]
      cases alloc <;> exact hq
  | count alloc p => exact ⟨_, rfl, l, hI.increment hpc⟩
  | counted alloc p => exact ⟨_, rfl, l, hI.return hpc⟩

/-- The call of `kfree` takes the reference from the caller. -/
lemma Inv.call_kfree (hI : Inv L l s) (ho : s.Owner c p) :
    Inv L l ((s.setHeld c p (s.held c p - 1)).goto c (.kfree p)) := by
  obtain ⟨hpc, hheld⟩ := ho
  have hp : InRange L p := hI.held c p hheld
  refine hI.change c (fun d hd => goto_pc_ne _ _ hd) (fun d hd => setHeld_held_other s p _ hd)
    hI.chain hI.listed (fun q hq => ?_) (fun q hq => ?_) (fun q hq => ?_) (fun q hq => ?_)
    (fun q hq => ?_) (fun q hq => ?_) (fun d q hd hq => rfl) (fun q hq hcom => ?_)
  · by_cases hqp : q = p
    · exact hqp ▸ hp
    · change 0 < (s.setHeld c p (s.held c p - 1)).held c q at hq
      rw [setHeld_held_ne s c _ hqp] at hq
      exact hI.held c q hq
  · rw [goto_pc] at hq
    obtain rfl := Option.some.inj hq
    exact hp
  · rw [goto_pc, (idle_parts hpc q).1]
    change s.temp (q / PGSIZE) + _ + _ = s.temp (q / PGSIZE) +
      ((s.setHeld c p (s.held c p - 1)).held c q : ℤ) + ((if q = p then 1 else 0 : ℕ) : ℤ)
    by_cases hqp : q = p
    · subst hqp
      rw [setHeld_held, if_pos rfl]
      omega
    · rw [setHeld_held_ne s c _ hqp, if_neg hqp]
  · rw [goto_pc, (idle_parts hpc q).2]
    rfl
  · rw [goto_pc] at hq
    exact hq.elim
  · rw [goto_pc] at hq
    cases hq
  · exact hI.back q hq (hcom.imp_right (coming_others id))

lemma references_setHeld (s : State ι) (c : ι) (p n q : ℕ) :
    references (s.setHeld c p n) q + s.held c q =
      references s q + (s.setHeld c p n).held c q :=
  sum_change (fun e => (s.setHeld c p n).held e q) (fun e => s.held e q) c
    fun _ hd => congrFun (setHeld_held_other s p n hd) q

/-- A reference is passed on. -/
lemma Inv.hand (hI : Inv L l s) (d : ι) (ho : s.Owner c p) {s' : State ι}
    (hs' : s' = s.setHeld c p (s.held c p - 1)) :
    Inv L l (s'.setHeld d p (s'.held d p + 1)) := by
  obtain ⟨hpc, hheld⟩ := ho
  have hp : InRange L p := hI.held c p hheld
  have htake : ∀ q, references s' q + s.held c q = references s q + s'.held c q := by
    subst hs'
    exact references_setHeld s c p _
  have hgive := references_setHeld s' d p (s'.held d p + 1)
  have hself : s'.held c p = s.held c p - 1 := by
    subst hs'
    exact setHeld_held s c p _
  have hrest : ∀ e q, e ≠ c ∨ q ≠ p → s'.held e q = s.held e q := by
    subst hs'
    intro e q h
    by_cases he : e = c
    · subst he
      exact setHeld_held_ne s e _ (h.resolve_left fun h => h rfl)
    · exact congrFun (setHeld_held_other s p _ he) q
  have hgrown : ∀ e q, s'.held e q ≤ (s'.setHeld d p (s'.held d p + 1)).held e q := by
    intro e q
    by_cases he : e = d
    · subst he
      by_cases hq : q = p
      · subst hq
        rw [setHeld_held]
        omega
      · rw [setHeld_held_ne s' e _ hq]
    · rw [setHeld_held_other s' p _ he]
  have hsum : ∀ q, references (s'.setHeld d p (s'.held d p + 1)) q = references s q := by
    intro q
    have h1 := htake q
    have h2 := hgive q
    by_cases hq : q = p
    · subst hq
      rw [setHeld_held] at h2
      omega
    · rw [setHeld_held_ne s' d _ hq] at h2
      rw [hrest c q (Or.inr hq)] at h1
      omega
  refine ⟨?_, hI.listed, fun e q he => ?_, ?_, fun q hq => ?_, ?_, fun e q he => ?_, ?_, ?_⟩ <;>
    subst hs'
  · exact hI.chain
  · by_cases hq : q = p
    · exact hq ▸ hp
    · refine hI.held e q ?_
      rw [← hrest e q (Or.inr hq)]
      by_cases hed : e = d
      · subst hed
        rwa [setHeld_held_ne _ e _ hq] at he
      · rwa [setHeld_held_other _ p _ hed] at he
  · exact hI.busy
  · rw [hsum q]
    exact hI.counts q hq
  · exact hI.once
  · -- the CPU that has passed the reference on is in no call
    refine Nat.lt_of_lt_of_le ?_ (hgrown e q)
    have hne : e ≠ c := by
      rintro rfl
      change (s.pc e).Sharing q at he
      rw [hpc] at he
      exact he.elim
    rw [hrest e q (Or.inl hne)]
    exact hI.sharing e q he
  · exact hI.fresh
  · exact hI.back

/-- **A step** does not panic, and the allocator is consistent after it. -/
lemma Inv.step (hI : Inv L l s) (a : Act ι) : ∃ t, step s a = .ok t ∧ ∃ l', Inv L l' t := by
  cases a with
  | kalloc c =>
    refine ⟨_, rfl, l, ?_⟩
    split_ifs with hpc
    · refine hI.moves hI.chain (fun q _ => ?_) (fun q _ => ?_) nofun (fun q hq => hq.elim) nofun
        (fun q _ hq => hq.elim)
      · exact (idle_parts hpc q).1.symm
      · exact (idle_parts hpc q).2.symm
    · exact hI
  | kfree c p =>
    refine ⟨_, rfl, l, ?_⟩
    split_ifs with ho
    · exact hI.call_kfree ho
    · exact hI
  | check_and_increment c p =>
    refine ⟨_, rfl, l, ?_⟩
    split_ifs with ho
    · refine hI.moves hI.chain (fun q _ => ?_) (fun q _ => ?_) (fun q hq => ?_) (fun q hq => ?_)
        nofun (fun q _ hq => hq.elim)
      · exact (idle_parts ho.1 q).1.symm
      · exact (idle_parts ho.1 q).2.symm
      · obtain rfl := Option.some.inj hq
        exact hI.held c _ ho.2
      · obtain rfl : q = p := hq
        exact ho.2
    · exact hI
  | go c => exact hI.go c
  | hand c d p =>
    refine ⟨_, rfl, l, ?_⟩
    split_ifs with ho
    · exact hI.hand d ho rfl
    · exact hI
  | write c p v =>
    refine ⟨_, rfl, l, ?_⟩
    split_ifs with hheld
    · have hp : InRange L p := hI.held c p hheld
      have hcounted := hI.counted c hp
      refine ⟨hI.chain.write (hI.not_listed hp (c := c) (Or.inr (by omega))), hI.listed, hI.held,
        hI.busy, hI.counts, hI.once, hI.sharing, hI.fresh, hI.back⟩
    · exact hI

lemma Inv.run (hI : Inv L l s) (as : List (Act ι)) :
    ∃ t, run s as = .ok t ∧ ∃ l', Inv L l' t := by
  induction as generalizing s l with
  | nil => exact ⟨s, rfl, l, hI⟩
  | cons a as ih =>
    obtain ⟨t, ht, l1, h1⟩ := hI.step a
    obtain ⟨u, hu, h2⟩ := ih h1
    refine ⟨u, ?_, h2⟩
    unfold KallocSections.run
    rw [List.foldlM_cons, ht]
    exact hu

lemma Inv.boot (L : Layout) (c0 : ι) (next : ℕ → ℕ) : Inv L [] (boot L c0 next) := by
  refine ⟨rfl, nofun, fun c p hp => ?_, nofun, fun p hp => ?_, fun p hp => ?_,
    fun c p hp => hp.elim, nofun, fun p hp => ?_⟩
  · change 0 < if c = c0 ∧ InRange L p then 1 else 0 at hp
    split_ifs at hp with h
    · exact h.2
    · cases hp
  · have hone : references (KallocSections.boot L c0 next) p = 1 := by
      change ∑ c, (if c = c0 ∧ InRange L p then 1 else 0) = 1
      rw [Finset.sum_eq_single c0 (fun c _ hc => if_neg fun h => hc h.1)
        fun h => absurd (Finset.mem_univ c0) h]
      exact if_pos ⟨rfl, hp⟩
    have hnone : owed (KallocSections.boot L c0 next) p = 0 := Finset.sum_eq_zero fun _ _ => rfl
    rw [hone, hnone]
    rfl
  · have hnone : loose (KallocSections.boot L c0 next) p = 0 := Finset.sum_eq_zero fun _ _ => rfl
    rw [hnone]
    rfl
  · rintro - l1 l2 c hl
    exact absurd hl (by cases l1 <;> nofun)

/-- **The page allocator is correct under concurrency**: no call panics, the free list has no page
twice, `kalloc` returns no page that somebody has a reference to or that has not been freed since it
was last returned, and between calls `temp` counts the outstanding references. -/
theorem allocator_correct (L : Layout) (c0 : ι) (next : ℕ → ℕ) (as : List (Act ι)) :
    ∃ s, run (boot L c0 next) as = .ok s ∧
      (∃ l, Chain s.next s.freelist l ∧ l.Nodup) ∧
      (∀ c p, s.pc c = .counted true p → (∀ d, s.held d p = 0) ∧ Back s.log p) ∧
      ((∀ c, s.pc c = .idle) → ∀ p, InRange L p → s.temp (p / PGSIZE) = ∑ c, s.held c p) := by
  obtain ⟨s, hrun, l, hI⟩ := (Inv.boot L c0 next).run as
  refine ⟨s, hrun, ⟨l, hI.chain, ?_⟩, fun c p hpc => ⟨fun d => ?_, ?_⟩, fun hidle p hp => ?_⟩
  · rw [List.nodup_iff_count_le_one]
    intro p
    by_cases hmem : p ∈ l
    · have honce := hI.once p (hI.listed p hmem)
      split_ifs at honce <;> omega
    · rw [List.count_eq_zero_of_not_mem hmem]
      exact Nat.zero_le 1
  · by_cases hdc : d = c
    · subst hdc
      have hcounted := hI.counted d (hI.busy d p (by rw [hpc]; rfl))
      have hone := hI.fresh d p hpc
      have howed : (s.pc d).owed p = 1 := by
        rw [hpc]
        exact if_pos rfl
      omega
    · exact (hI.alone hpc hdc).1
  · exact hI.back p (hI.busy c p (by rw [hpc]; rfl)) (Or.inr ⟨c, by rw [hpc]; rfl⟩)
  · have hnone : owed s p = 0 := Finset.sum_eq_zero fun c _ => (idle_parts (hidle c) p).1
    rw [hI.counts p hp, hnone]
    exact Int.add_zero _

end

end Xv6.KallocSections
