import Xv6.StoreFault

/-!
Copy-on-write `fork` against eager copying.

The reference system gives every process a memory of its own: `fork` copies the whole memory of the
parent and a store changes the memory of the process that made it, and no other. The kernel shares
pages and copies one when a store faults on it. What a process reads is the same in both, after
any number of loads, stores, forks, changes of size, exits and reaps, whatever memory the rest of
the kernel takes and gives back in between.
-/

namespace Xv6.Eager

open Xv6.ByteMem Xv6.Riscv Xv6.Kalloc Xv6.Vm Xv6.Wp Xv6.PageTable Xv6.Walk Xv6.Unmap
open Xv6.AddrSpace Xv6.Grow Xv6.Cow Xv6.Process Xv6.Invariant Xv6.View Xv6.Ops Xv6.Fork Xv6.Exec
open Xv6.Kernel Xv6.Steps Xv6.Reach Xv6.RefCount Xv6.StoreFault

/-! ### What user programs do -/

/-- The entry of the page at `va` allows a user load. -/
def Readable (t : Kern) (i : Fin NPROC) (va : ℕ) : Prop :=
  va < MAXVA ∧ UserOk (entryAt t i va) ∧ has (entryAt t i va) PTE_R = true

/-- The entry of the page at `va` allows a user store. -/
def Writable (t : Kern) (i : Fin NPROC) (va : ℕ) : Prop :=
  va < MAXVA ∧ UserOk (entryAt t i va) ∧ has (entryAt t i va) PTE_W = true

instance (t : Kern) (i : Fin NPROC) (va : ℕ) : Decidable (Readable t i va) :=
  inferInstanceAs (Decidable (_ ∧ _))

instance (t : Kern) (i : Fin NPROC) (va : ℕ) : Decidable (Writable t i va) :=
  inferInstanceAs (Decidable (_ ∧ _))

/-- A load instruction; `none` when it faults. -/
def user_load (i : Fin NPROC) (va : ℕ) : S (Option Byte) := do
  let t ← get
  if Readable t i va then pure (some (t.k.mem (PTE2PA (entryAt t i va) + va % PGSIZE)))
  else pure none

/-- A store instruction with its page fault: a process that the fault does not kill tries again.
Whether the byte was stored. -/
def store (i : Fin NPROC) (va : ℕ) (b : Byte) : S Bool := do
  let t ← get
  if Writable t i va then do
    user_store i va b
    pure true
  else do
    usertrap_store i va
    let t ← get
    if (t.proc i).killed = 0 ∧ Writable t i va then do
      user_store i va b
      pure true
    else pure false

inductive Act
  | load (i : Fin NPROC) (va : ℕ)
  | store (i : Fin NPROC) (va : ℕ) (b : Byte)
  | fork (i : Fin NPROC)
  | growproc (i : Fin NPROC) (n : BitVec 32)
  | exit (i : Fin NPROC) (status : ℤ)
  | wait (i : Fin NPROC)
  | save_regs (i : Fin NPROC) (regs : List Byte)
  | own_alloc
  | own_free (p : ℕ)
  | own_write (p off : ℕ) (bs : List Byte)

/-- What an action came to: a byte was loaded or stored, a child got a slot, a process changed its
size, an exited process was freed. -/
inductive Event
  | nothing
  | loaded (i : Fin NPROC) (va : ℕ) (b : Byte)
  | stored (i : Fin NPROC) (va : ℕ) (b : Byte)
  | forked (i np : Fin NPROC)
  | grown (i : Fin NPROC) (n : ℤ)
  | reaped (j : Fin NPROC)

/-- An action of a process that may run. -/
def acting (i : Fin NPROC) (m : S Event) : S Event := do
  let t ← get
  if (t.proc i).state = .RUNNABLE then m else pure .nothing

variable (L : Layout)

def act : Act → S Event
  | .load i va => acting i do
      let r ← user_load i va
      match r with
      | some b => pure (.loaded i va b)
      | none => pure .nothing
  | .store i va b => acting i do
      let r ← store i va b
      if r then pure (.stored i va b) else pure .nothing
  | .fork i => acting i do
      let t ← get
      let _ ← fork L i
      let t' ← get
      match freeSlot t with
      | some np => if Live (t'.proc np) then pure (.forked i np) else pure .nothing
      | none => pure .nothing
  | .growproc i n => acting i do
      let r ← growproc i n.toInt
      if r = 0 then pure (.grown i n.toInt) else pure .nothing
  | .exit i status => acting i do
      exit i status
      pure .nothing
  | .wait i => acting i do
      let t ← get
      let _ ← wait i 0
      match zombieChild t i with
      | some j => pure (.reaped j)
      | none => pure .nothing
  | .save_regs i regs => acting i do
      save_regs i regs
      pure .nothing
  | .own_alloc => do
      own_alloc
      pure .nothing
  | .own_free p => do
      own_free p
      pure .nothing
  | .own_write p off bs => do
      own_write p off bs
      pure .nothing

def acts : List Act → S (List Event)
  | [] => pure []
  | a :: l => do
    let e ← act L a
    let es ← acts l
    pure (e :: es)

/-! ### The reference system -/

/-- A memory of its own for every live process. -/
abbrev Memories := Fin NPROC → Option UMem

/-- The reference system: `fork` copies, a store is the process's own. -/
def eagerStep (M : Memories) : Event → Memories
  | .nothing | .loaded _ _ _ => M
  | .stored i va b => Function.update M i ((M i).map fun u => u.store va b)
  | .forked i np => Function.update M np (M i)
  | .grown i n => Function.update M i ((M i).map fun u => u.resize (newSize u.sz n))
  | .reaped j => Function.update M j none

/-- A loaded byte is the one in the process's memory. -/
def Agrees (M : Memories) : Event → Prop
  | .loaded i va b => (M i).map (fun u => u.bytes va) = some b
  | _ => True

def eagerRun (M : Memories) : List Event → Memories
  | [] => M
  | e :: es => eagerRun (eagerStep M e) es

/-- The reference system makes the run: every load finds its byte. -/
def Makes (M : Memories) : List Event → Prop
  | [] => True
  | e :: es => Agrees M e ∧ Makes (eagerStep M e) es

/-- The memories of the processes in the kernel, read through their page tables. -/
def memories (t : Kern) : Memories := views (tabOf t) t

/-! ### The simulation -/

variable {L} {t t' : Kern} {T : Fin NPROC → PTab} {i j : Fin NPROC} {va : ℕ} {b : Byte}
  {E : Panic → Prop}

lemma memories_eq (h : Inv L t T) : memories t = views T t := by
  funext j
  by_cases hj : Live (t.proc j)
  · rw [memories, views_live hj, views_live hj, Inv.tabOf h hj]
  · rw [memories, views_idle hj, views_idle hj]

lemma entryAt_eq (h : Inv L t T) (hi : Live (t.proc i)) (va : ℕ) :
    entryAt t i va = (T i).leaf (va / PGSIZE) := by
  unfold entryAt
  rw [Inv.tabOf h hi]

lemma user_load_spec (h : Inv L t T) (hi : Live (t.proc i)) (va : ℕ) :
    wp (user_load i va) (fun r t' => t' = t ∧
      if Readable t i va then r.isSome ∧ (views T t i).map (fun u => u.bytes va) = r
      else r = none) E t := by
  unfold user_load
  rw [wp_bind, wp_get]
  by_cases hr : Readable t i va
  · rw [if_pos hr, wp_pure, if_pos hr]
    refine ⟨rfl, rfl, ?_⟩
    obtain ⟨-, hok, -⟩ := hr
    rw [entryAt_eq h hi] at hok ⊢
    have hlt := Space.lt_np (h.slot i hi).space hok.1 (Or.inl hok.2)
    rw [views_live hi, Option.map_some]
    simp only [view, if_pos hlt]
    rfl
  · rw [if_neg hr, wp_pure, if_neg hr]
    exact ⟨rfl, rfl⟩

lemma store_direct (h : Inv L t T) (hi : Live (t.proc i)) (hw : Writable t i va) :
    wp (user_store i va b) (fun _ t' => Inv L t' T ∧
      views T t' = eagerStep (views T t) (.stored i va b)) E t := by
  refine wp_post (user_store_spec h hi va b) ?_
  rintro _ t1 ⟨h1, hv⟩
  rw [Writable, entryAt_eq h hi] at hw
  rw [if_pos hw] at hv
  refine ⟨h1, hv.trans ?_⟩
  rw [eagerStep, views_live hi]
  rfl

lemma views_killed (h : Inv L t T) (x : ℤ) :
    views T { t with proc := Function.update t.proc i { t.proc i with killed := x } } =
      views T t := by
  refine views_frame h (fun j => ?_) fun _ _ _ _ => rfl
  by_cases hj : j = i
  · subst hj
    simp
  · simp [Function.update_of_ne hj]

lemma usertrap_store_views (h : Inv L t T) (hi : Live (t.proc i)) (stval : ℕ) :
    wp (usertrap_store i stval) (fun _ t' => ∃ T', Inv L t' T' ∧ views T' t' = views T t ∧
      Live (t'.proc i)) CowPanic t := by
  unfold usertrap_store
  rw [wp_bind, wp_get]
  dsimp only
  split_ifs with hflag
  · rw [wp_setProc]
    exact ⟨T, Inv.killed h i hi 1, views_killed h 1, by simpa [Live] using hi⟩
  · rw [wp_bind]
    refine wp_post (custom_cow_step h hi (by omega)) ?_
    rintro r t1 ⟨T1, k, rfl, h1, hv, -⟩
    rw [wp_setProc]
    exact ⟨T1, Inv.killed h1 i hi r, (views_killed h1 r).trans hv, by simpa [Live] using hi⟩

lemma store_spec (h : Inv L t T) (hi : Live (t.proc i)) (va : ℕ) (b : Byte) :
    wp (store i va b) (fun r t' => ∃ T', Inv L t' T' ∧
      views T' t' = if r then eagerStep (views T t) (.stored i va b) else views T t) CowPanic t := by
  unfold store
  rw [wp_bind, wp_get]
  split_ifs with hw
  · rw [wp_bind]
    refine wp_post (store_direct h hi hw) ?_
    rintro _ t1 ⟨h1, hv⟩
    exact ⟨T, h1, hv⟩
  · rw [wp_bind]
    refine wp_post (usertrap_store_views h hi va) ?_
    rintro _ t1 ⟨T1, h1, hv1, hi1⟩
    rw [wp_bind, wp_get]
    split_ifs with hw1
    · rw [wp_bind]
      refine wp_post (store_direct h1 hi1 hw1.2) ?_
      rintro _ t2 ⟨h2, hv2⟩
      exact ⟨T1, h2, by rw [hv2, hv1]; rfl⟩
    · exact ⟨T1, h1, hv1⟩

lemma acting_spec {m : S Event} (h : Inv L t T)
    (hm : (t.proc i).state = .RUNNABLE → Live (t.proc i) → wp m (fun e t' => ∃ T', Inv L t' T' ∧
      views T' t' = eagerStep (views T t) e ∧ Agrees (views T t) e) Reachable t) :
    wp (acting i m) (fun e t' => ∃ T', Inv L t' T' ∧ views T' t' = eagerStep (views T t) e ∧
      Agrees (views T t) e) Reachable t := by
  unfold acting
  rw [wp_bind, wp_get]
  split_ifs with hs
  · exact hm hs (Inv.live h (by rw [hs]; simp))
  · exact ⟨T, h, rfl, trivial⟩

/-- **One action**: the reference system makes the same step. -/
lemma act_spec (h : Inv L t T) (a : Act) :
    wp (act L a) (fun e t' => ∃ T', Inv L t' T' ∧ views T' t' = eagerStep (views T t) e ∧
      Agrees (views T t) e) Reachable t := by
  -- the single owners touch no memory of a process
  have hown : ∀ {t1 : Kern}, Apart L T t t1 → ∃ T', Inv L t1 T' ∧
      views T' t1 = eagerStep (views T t) .nothing ∧ Agrees (views T t) .nothing :=
    fun h1 => ⟨T, h1.inv, h1.views, trivial⟩
  cases a with
  | load i va =>
    refine acting_spec h fun _ hi => ?_
    rw [wp_bind]
    refine wp_post (user_load_spec h hi va) ?_
    rintro (_ | b) t1 ⟨rfl, hr⟩
    · exact ⟨T, h, rfl, trivial⟩
    · split_ifs at hr
      exact ⟨T, h, rfl, hr.2⟩
  | store i va b =>
    refine acting_spec h fun _ hi => ?_
    rw [wp_bind]
    refine wp_mono (store_spec h hi va b) ?_ fun e he => Or.inl he
    rintro (_ | _) t1 ⟨T1, h1, hv⟩
    · exact ⟨T1, h1, hv, trivial⟩
    · exact ⟨T1, h1, hv, trivial⟩
  | fork i =>
    refine acting_spec h fun _ hi => ?_
    rw [wp_bind, wp_get, wp_bind]
    refine wp_post (fork_spec h hi) ?_
    rintro r t1 ⟨T1, h1, ⟨-, hno, hv, -⟩ | ⟨np, -, hf, -, hl, hv, -⟩⟩
    · rw [wp_bind, wp_get]
      rcases hf : freeSlot t with _ | np
      · exact ⟨T1, h1, hv, trivial⟩
      · have hdead : ¬ Live (t1.proc np) := by
          rw [hno.proc]
          exact Inv.unused h (by simpa using List.find?_some hf)
        dsimp only
        rw [if_neg hdead]
        exact ⟨T1, h1, hv, trivial⟩
    · rw [wp_bind, wp_get, hf]
      dsimp only
      rw [if_pos hl]
      exact ⟨T1, h1, hv, trivial⟩
  | growproc i n =>
    refine acting_spec h fun _ hi => ?_
    have hlo : -2 ^ 31 ≤ n.toInt := by have := BitVec.le_toInt n; simpa using this
    have hhi : n.toInt < 2 ^ 31 := by have := BitVec.toInt_lt (x := n); simpa using this
    rw [wp_bind]
    refine wp_post (growproc_spec h hi hlo hhi) ?_
    rintro r t1 ⟨A1, h1, ⟨rfl, hv⟩ | ⟨rfl, hv⟩, -⟩
    · rw [if_pos rfl]
      refine ⟨_, h1, hv.trans ?_, trivial⟩
      rw [eagerStep, views_live hi]
      rfl
    · rw [if_neg (by norm_num)]
      exact ⟨_, h1, hv, trivial⟩
  | exit i status =>
    refine acting_spec h fun _ hi => ?_
    rw [wp_bind]
    refine wp_mono (exit_spec h hi status) ?_ fun e he => Or.inr he
    rintro _ t1 ⟨h1, hv⟩
    exact ⟨T, h1, hv, trivial⟩
  | wait i =>
    refine acting_spec h fun _ hi => ?_
    rw [wp_bind, wp_get, wp_bind]
    refine wp_post (wait_zero_spec h) ?_
    rintro _ t1 ⟨h1, hv⟩
    rcases hz : zombieChild t i with _ | j
    · rw [hz] at hv
      exact ⟨T, h1, hv, trivial⟩
    · rw [hz] at hv
      exact ⟨T, h1, hv, trivial⟩
  | save_regs i regs =>
    refine acting_spec h fun _ hi => ?_
    rw [wp_bind]
    exact wp_post (save_regs_spec h hi regs) fun _ t1 h1 => hown h1
  | own_alloc =>
    unfold act
    rw [wp_bind]
    exact wp_post (own_alloc_spec h) fun _ t1 h1 => hown h1.1
  | own_free p =>
    unfold act
    rw [wp_bind]
    exact wp_post (own_free_spec h p) fun _ t1 h1 => hown h1
  | own_write p off bs =>
    unfold act
    rw [wp_bind]
    exact wp_post (own_write_spec h p off bs) fun _ t1 h1 => hown h1

/-- **A run**: the reference system makes it. -/
lemma acts_spec (l : List Act) : ∀ {t : Kern} {T : Fin NPROC → PTab}, Inv L t T →
    wp (acts L l) (fun es t' => ∃ T', Inv L t' T' ∧ views T' t' = eagerRun (views T t) es ∧
      Makes (views T t) es) Reachable t := by
  induction l with
  | nil => intro t T h; exact ⟨T, h, rfl, trivial⟩
  | cons a l ih =>
    intro t T h
    unfold acts
    rw [wp_bind]
    refine wp_post (act_spec h a) ?_
    rintro e t1 ⟨T1, h1, hv1, ha⟩
    rw [wp_bind]
    refine wp_post (ih h1) ?_
    rintro es t2 ⟨T2, h2, hv2, hm⟩
    rw [hv1] at hv2 hm
    exact ⟨T2, h2, hv2, ha, hm⟩

/-! ### Stores that go through -/

/-- The user may store at `va`: the page is writable, or it is copy-on-write, a page is free and
the fault handler does not take the address for one in the guard page. -/
def MayStore (t : Kern) (i : Fin NPROC) (va : ℕ) : Prop :=
  va < MAXVA ∧ UserOk (entryAt t i va) ∧ (has (entryAt t i va) PTE_W = true ∨
    has (entryAt t i va) PTE_COW = true ∧ t.k.freelist ≠ [] ∧ ¬ Flagged t i va)

lemma cowEntry_writable {L : Layout} {p : ℕ} {e : Word} (hp : InRange L p) (he : UserOk e) :
    UserOk (cowEntry p e) ∧ has (cowEntry p e) PTE_W = true := by
  obtain ⟨hV, hU⟩ := he
  rw [has_V] at hV
  rw [has_U] at hU
  refine ⟨⟨?_, ?_⟩, ?_⟩
  · rw [has_V, cowEntry_bit hp e (by omega), hV]; rfl
  · rw [has_U, cowEntry_bit hp e (by omega), hU]; rfl
  · rw [has_W, cowEntry_bit hp e (by omega)]; simp

lemma usertrap_store_resolves (h : Inv L t T) (hi : Live (t.proc i)) (hva : va < MAXVA)
    (hok : UserOk (entryAt t i va)) (hcow : has (entryAt t i va) PTE_COW = true)
    (hfree : t.k.freelist ≠ []) (hflag : ¬ Flagged t i va) :
    wp (usertrap_store i va) (fun _ t' => ∃ T', Inv L t' T' ∧ views T' t' = views T t ∧
      Live (t'.proc i) ∧ (t'.proc i).killed = 0 ∧ Writable t' i va) E t := by
  unfold Flagged at hflag
  dsimp only at hflag
  rw [entryAt_eq h hi] at hok hcow
  unfold usertrap_store
  rw [wp_bind, wp_get]
  dsimp only
  rw [if_neg hflag, wp_bind, wp_vm]
  refine wp_post (custom_cow_copies (h.as hi) hva hok.1 hcow hfree) ?_
  rintro r k ⟨rfl, p, hr⟩
  obtain ⟨h1, hv1⟩ := Inv.resolved h hi hr
  rw [wp_setProc]
  have h2 := Inv.killed h1 i hi 0
  have hi2 : Live (Function.update t.proc i { t.proc i with killed := 0 } i) := by
    rw [Function.update_self]; exact hi
  refine ⟨_, h2, (views_killed h1 0).trans hv1, hi2, by simp, hva, ?_⟩
  rw [entryAt_eq h2 hi2, Function.update_self]
  simp only [setLeaf, Function.update_self]
  exact cowEntry_writable hr.range hok

lemma store_goes_through (h : Inv L t T) (hi : Live (t.proc i)) (hs : MayStore t i va) :
    wp (store i va b) (fun r t' => r = true ∧ memories t' = eagerStep (memories t) (.stored i va b))
      E t := by
  rw [memories_eq h]
  unfold store
  rw [wp_bind, wp_get]
  split_ifs with hw
  · rw [wp_bind]
    refine wp_post (store_direct h hi hw) ?_
    rintro _ t1 ⟨h1, hv⟩
    exact ⟨rfl, (memories_eq h1).trans hv⟩
  · obtain ⟨hva, hok, hW | ⟨hcow, hfree, hflag⟩⟩ := hs
    · exact absurd ⟨hva, hok, hW⟩ hw
    · rw [wp_bind]
      refine wp_post (usertrap_store_resolves h hi hva hok hcow hfree hflag) ?_
      rintro _ t1 ⟨T1, h1, hv1, hi1, hk1, hw1⟩
      rw [wp_bind, wp_get, if_pos ⟨hk1, hw1⟩, wp_bind]
      refine wp_post (store_direct h1 hi1 hw1) ?_
      rintro _ t2 ⟨h2, hv2⟩
      exact ⟨rfl, (memories_eq h2).trans (by rw [hv2, hv1])⟩

/-- **Copy-on-write `fork` refines eager copying.** From every reachable state of the kernel, for
every sequence of actions: the reference system, started with a private copy of the memory of each
process, makes the same run, every load finding its byte; in the end each process reads at each
address what it has in the reference system; and a store that the process may make is carried
out in its own memory. -/
theorem fork_refines_eager_copy (L : Layout) (m : Mem) (ops : List Op) (l : List Act) :
    wp (do
      system L ops
      let t ← get
      let es ← acts L l
      pure (t, es)) (fun r t =>
        Makes (memories r.1) r.2 ∧ memories t = eagerRun (memories r.1) r.2 ∧
        (∀ i, (t.proc i).state = .RUNNABLE → ∀ va < (t.proc i).sz,
          has (entryAt t i va) PTE_U = true →
          wp (user_load i va) (fun b t' => t' = t ∧ b.isSome ∧
            (eagerRun (memories r.1) r.2 i).map (fun u => u.bytes va) = b) (fun _ => False) t) ∧
        (∀ i, (t.proc i).state = .RUNNABLE → ∀ va b, MayStore t i va →
          wp (store i va b) (fun ok t' => ok = true ∧
            memories t' = eagerStep (memories t) (.stored i va b)) (fun _ => False) t))
      Reachable (powerOn m) := by
  rw [wp_bind]
  refine wp_post (system_spec L m ops) ?_
  rintro _ t0 ⟨T0, h0⟩
  rw [wp_bind, wp_get, wp_bind]
  refine wp_post (acts_spec l h0) ?_
  rintro es t ⟨T, h, hv, hm⟩
  rw [wp_pure, memories_eq h0, memories_eq h, hv]
  refine ⟨hm, rfl, fun i hr va hva hU => ?_, fun i hr va b hs => ?_⟩
  · have hi := Inv.live h (i := i) (by rw [hr]; simp)
    have hs := h.slot i hi
    have hlt : va / PGSIZE < pgs (t.proc i).sz := by
      have hle := hs.le
      rw [pgs_eq (by unfold PGSIZE; omega)]
      unfold PGSIZE
      omega
    have hread : Readable t i va := by
      have he := hs.space.user _ hlt
      refine ⟨?_, ?_⟩
      · have := hs.le
        unfold MAXVA
        omega
      · rw [entryAt_eq h hi] at hU ⊢
        exact ⟨⟨he.valid, hU⟩, he.readable⟩
    refine wp_post (user_load_spec h hi va) ?_
    rintro r t1 ⟨ht, hb⟩
    rw [if_pos hread, hv] at hb
    exact ⟨ht, hb⟩
  · have hi := Inv.live h (i := i) (by rw [hr]; simp)
    rw [← hv, ← memories_eq h]
    exact store_goes_through h hi hs

end Xv6.Eager
