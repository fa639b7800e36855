import Xv6.Copyin
import Xv6.RefCount

/-!
`sys_exec`: the path and the argument strings are copied out of user memory, each string into a
kernel page of its own, `exec` is called, and the argument pages are freed on every way out.
`namei` is a parameter: what it finds for a path, with whatever contents.
-/

namespace Xv6.SysExec

open Xv6.ByteMem Xv6.Riscv Xv6.Kalloc Xv6.Vm Xv6.Wp Xv6.PageTable Xv6.Walk Xv6.Unmap
open Xv6.AddrSpace Xv6.Grow Xv6.Cow Xv6.Process Xv6.Invariant Xv6.Ops Xv6.Fork Xv6.Exec
open Xv6.Kernel Xv6.Copyout Xv6.Steps Xv6.Reach Xv6.RefCount
open Xv6.Copyin (copyin copyinstr copyinLoop copyinstrLoop scan)

/-! ### Reading user memory -/

/-- A C string without its NUL. -/
def cstr (bs : List Byte) : List Byte := bs.takeWhile (· ≠ 0)

def fetchaddr (i : Fin NPROC) (addr : ℕ) : S (Option ℕ) := do
  let t ← get
  if (t.proc i).sz ≤ addr ∨ (t.proc i).sz < u64 (addr + 8) then pure none
  else do
    let r ← vm (copyin (t.proc i).pagetable addr 8)
    pure (if r.1 ≠ 0 then none else some (field r.2 0 8))

/-- The length of the string or `-1`, with the bytes left in the buffer. -/
def fetchstr (i : Fin NPROC) (addr max : ℕ) : S (ℤ × List Byte) := do
  let t ← get
  let r ← vm (copyinstr (t.proc i).pagetable addr max)
  pure (if r.1 < 0 then -1 else (cstr r.2).length, r.2)

/-- Argument registers `a0` and `a1` as `argraw` reads them. -/
def argraw (i : Fin NPROC) (reg : ℕ) : S ℕ := do
  let t ← get
  pure (ld64 t.k.mem ((t.proc i).trapframe + reg)).toNat

/-! ### The system call -/

/-- A kernel page for an argument string. -/
def argAlloc : S ℕ := do
  let p ← vm kalloc
  if p = 0 then pure 0
  else do
    modify fun t => { t with own := p :: t.own }
    pure p

def argFree (p : ℕ) : S Unit := do
  vm (kfree p)
  modify fun t => { t with own := t.own.erase p }

/-- The loop that fills `argv` from entry `n` on: `false` for `goto bad`, with the pages taken. -/
def argvLoop (i : Fin NPROC) (uargv : ℕ) : ℕ → ℕ → List ℕ → S (Bool × List ℕ)
  | 0, _, argv => pure (false, argv)
  | k + 1, n, argv => do
    let r ← fetchaddr i (u64 (uargv + 8 * n))
    match r with
    | none => pure (false, argv)
    | some uarg =>
      if uarg = 0 then pure (true, argv)
      else do
        let p ← argAlloc
        if p = 0 then pure (false, argv)
        else do
          let r ← fetchstr i uarg PGSIZE
          vm (modify fun s => { s with mem := put s.mem p r.2 })
          if r.1 < 0 then pure (false, argv ++ [p])
          else argvLoop i uargv k (n + 1) (argv ++ [p])

def freeArgv : List ℕ → S Unit
  | [] => pure ()
  | p :: ps => do
    argFree p
    freeArgv ps

/-- The kernel with the process names, which only `exec` sets here. -/
structure Named where
  kern : Kern
  name : Fin NPROC → List Byte

abbrev N := StateT Named (Except Panic)

def onKern {α : Type} (m : S α) : N α := zoom Named.kern (fun t k => { t with kern := k }) m

@[simp] lemma wp_onKern {α : Type} {m : S α} {Q : α → Named → Prop} {E : Panic → Prop}
    {t : Named} :
    wp (onKern m) Q E t ↔ wp m (fun a k => Q a { t with kern := k }) E t.kern := wp_zoom _ _ m

/-- At most `n - 1` bytes of `t` and NULs over the start of `s`. -/
def safestrcpy (s t : List Byte) (n : ℕ) : List Byte :=
  let copied := (cstr t ++ [0]).take (n - 1)
  copied ++ [0] ++ s.drop (copied.length + 1)

def MAXPATH : ℕ := 128
def NAMESIZE : ℕ := 16

/-- What stands after the last slash. -/
def lastComponent (path : List Byte) : List Byte := (path.reverse.takeWhile (· ≠ 0x2f)).reverse

variable (L : Layout) (namei : List Byte → Option Inode)

/-- `exec` with the name it gives the process. -/
def execNamed (i : Fin NPROC) (path : List Byte) (argv : List (List Byte)) : N ℤ := do
  let r ← onKern (exec L i (namei path) argv)
  if r < 0 then pure r
  else do
    modify fun t => { t with
      name := Function.update t.name i (safestrcpy (t.name i) (lastComponent path) NAMESIZE) }
    pure r

def sys_exec (i : Fin NPROC) : N ℤ := do
  let uargv ← onKern (argraw i TF_A1)
  let upath ← onKern (argraw i TF_A0)
  let path ← onKern (fetchstr i upath MAXPATH)
  if path.1 < 0 then pure (-1)
  else do
    let argv ← onKern (argvLoop i uargv MAXARG 0 [])
    if argv.1 then do
      let t ← get
      let ret ← execNamed L namei i (cstr path.2)
        (argv.2.map fun p => cstr (bytes t.kern.k.mem p PGSIZE))
      onKern (freeArgv argv.2)
      pure ret
    else do
      onKern (freeArgv argv.2)
      pure (-1)

variable {L namei} {t t0 : Kern} {T : Fin NPROC → PTab} {i : Fin NPROC} {E : Panic → Prop}
  {A : PTab} {s : KState} {root : ℕ} {ps : List ℕ}

/-! ### What the readers change: nothing -/

lemma chunk_pos (srcva : ℕ) {len : ℕ} (h : ¬len = 0) :
    0 < min (PGSIZE - (srcva - PGROUNDDOWN srcva)) len := by
  have h1 := rounddown_mod srcva
  have h2 : srcva % PGSIZE < PGSIZE := Nat.mod_lt _ (by unfold PGSIZE; omega)
  omega

lemma copyinLoop_keeps (hw : Wf L root A) (hr : Rep s.mem A) (k : ℕ) :
    ∀ srcva len, len < k → wp (copyinLoop root k srcva len) (fun _ s' => s' = s) E s := by
  induction k with
  | zero => intro srcva len hk; omega
  | succ k ih =>
      intro srcva len hk
      unfold copyinLoop
      split_ifs with hlen
      · rfl
      · rw [wp_bind, wp_of_run (walkaddr_read hw hr _)]
        split_ifs with hpa
        · rfl
        · have hn := chunk_pos srcva hlen
          dsimp only
          rw [wp_bind, wp_get, wp_bind]
          refine wp_post (ih _ _ (by omega)) ?_
          rintro r _ rfl
          rfl

lemma length_scan (m : Mem) (n : ℕ) : ∀ p, (scan m n p).2.length ≤ n := by
  induction n with
  | zero => exact fun _ => le_rfl
  | succ n ih =>
      intro p
      unfold scan
      split_ifs
      · exact Nat.succ_le_succ (Nat.zero_le n)
      · exact Nat.succ_le_succ (ih (p + 1))

lemma copyinstrLoop_keeps (hw : Wf L root A) (hr : Rep s.mem A) (k : ℕ) :
    ∀ srcva max, max < k → wp (copyinstrLoop root k srcva max)
      (fun r s' => s' = s ∧ r.2.length ≤ max) E s := by
  induction k with
  | zero => intro srcva max hk; omega
  | succ k ih =>
      intro srcva max hk
      unfold copyinstrLoop
      split_ifs with hmax
      · exact ⟨rfl, Nat.zero_le _⟩
      · rw [wp_bind, wp_of_run (walkaddr_read hw hr _)]
        split_ifs with hpa
        · exact ⟨rfl, Nat.zero_le _⟩
        · have hn := chunk_pos srcva hmax
          have hle := length_scan s.mem (min (PGSIZE - (srcva - PGROUNDDOWN srcva)) max)
            (userPa A.leaf (PGROUNDDOWN srcva) + (srcva - PGROUNDDOWN srcva))
          dsimp only
          rw [wp_bind, wp_get]
          split_ifs with hnul
          · exact ⟨rfl, hle.trans (min_le_right _ _)⟩
          · rw [wp_bind]
            refine wp_post (ih _ _ (by omega)) ?_
            rintro r s' ⟨rfl, hl⟩
            refine ⟨rfl, ?_⟩
            dsimp only
            rw [List.length_append]
            omega

lemma fetchaddr_spec (h : Inv L t T) (hi : Live (t.proc i)) (addr : ℕ) :
    wp (fetchaddr i addr) (fun _ t' => t' = t) E t := by
  have hs := h.slot i hi
  unfold fetchaddr
  rw [wp_bind, wp_get]
  split_ifs
  · rfl
  · rw [wp_bind, wp_vm]
    refine wp_post (copyinLoop_keeps hs.wf hs.rep _ _ _ (Nat.lt_succ_self _)) ?_
    rintro r _ rfl
    rfl

lemma fetchstr_spec (h : Inv L t T) (hi : Live (t.proc i)) (addr max : ℕ) :
    wp (fetchstr i addr max) (fun r t' => t' = t ∧ r.2.length ≤ max) E t := by
  have hs := h.slot i hi
  unfold fetchstr
  rw [wp_bind, wp_get, wp_bind, wp_vm]
  refine wp_post (copyinstrLoop_keeps hs.wf hs.rep _ _ _ (Nat.lt_succ_self _)) ?_
  rintro r _ ⟨rfl, hl⟩
  exact ⟨rfl, hl⟩

/-! ### The argument pages -/

/-- The pages `ps` have been taken since `t0`; nothing that was in use then has changed. -/
structure Taken (L : Layout) (T : Fin NPROC → PTab) (t0 : Kern) (ps : List ℕ) (t : Kern) :
    Prop where
  inv : Inv L t T
  proc : t.proc = t0.proc
  own : ∀ q, t.own.count q = ps.count q + t0.own.count q
  keeps : Keeps (total T t0) t0.k t.k

lemma Taken.refl (h : Inv L t T) : Taken L T t [] t := ⟨h, rfl, fun q => by simp, Keeps.refl⟩

lemma Taken.total (h : Taken L T t0 ps t) (q : ℕ) :
    total T t q = ps.count q + total T t0 q := by
  unfold Invariant.total
  rw [h.proc, h.own q]
  omega

lemma Taken.mem_own {p : ℕ} (h : Taken L T t0 ps t) (hp : p ∈ ps) : p ∈ t.own := by
  have h1 := List.count_pos_iff.mpr hp
  refine List.count_pos_iff.mp ?_
  rw [h.own p]
  omega

lemma Taken.fresh {p : ℕ} (h : Taken L T t0 ps t) (hp : p ∈ ps) : Invariant.total T t0 p = 0 := by
  have h1 := h.inv.own_one p (h.mem_own hp)
  have h2 := List.count_pos_iff.mpr hp
  rw [h.total p] at h1
  omega

lemma Taken.alloc (h : Taken L T t0 ps t) :
    wp argAlloc (fun p t' => (p = 0 ∧ t' = t) ∨ (p ≠ 0 ∧ Taken L T t0 (ps ++ [p]) t')) E t := by
  unfold argAlloc
  rw [wp_bind, wp_vm]
  refine wp_post (kalloc_spec h.inv.acct) ?_
  rintro p k (⟨rfl, rfl, -⟩ | ⟨hp, hU, hacct, hk, -⟩)
  · rw [if_pos rfl]
    exact Or.inl ⟨rfl, rfl⟩
  · have happ := Apart.take h.inv hU hacct hk
    rw [if_neg hp.pos.ne', wp_bind, wp_modify, wp_pure]
    refine Or.inr ⟨hp.pos.ne', happ.inv, happ.proc.trans h.proc, fun q => ?_, ?_⟩
    · rw [List.count_cons, List.count_append, List.count_singleton, h.own q]
      omega
    · refine h.keeps.trans hk fun q hq => ?_
      rw [h.total q]
      omega

lemma Taken.write {p : ℕ} {bs : List Byte} (h : Taken L T t0 ps t) (hp : p ∈ ps)
    (hbs : bs.length ≤ PGSIZE) :
    Taken L T t0 ps { t with k := { t.k with mem := put t.k.mem p bs } } := by
  have hown := h.mem_own hp
  have hal : p % PGSIZE = 0 := (h.inv.acct.range p (by rw [h.inv.own_one p hown]; omega)).1
  have happ : Apart L T t { t with k := { t.k with mem := put t.k.mem (p + 0) bs } } :=
    Apart.write h.inv (quiet_own h.inv hown) hal (by omega)
  refine ⟨happ.inv, h.proc, h.own, fun x hx => ?_⟩
  have hne : PGROUNDDOWN x ≠ p := by
    rintro rfl
    exact hx (h.fresh hp)
  have hput : put t.k.mem (p + 0) bs x = t.k.mem x := put_other hal (by omega) hne
  exact hput.trans (h.keeps x hx)

lemma argvLoop_spec (hi : Live (t0.proc i)) (uargv k : ℕ) : ∀ n ps t, Taken L T t0 ps t →
    wp (argvLoop i uargv k n ps) (fun r t' => Taken L T t0 r.2 t') E t := by
  induction k with
  | zero => intro n ps t h; exact h
  | succ k ih =>
      intro n ps t h
      have hi' : Live (t.proc i) := by rw [h.proc]; exact hi
      unfold argvLoop
      rw [wp_bind]
      refine wp_post (fetchaddr_spec h.inv hi' _) ?_
      rintro (_ | uarg) _ rfl
      · exact h
      dsimp only
      split_ifs with hnull
      · exact h
      rw [wp_bind]
      refine wp_post h.alloc ?_
      rintro p t1 (⟨rfl, rfl⟩ | ⟨hp, h1⟩)
      · rw [if_pos rfl]; exact h
      have hi1 : Live (t1.proc i) := by rw [h1.proc]; exact hi
      rw [if_neg hp, wp_bind]
      refine wp_post (fetchstr_spec h1.inv hi1 _ _) ?_
      rintro r _ ⟨rfl, hl⟩
      rw [wp_bind, wp_vm, wp_modify]
      have h2 := h1.write (p := p) (by simp) hl
      split_ifs
      · exact h2
      · exact ih _ _ _ h2

/-- Giving pages back: `t'` holds what `t` holds without `ps`. -/
structure Given (L : Layout) (T : Fin NPROC → PTab) (ps : List ℕ) (t t' : Kern) : Prop where
  inv : Inv L t' T
  proc : t'.proc = t.proc
  own : ∀ q, t.own.count q = ps.count q + t'.own.count q
  keeps : Keeps (total T t') t.k t'.k

lemma argFree_spec {p : ℕ} (h : Inv L t T) (hp : p ∈ t.own) :
    wp (argFree p) (fun _ t' => Given L T [p] t t') E t := by
  have hacct := h.acct
  rw [total_own_erase T t.k hp] at hacct
  unfold argFree
  rw [wp_bind, wp_vm]
  refine wp_post (kfree_spec hacct) ?_
  rintro _ k ⟨hacct, hk, -⟩
  have happ := Apart.drop h hp hacct hk
  refine ⟨happ.inv, happ.proc, fun q => ?_, hk⟩
  have h1 := List.count_pos_iff.mpr hp
  change _ = _ + (t.own.erase p).count q
  rw [List.count_erase, List.count_singleton]
  by_cases hq : p = q
  · subst hq; simp; omega
  · simp [hq]

lemma freeArgv_spec (ps : List ℕ) : ∀ t, Inv L t T → (∀ q, ps.count q ≤ t.own.count q) →
    wp (freeArgv ps) (fun _ t' => Given L T ps t t') E t := by
  induction ps with
  | nil => intro t h _; exact ⟨h, rfl, fun q => by simp, Keeps.refl⟩
  | cons p ps ih =>
      intro t h hle
      have hp : p ∈ t.own := by
        have := hle p
        rw [List.count_cons_self] at this
        exact List.count_pos_iff.mp (by omega)
      unfold freeArgv
      rw [wp_bind]
      refine wp_post (argFree_spec h hp) ?_
      rintro _ t1 h1
      refine wp_post (ih t1 h1.inv fun q => ?_) ?_
      · have h2 := h1.own q
        have h3 := hle q
        rw [List.count_cons] at h3
        rw [List.count_singleton] at h2
        omega
      · rintro _ t2 h2
        refine ⟨h2.inv, h2.proc.trans h1.proc, fun q => ?_, ?_⟩
        · rw [h1.own q, h2.own q, List.count_singleton, List.count_cons]
          omega
        · refine fun x hx => (h2.keeps x hx).trans (h1.keeps x ?_)
          have h3 := h2.own (PGROUNDDOWN x)
          unfold total at hx ⊢
          rw [h2.proc] at hx
          omega

lemma freeArgv_back (t0 : Kern) (h : Inv L t T) (hown : ∀ q, t.own.count q = ps.count q + t0.own.count q) :
    wp (freeArgv ps) (fun _ t' => Given L T ps t t') E t :=
  freeArgv_spec ps t h fun q => by have := hown q; omega

/-! ### The two outcomes -/

/-- `p` is a page-table page of process `i` or mapped by it below the trapframe. -/
def InSpace (t : Kern) (i : Fin NPROC) (p : ℕ) : Prop :=
  IsTab (tabOf t i) p ∨ ∃ v < TFV, Maps ((tabOf t i).leaf v) p

/-- Every process has the page table, size and trapframe it had, every page in use has its bytes,
and every page its count; the same pages are free. -/
structure Untouched (L : Layout) (t t' : Kern) : Prop where
  proc : t'.proc = t.proc
  mem : ∀ x, InRange L (PGROUNDDOWN x) → t.k.temp (PGROUNDDOWN x / PGSIZE) ≠ 0 →
    t'.k.mem x = t.k.mem x
  temp : ∀ p, InRange L p → t'.k.temp (p / PGSIZE) = t.k.temp (p / PGSIZE)
  free : t'.k.freelist.Perm t.k.freelist

/-- Every page of the old address space of process `i` has lost one reference, and no other page
in use has gained or lost any. -/
structure Dropped (L : Layout) (i : Fin NPROC) (t t' : Kern) : Prop where
  old : ∀ p, InSpace t i p → t'.k.temp (p / PGSIZE) = t.k.temp (p / PGSIZE) - 1
  other : ∀ p, InRange L p → t.k.temp (p / PGSIZE) ≠ 0 → ¬ InSpace t i p →
    t'.k.temp (p / PGSIZE) = t.k.temp (p / PGSIZE)

lemma inSpace_iff (h : Inv L t T) (hi : Live (t.proc i)) (p : ℕ) :
    InSpace t i p ↔ tabs (T i) p + leaves (T i).leaf p ≠ 0 := by
  unfold InSpace
  rw [Inv.tabOf h hi, ← isTab_iff, ← leaves_ne_zero]
  omega

/-- A page is in an address space once. -/
lemma inSpace_once (h : Inv L t T) (hi : Live (t.proc i)) {p : ℕ} (hp : InSpace t i p) :
    tabs (T i) p + leaves (T i).leaf p = 1 := by
  have htot := total_eq T t i p
  rw [held_live hi] at htot
  simp only [Pi.add_apply] at htot
  by_cases htab : IsTab (T i) p
  · have h1 := (h.single i hi).tab p htab
    have h2 := isTab_iff.mpr htab
    omega
  · have h0 : tabs (T i) p = 0 := by
      by_contra hc
      exact htab (isTab_iff.mp hc)
    have hne := (inSpace_iff h hi p).mp hp
    obtain ⟨v, hv, hm⟩ := leaves_ne_zero.mp (show leaves (T i).leaf p ≠ 0 by omega)
    have hs := (h.slot i hi).space
    have hlt : v < pgs (t.proc i).sz := by
      rcases (hs.valid_iff v).mp hm.1 with h1 | rfl | rfl
      · exact h1
      · exact absurd hv (lt_irrefl _)
      · have h1 := tfv_eq
        have h2 := trv_eq
        omega
    have h1 := Space.leaves_user hs hlt
    rw [hm.2] at h1
    omega

lemma untouched_of {t' : Kern} (h : Inv L t T) (h' : Inv L t' T) (hproc : t'.proc = t.proc)
    (hown : ∀ q, t'.own.count q = t.own.count q) (hk : Keeps (total T t) t.k t'.k) :
    Untouched L t t' := by
  have htot : total T t' = total T t := by
    funext q
    unfold total
    rw [hproc, hown q]
  refine ⟨hproc, fun x hr hx => hk x ?_, fun p hp => ?_, ?_⟩
  · intro h0
    rw [h.acct.count _ hr, h0] at hx
    exact hx rfl
  · rw [h'.acct.count p hp, h.acct.count p hp, htot]
  · refine (List.perm_ext_iff_of_nodup h'.acct.nodup h.acct.nodup).mpr fun p => ?_
    rw [h'.acct.mem_free, h.acct.mem_free, htot]

lemma failed {t1 t2 : Kern} (h0 : Inv L t0 T) (h1 : Taken L T t0 ps t1)
    (h2 : Given L T ps t1 t2) : Untouched L t0 t2 := by
  have hown : ∀ q, t2.own.count q = t0.own.count q := fun q => by
    have h3 := h1.own q
    have h4 := h2.own q
    omega
  have hproc := h2.proc.trans h1.proc
  refine untouched_of h0 h2.inv hproc hown fun x hx => (h2.keeps x ?_).trans (h1.keeps x hx)
  unfold total at hx ⊢
  rw [hproc, hown]
  exact hx

lemma replaced {t1 t2 t3 : Kern} {argv : List (List Byte)} {im : Exec.Image} (h0 : Inv L t0 T)
    (hi : Live (t0.proc i)) (h1 : Taken L T t0 ps t1) (h2 : Execed L T i argv im A t1 t2)
    (h3 : Given L (Function.update T i A) ps t2 t3) : Dropped L i t0 t3 := by
  have hown : ∀ q, t3.own.count q = t0.own.count q := fun q => by
    have h4 := h1.own q
    have h5 := h3.own q
    rw [h2.own] at h5
    omega
  have hlive : Live (t3.proc i) := by
    refine Inv.live h3.inv ?_
    rw [h3.proc, h2.proc, Function.update_self, h1.proc]
    exact (h0.slot i hi).used
  have htf : (t3.proc i).trapframe = (t0.proc i).trapframe := by
    rw [h3.proc, h2.proc, Function.update_self, h1.proc]
  have hrest : ∀ q, rest (Function.update T i A) t3 i q = rest T t0 i q := fun q => by
    unfold rest
    rw [hown q]
    refine congrArg (· + t0.own.count q) (Finset.sum_congr rfl fun j hj => ?_)
    have hne := (Finset.mem_erase.mp hj).1
    rw [h3.proc, h2.proc, Function.update_of_ne hne, Function.update_of_ne hne, h1.proc]
  -- what is counted for a page in use before the call, before and after it
  have hcount : ∀ p, total T t0 p ≠ 0 →
      total T t0 p = tabs (T i) p + leaves (T i).leaf p + total (Function.update T i A) t3 p := by
    intro p hp
    have h4 := total_eq T t0 i p
    have h5 := total_eq (Function.update T i A) t3 i p
    have h6 := h2.fresh p (by rw [h1.total p]; omega)
    rw [held_live hi] at h4
    rw [held_live hlive, htf, hrest p, Function.update_self] at h5
    simp only [Pi.add_apply] at h4 h5
    omega
  constructor
  · intro p hp
    have hone := inSpace_once h0 hi hp
    have hne : total T t0 p ≠ 0 := by
      rw [total_eq T t0 i p, held_live hi]
      simp only [Pi.add_apply]
      omega
    have hr := h0.acct.range p hne
    have hc := hcount p hne
    rw [h3.inv.acct.count p hr, h0.acct.count p hr, hc, hone]
    push_cast
    ring
  · intro p hr hne hp
    rw [h0.acct.count p hr] at hne
    have hz : tabs (T i) p + leaves (T i).leaf p = 0 := by
      by_contra hc
      exact hp ((inSpace_iff h0 hi p).mpr hc)
    have hc := hcount p (by simpa using hne)
    rw [h3.inv.acct.count p hr, h0.acct.count p hr, hc, hz, Nat.zero_add]

/-- **`sys_exec`** from a good state: no panic, and one of the two outcomes. -/
lemma sys_exec_spec (h : Inv L t T) (hi : Live (t.proc i)) (name : Fin NPROC → List Byte) :
    wp (sys_exec L namei i) (fun r t' =>
      (r = -1 ∧ Untouched L t t'.kern ∧ t'.name = name) ∨ (0 ≤ r ∧ Dropped L i t t'.kern))
      E ⟨t, name⟩ := by
  have hsame : Untouched L t t := untouched_of h h rfl (fun _ => rfl) Keeps.refl
  unfold sys_exec argraw
  simp only [wp_bind, wp_onKern, wp_get, wp_pure]
  refine wp_post (fetchstr_spec h hi _ _) ?_
  rintro path t ⟨rfl, -⟩
  rw [wp_ite]
  split_ifs with hpath
  · exact Or.inl ⟨rfl, hsame, rfl⟩
  rw [wp_bind, wp_onKern]
  refine wp_post (argvLoop_spec hi _ _ _ _ _ (Taken.refl h)) ?_
  rintro ⟨ok, ps⟩ t1 h1
  have hi1 : Live (t1.proc i) := by rw [h1.proc]; exact hi
  dsimp only at h1 ⊢
  rw [wp_ite]
  split_ifs with hok
  · unfold execNamed
    rw [wp_bind, wp_get, wp_bind, wp_bind, wp_onKern]
    refine wp_post (exec_outcome h1.inv hi1 _ _) ?_
    rintro r t2 (⟨rfl, k, rfl, h2, hk⟩ | ⟨rfl, im, A, h2⟩)
    · have h4 : Taken L T t ps { t1 with k := k } := by
        refine ⟨h2, h1.proc, h1.own, h1.keeps.trans hk fun q hq => ?_⟩
        rw [h1.total q]
        omega
      rw [if_pos (by omega), wp_pure, wp_bind, wp_onKern]
      refine wp_post (freeArgv_back t h2 h1.own) fun _ t3 h3 => ?_
      exact Or.inl ⟨rfl, failed h h4 h3, rfl⟩
    · rw [if_neg (by omega), wp_bind, wp_modify, wp_pure, wp_bind, wp_onKern]
      refine wp_post (freeArgv_back t h2.inv (by rw [h2.own]; exact h1.own)) ?_
      exact fun _ t3 h3 => Or.inr ⟨Int.natCast_nonneg _, replaced h hi h1 h2 h3⟩
  · rw [wp_bind, wp_onKern]
    refine wp_post (freeArgv_back t h1.inv h1.own) fun _ t2 h2 => ?_
    exact Or.inl ⟨rfl, failed h h1 h2, rfl⟩

/-- **All or nothing.** After any run of the kernel, with any file found for the path, any
contents, any arguments and any number of free pages, `sys_exec` does not panic. When it returns
`-1` the process, its name and all memory in use are as before and the same pages are free;
otherwise every page of the old address space has lost exactly one reference. -/
theorem sys_exec_all_or_nothing (L : Layout) (m : Mem) (ops : List Op) :
    wp (system L ops) (fun _ t => ∀ i, (t.proc i).state = .RUNNABLE → ∀ namei name,
      wp (sys_exec L namei i) (fun r t' =>
        (r = -1 ∧ Untouched L t t'.kern ∧ t'.name = name) ∨ (0 ≤ r ∧ Dropped L i t t'.kern))
        (fun _ => False) ⟨t, name⟩) Reachable (powerOn m) := by
  refine wp_post (system_spec L m ops) ?_
  rintro _ t ⟨T, h⟩ i hrun namei name
  exact sys_exec_spec h (Inv.live h (by rw [hrun]; simp)) name

end Xv6.SysExec
