import Xv6.Isolation
import Xv6.Sysfile

/-!
A `fork` that fails.

Whatever allocation the failure comes from, the undo through `uvmunmap`, `freeproc` and `freewalk`
gives every page back: free pages, reference counts and the process table are as before. Files and
inodes are duplicated only after the last allocation.
-/

namespace Xv6.ForkFail

open Xv6.ByteMem Xv6.Riscv Xv6.Kalloc Xv6.Vm Xv6.Wp Xv6.PageTable Xv6.Walk Xv6.Unmap
open Xv6.AddrSpace Xv6.Grow Xv6.Cow Xv6.Copyout Xv6.Share Xv6.Process Xv6.Invariant Xv6.View
open Xv6.Ops Xv6.Fork Xv6.Exec Xv6.Kernel Xv6.Steps Xv6.Reach Xv6.RefCount

/-- Memory and processes, and the files with the inodes under them. -/
structure World where
  kern : Kern
  files : Fs.Sys

abbrev W := StateT World (Except (Panic ⊕ Fs.Panic))

def onKern {α : Type} (m : S α) : W α := fun w =>
  match m w.kern with
  | .ok (a, t) => .ok (a, { w with kern := t })
  | .error e => .error (.inl e)

def onFiles {α : Type} (m : Fs.G α) : W α := fun w =>
  match m w.files with
  | .ok (a, s) => .ok (a, { w with files := s })
  | .error e => .error (.inr e)

lemma wp_onKern {α : Type} {m : S α} {Q : α → World → Prop} {E : Panic ⊕ Fs.Panic → Prop}
    {w : World} : wp (onKern m) Q E w ↔
      wp m (fun a t => Q a { w with kern := t }) (fun e => E (.inl e)) w.kern := by
  unfold wp onKern
  cases m w.kern <;> rfl

lemma wp_onFiles {α : Type} {m : Fs.G α} {Q : α → World → Prop} {E : Panic ⊕ Fs.Panic → Prop}
    {w : World} : wp (onFiles m) Q E w ↔
      wp m (fun a s => Q a { w with files := s }) (fun e => E (.inr e)) w.files := by
  unfold wp onFiles
  cases m w.files <;> rfl

/-- `fork` by process `i`: the child's slot and memory, then its files and current directory; `none`
where the source returns `-1`. -/
def fork (L : Layout) (i : Fin NPROC) : W (Option ℤ) := do
  let r ← onKern (Process.fork L i)
  match r with
  | none => pure none
  | some pid => do
    let _ ← onFiles (Fs.fork i true)
    pure (some pid)

/-- The user may write to the page, now or after a copy. -/
def Writable (e : Word) : Prop := has e PTE_W = true ∨ has e PTE_COW = true

/-- `w'` is `w` as far as a failed `fork` by process `i` may be told from none. -/
structure Undone (L : Layout) (i : Fin NPROC) (w w' : World) : Prop where
  free : ∀ p, p ∈ w'.kern.k.freelist ↔ p ∈ w.kern.k.freelist
  counts : ∀ p, InRange L p → w'.kern.k.temp (p / PGSIZE) = w.kern.k.temp (p / PGSIZE)
  files : w'.files = w.files
  proc : w'.kern.proc = w.kern.proc
  slot : ∀ np, freeSlot w.kern = some np → w'.kern.proc np = unusedProc
  memory : ∀ va, va / PGSIZE < pgs (w.kern.proc i).sz →
    rd (tabOf w'.kern i).leaf w'.kern.k.mem va = rd (tabOf w.kern i).leaf w.kern.k.mem va
  writable : ∀ v, Writable ((tabOf w'.kern i).leaf v) ↔ Writable ((tabOf w.kern i).leaf v)

variable {L : Layout} {t t' : Kern} {T T' : Fin NPROC → PTab} {i : Fin NPROC} {E : Panic → Prop}

/-! ### After the failure -/

lemma parentEntry_writable {e : Word} (he : UserLeaf L e) :
    Writable (parentEntry e) ↔ Writable e := by
  unfold Writable
  rw [has_W, has_COW, has_W, has_COW, parentEntry_bit he (by omega), parentEntry_bit he (by omega),
    shareFlags_bit e (by omega), shareFlags_bit e (by omega)]
  cases e.getLsbD 2 <;> cases e.getLsbD 5 <;> simp

lemma Space.leaf_high {f g : ℕ → Word} {np tf v : ℕ} (hf : Space L f np tf) (hg : Space L g np tf)
    (hv : np ≤ v) : g v = f v := by
  by_cases h1 : v = TFV
  · rw [h1, hf.trapframe, hg.trapframe]
  by_cases h2 : v = TRV
  · rw [h2, hf.trampoline, hg.trampoline]
  · rw [hf.none v hv h1 h2, hg.none v hv h1 h2]

lemma Undone.of_unforked {F : Fs.Sys} (h : Inv L t T) (hi : Live (t.proc i)) (h' : Inv L t' T')
    (hu : Unforked T T' i t t') (hv : views T' t' = views T t) :
    Undone L i ⟨t, F⟩ ⟨t', F⟩ := by
  have hi' : Live (t'.proc i) := by rw [hu.proc]; exact hi
  have hacct := h'.acct
  rw [hu.total] at hacct
  refine ⟨fun p => ?_, fun p hp => ?_, rfl, hu.proc, fun np hnp => ?_, fun va hva => ?_,
    fun v => ?_⟩
  · exact (hacct.mem_free p).trans (h.acct.mem_free p).symm
  · exact (hacct.count p hp).trans (h.acct.count p hp).symm
  · change t'.proc np = unusedProc
    rw [hu.proc]
    exact h.idle np (Inv.unused h (by simpa using List.find?_some hnp))
  · -- the views are the bytes of the pages
    have h1 := congrFun hv i
    rw [views_live hi, views_live hi', hu.proc] at h1
    have h2 := congrArg (fun u : UMem => u.bytes va) (Option.some.inj h1)
    dsimp only [view] at h2
    rw [if_pos hva, if_pos hva] at h2
    dsimp only
    rw [Inv.tabOf h hi, Inv.tabOf h' hi']
    exact h2
  · have hs := (h.slot i hi).space
    have hs' := (h'.slot i hi').space
    rw [hu.proc] at hs'
    dsimp only
    rw [Inv.tabOf h hi, Inv.tabOf h' hi']
    rcases Nat.lt_or_ge v (pgs (t.proc i).sz) with hlt | hge
    · rcases hu.entries v hlt with h1 | h1
      · rw [h1]
      · rw [h1]
        exact parentEntry_writable (hs.user v hlt)
    · rw [Space.leaf_high hs hs' hge]

/-- **A failed fork changes nothing**: in every reachable state, for every process that runs and
whatever the files, if `fork` fails then free pages, reference counts, files, inodes and the
process table are as before, the slot tried is unused, and the caller has the memory and the
writable pages it had. -/
theorem failed_fork_changes_nothing (L : Layout) (m : Mem) (ops : List Op) :
    wp (system L ops) (fun _ t => ∀ i, (t.proc i).state = .RUNNABLE → ∀ F : Fs.Sys,
      wp (fork L i) (fun r w => r = none → Undone L i ⟨t, F⟩ w) (fun e => ∃ e', e = .inr e') ⟨t, F⟩)
      Reachable (powerOn m) := by
  refine wp_post (system_spec L m ops) ?_
  rintro _ t ⟨T, h⟩ i hrun F
  have hi := Inv.live h (i := i) (by rw [hrun]; simp)
  unfold fork
  rw [wp_bind, wp_onKern]
  refine wp_mono (fork_spec (E := fun _ => False) h hi) ?_ fun _ he => he.elim
  rintro r t1 ⟨T1, h1, ⟨rfl, hu, hv, -⟩ | ⟨np, rfl, -⟩⟩
  · rw [wp_pure]
    exact fun _ => Undone.of_unforked h hi h1 hu hv
  · dsimp only
    rw [wp_bind, wp_onFiles]
    refine wp_mono wp_true (fun _ _ _ => ?_) fun e _ => ⟨e, rfl⟩
    rw [wp_pure]
    intro hr
    cases hr

end Xv6.ForkFail
