import Xv6.SmpWakeup

/-!
What a section of the kernel does to parents, children and zombies.
-/

namespace Xv6.SmpFamily

open Xv6.Riscv Xv6.Pbs Xv6.Smp Xv6.SmpMoves Xv6.SmpInv Xv6.SmpWrites Xv6.SmpWakeup
open Xv6.Process (ProcState)

variable {N : ℕ} {s s' : State N} {b : Build} {c c' : Fin N} {ch : Choice} {p q i : Slot}
  {lk : Lock} {k pc : Pc} {d d' : Shared} {me : Option Slot} {e : Effect}

/-! ### What a section does to parents and zombies -/

lemma kill_zombie (pid : ℤ) (p : Proc) : (PbsRuns.kill pid p).parent = p.parent ∧
    (PbsRuns.kill pid p).pid = p.pid ∧ (PbsRuns.kill pid p).xstate = p.xstate := by
  unfold PbsRuns.kill
  split_ifs <;> exact ⟨rfl, rfl, rfl⟩

lemma wakeup_zombie (c : ℕ) (p : Proc) : (PbsRuns.wakeup c p).parent = p.parent ∧
    (PbsRuns.wakeup c p).pid = p.pid ∧ (PbsRuns.wakeup c p).xstate = p.xstate := by
  unfold PbsRuns.wakeup
  split_ifs <;> exact ⟨rfl, rfl, rfl⟩

/-- What a section may do to slot `p` as a member of its family. -/
inductive Kin (me : Option Slot) (pc : Pc) (d : Shared) (e : Effect) (p : Slot) : Prop
  | keeps (hst : (e.sh.proc p).state = (d.proc p).state ∨
        (d.proc p).state = .SLEEPING ∧ (e.sh.proc p).state = .RUNNABLE)
      (hpar : (e.sh.proc p).parent = (d.proc p).parent) (hpid : (e.sh.proc p).pid = (d.proc p).pid)
      (hx : (e.sh.proc p).xstate = (d.proc p).xstate)
  | alloc (hst : (d.proc p).state = .UNUSED) (hst' : (e.sh.proc p).state = .USED)
      (hpar : (e.sh.proc p).parent = (d.proc p).parent)
  | freed (hst : (d.proc p).state = .UNUSED ∨ (d.proc p).state = .ZOMBIE ∧ ∃ x, pc = .waitChild x p)
      (hst' : (e.sh.proc p).state = .UNUSED) (hpar : (e.sh.proc p).parent = none)
  | forkParent (i : Slot) (hpc : pc = .forkParent p) (hme : me = some i)
      (hst : (e.sh.proc p).state = (d.proc p).state) (hpar : (e.sh.proc p).parent = some i)
      (hpid : (e.sh.proc p).pid = (d.proc p).pid) (hx : (e.sh.proc p).xstate = (d.proc p).xstate)
  | forkStart (hpc : pc = .forkStart p) (hst : (e.sh.proc p).state = .RUNNABLE)
      (hpar : (e.sh.proc p).parent = (d.proc p).parent)
  | reparent (i : Slot) (status : ℤ) (n : ℕ) (hpc : pc = .reparent status n) (hme : me = some i)
      (hn : slotAt n = some p) (hold : (d.proc p).parent = some i)
      (hst : (e.sh.proc p).state = (d.proc p).state) (hpar : (e.sh.proc p).parent = some initproc)
      (hpid : (e.sh.proc p).pid = (d.proc p).pid) (hx : (e.sh.proc p).xstate = (d.proc p).xstate)
  | exit (status : ℤ) (hpc : pc = .exitLock status) (hme : me = some p)
      (hst : (e.sh.proc p).state = .ZOMBIE) (hpar : (e.sh.proc p).parent = (d.proc p).parent)
      (hpid : (e.sh.proc p).pid = (d.proc p).pid) (hx : (e.sh.proc p).xstate = status)
  | leaves (hme : me = some p)
      (hst : (e.sh.proc p).state = .SLEEPING ∨ (e.sh.proc p).state = .RUNNABLE)
      (hpar : (e.sh.proc p).parent = (d.proc p).parent)

lemma kin_of_wrote (hw : Wrote me ch pc d e p) : Kin me pc d e p := by
  rcases hw with
    h1 | h1 | ⟨bad, -, -, -, h1⟩ | ⟨k, -, -, h1⟩ | ⟨pid, n, -, -, h1⟩ | ⟨n, -, -, hst, h1⟩ |
    ⟨n, -, -, hst, h1⟩ | ⟨i, hpc, hme, h1⟩ | ⟨hpc, h1⟩ | ⟨i, st, n, hpc, hme, hn, hpar, h1⟩ |
    ⟨st, hpc, hme, h1⟩ | ⟨i, x, hpc, -, hst, h1, -⟩ | ⟨chan, lk, k, -, hme, h1⟩ | ⟨lk, k, -, -, h1⟩ |
    ⟨k, -, hme, h1⟩ | ⟨chan, n, k, -, -, -, h1⟩
  · exact .keeps (by rw [h1]; exact Or.inl rfl) (by rw [h1]) (by rw [h1]) (by rw [h1])
  · exact .keeps (Or.inl h1.state) h1.parent h1.pid h1.xstate
  · exact .keeps (by rw [h1]; exact Or.inl rfl) (by rw [h1]) (by rw [h1]) (by rw [h1])
  · exact .keeps (by rw [h1]; exact Or.inl rfl) (by rw [h1]) (by rw [h1]) (by rw [h1])
  · obtain ⟨h2, h3, h4⟩ := kill_zombie pid (d.proc p)
    rw [← h1] at h2 h3 h4
    exact .keeps (by rw [h1]; exact kill_state pid _) h2 h3 h4
  · exact .alloc hst (by rw [h1]; rfl) (by rw [h1]; rfl)
  · exact .freed (Or.inl hst) (by rw [h1]; rfl) (by rw [h1]; rfl)
  · exact .forkParent i hpc hme (by rw [h1]) (by rw [h1]) (by rw [h1]) (by rw [h1])
  · exact .forkStart hpc (by rw [h1]) (by rw [h1])
  · exact .reparent i st n hpc hme hn hpar (by rw [h1]) (by rw [h1]) (by rw [h1]) (by rw [h1])
  · exact .exit st hpc hme (by rw [h1]) (by rw [h1]) (by rw [h1]) (by rw [h1])
  · exact .freed (Or.inr ⟨hst, x, hpc⟩) (by rw [h1]; rfl) (by rw [h1]; rfl)
  · exact .leaves hme (by rw [h1]; exact Or.inl rfl) (by rw [h1])
  · exact .keeps (by rw [h1]; exact Or.inl rfl) (by rw [h1]) (by rw [h1]) (by rw [h1])
  · exact .leaves hme (by rw [h1]; exact Or.inr rfl) (by rw [h1])
  · obtain ⟨h2, h3, h4⟩ := wakeup_zombie chan (d.proc p)
    rw [← h1] at h2 h3 h4
    exact .keeps (by rw [h1]; exact wakeup_state chan _) h2 h3 h4

lemma kin_parent (hk : Kin me pc d e p) (h : (e.sh.proc p).parent = some q) :
    (d.proc p).parent = some q ∨ (pc = .forkParent p ∧ me = some q) ∨
      ∃ i st n, pc = .reparent st n ∧ me = some i ∧ slotAt n = some p ∧
        (d.proc p).parent = some i ∧ q = initproc := by
  rcases hk with ⟨-, hpar, -, -⟩ | ⟨-, -, hpar⟩ | ⟨-, -, hpar⟩ | ⟨i, hpc, hme, -, hpar, -, -⟩ |
    ⟨-, -, hpar⟩ | ⟨i, st, n, hpc, hme, hn, hold, -, hpar, -, -⟩ | ⟨st, -, -, -, hpar, -, -⟩ |
    ⟨-, -, hpar⟩
  · exact Or.inl (hpar ▸ h)
  · exact Or.inl (hpar ▸ h)
  · rw [hpar] at h
    cases h
  · rw [hpar] at h
    exact Or.inr (Or.inl ⟨hpc, hme.trans h⟩)
  · exact Or.inl (hpar ▸ h)
  · rw [hpar] at h
    exact Or.inr (Or.inr ⟨i, st, n, hpc, hme, hn, hold, (Option.some.inj h).symm⟩)
  · exact Or.inl (hpar ▸ h)
  · exact Or.inl (hpar ▸ h)

lemma kin_orphan (hk : Kin me pc d e p) (h : (e.sh.proc p).parent = none) :
    (d.proc p).parent = none ∨ (e.sh.proc p).state = .UNUSED := by
  rcases hk with ⟨-, hpar, -, -⟩ | ⟨-, -, hpar⟩ | ⟨-, hst, -⟩ | ⟨i, -, -, -, hpar, -, -⟩ |
    ⟨-, -, hpar⟩ | ⟨i, st, n, -, -, -, -, -, hpar, -, -⟩ | ⟨st, -, -, -, hpar, -, -⟩ | ⟨-, -, hpar⟩
  · exact Or.inl (hpar ▸ h)
  · exact Or.inl (hpar ▸ h)
  · exact Or.inr hst
  · rw [hpar] at h
    cases h
  · exact Or.inl (hpar ▸ h)
  · rw [hpar] at h
    cases h
  · exact Or.inl (hpar ▸ h)
  · exact Or.inl (hpar ▸ h)

lemma kin_zombie (hk : Kin me pc d e p) (h : (e.sh.proc p).state = .ZOMBIE) :
    (e.sh.proc p).pid = (d.proc p).pid ∧
    (((d.proc p).state = .ZOMBIE ∧ (e.sh.proc p).xstate = (d.proc p).xstate) ∨
      ∃ st, pc = .exitLock st ∧ me = some p ∧ (e.sh.proc p).xstate = st) := by
  rcases hk with ⟨hst, -, hpid, hx⟩ | ⟨-, hst, -⟩ | ⟨-, hst, -⟩ | ⟨i, -, -, hst, -, hpid, hx⟩ |
    ⟨-, hst, -⟩ | ⟨i, st, n, -, -, -, -, hst, -, hpid, hx⟩ | ⟨st, hpc, hme, -, -, hpid, hx⟩ |
    ⟨-, hst, -⟩
  · rcases hst with hst | ⟨-, hst⟩
    · exact ⟨hpid, Or.inl ⟨hst ▸ h, hx⟩⟩
    · rw [hst] at h
      cases h
  · rw [hst] at h
    cases h
  · rw [hst] at h
    cases h
  · exact ⟨hpid, Or.inl ⟨hst ▸ h, hx⟩⟩
  · rw [hst] at h
    cases h
  · exact ⟨hpid, Or.inl ⟨hst ▸ h, hx⟩⟩
  · exact ⟨hpid, Or.inr ⟨st, hpc, hme, hx⟩⟩
  · rcases hst with hst | hst <;> rw [hst] at h <;> cases h

lemma kin_alive (hk : Kin me pc d e p) (h : Alive (d.proc p)) :
    Alive (e.sh.proc p) ∨ ∃ st, pc = .exitLock st ∧ me = some p := by
  have hdead : (d.proc p).state ≠ .UNUSED ∧ (d.proc p).state ≠ .ZOMBIE := by
    rcases h with h | h | h <;> rw [h] <;> exact ⟨by simp, by simp⟩
  unfold Alive at h ⊢
  rcases hk with ⟨hst, -, -, -⟩ | ⟨hst, -, -⟩ | ⟨hst, -, -⟩ | ⟨i, -, -, hst, -, -, -⟩ | ⟨-, hst, -⟩ |
    ⟨i, st, n, -, -, -, -, hst, -, -, -⟩ | ⟨st, hpc, hme, -, -, -, -⟩ | ⟨-, hst, -⟩
  · rcases hst with hst | ⟨-, hst⟩
    · rw [hst]
      exact Or.inl h
    · exact Or.inl (Or.inr (Or.inl hst))
  · exact absurd hst hdead.1
  · rcases hst with hst | ⟨hst, -⟩
    · exact absurd hst hdead.1
    · exact absurd hst hdead.2
  · rw [hst]
    exact Or.inl h
  · exact Or.inl (Or.inr (Or.inl hst))
  · rw [hst]
    exact Or.inl h
  · exact Or.inr ⟨st, hpc, hme⟩
  · rcases hst with hst | hst
    · exact Or.inl (Or.inl hst)
    · exact Or.inl (Or.inr (Or.inl hst))

lemma kin_born (hk : Kin me pc d e p) (hrun : me = some p → Alive (d.proc p))
    (h : Alive (e.sh.proc p) ∨ (e.sh.proc p).state = .ZOMBIE) :
    (Alive (d.proc p) ∨ (d.proc p).state = .ZOMBIE) ∨ pc = .forkStart p := by
  unfold Alive at h hrun ⊢
  rcases hk with ⟨hst, -, -, -⟩ | ⟨-, hst, -⟩ | ⟨-, hst, -⟩ | ⟨i, -, -, hst, -, -, -⟩ | ⟨hpc, -, -⟩ |
    ⟨i, st, n, -, -, -, -, hst, -, -, -⟩ | ⟨st, -, hme, -, -, -, -⟩ | ⟨hme, -, -⟩
  · rcases hst with hst | ⟨hst, -⟩
    · rw [hst] at h
      exact Or.inl h
    · exact Or.inl (Or.inl (Or.inl hst))
  · rw [hst] at h
    simp at h
  · rw [hst] at h
    simp at h
  · rw [hst] at h
    exact Or.inl h
  · exact Or.inr hpc
  · rw [hst] at h
    exact Or.inl h
  · exact Or.inl (Or.inl (hrun hme))
  · exact Or.inl (Or.inl (hrun hme))

end Xv6.SmpFamily
