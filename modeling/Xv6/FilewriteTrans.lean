import Xv6.FsTrans
import Xv6.Sysfile

/-!
`filewrite` is modelled with its transactions and as a system call on the table of open files. If no
other process comes between its sections, the first does to the disk and to the offset of the file
what the second does, and the second does nothing else.
-/

namespace Xv6.FilewriteTrans

open Xv6.ByteMem Xv6.Wp
open Xv6.Fs (Superblock Disk Panic F G Sys)
open Xv6.FsTrans (Writer W)

variable {sb : Superblock} {g : Sys} {f : ℕ} {α : Type}

/-- The system `g` with the disk of the writer, and its offset in file `f`. -/
def seen (g : Sys) (f : ℕ) (s : Writer) : Sys :=
  { g with
    disk := s.trans.disk
    files := Function.update g.files f { g.files f with off := s.off } }

lemma seen_file (s : Writer) : (seen g f s).files f = { g.files f with off := s.off } :=
  Function.update_self ..

lemma forgets_inTrans {m' : Fs.Logged.T α} {m : F α} (h : Forgets Fs.Logged.Traced.disk m' m) :
    Forgets (seen g f) (FsTrans.inTrans m') (Fs.fs m) := by
  intro s
  have hm : m (seen g f s).disk = (m' s.trans).map fun r => (r.1, r.2.disk) := (h s.trans).symm
  unfold FsTrans.inTrans Fs.fs zoom
  rw [hm]
  rcases m' s.trans with e | ⟨a, t⟩
  · rfl
  · rfl

lemma forgets_advance (r : ℤ) : Forgets (seen g f) (FsTrans.advance r) (Fs.advance f r) := by
  unfold FsTrans.advance Fs.advance
  refine Forgets.ite ?_ (Forgets.pure _)
  intro s
  have hfiles : Function.update (seen g f s).files f
      { (seen g f s).files f with off := (((seen g f s).files f).off + r.toNat) % 2 ^ 32 } =
        (seen g f { s with off := (s.off + r.toNat) % 2 ^ 32 }).files := by
    rw [seen_file]
    exact Function.update_idem ..
  exact congrArg (fun files => Except.ok ((), { seen g f s with files := files })) hfiles.symm

lemma forgets_offset {m' : Fs.Logged.T PUnit} {m : F PUnit}
    (h : Forgets Fs.Logged.Traced.disk m' m) {o : ℕ} {k' : Writer → W α} {k : G α}
    (hk : ∀ t : Writer, t.off = o → Forgets (seen g f) (k' t) k) (s : Writer) (hs : s.off = o) :
    (((FsTrans.inTrans m' >>= fun _ => get >>= k') s).map fun r => (r.1, seen g f r.2)) =
      (Fs.fs m >>= fun _ => k) (seen g f s) := by
  have hm := forgets_inTrans (g := g) (f := f) h s
  rw [bind_run, bind_run, ← hm]
  unfold FsTrans.inTrans zoom
  rcases m' s.trans with e | ⟨a, t⟩
  · rfl
  · exact hk { s with trans := t } hs _

/-- **The loop with its transactions is the loop of the system call.** -/
theorem filewriteLoop_forgets (src : ℕ → Option Byte) (n fuel j : ℕ) :
    Forgets (seen g f) (FsTrans.filewriteLoop sb (fun _ x => x) (g.files f).ip src n fuel j)
      (Fs.filewriteLoop sb f src n fuel j) := by
  induction fuel generalizing j with
  | zero => exact Forgets.throw _
  | succ fuel ih =>
    unfold FsTrans.filewriteLoop Fs.filewriteLoop
    refine Forgets.ite ?_ (Forgets.pure _)
    refine Forgets.record (fun _ => rfl) ?_
    intro s
    change _ = (Fs.fs (Fs.ilock ((seen g f s).files f).ip) >>= fun _ => _) (seen g f s)
    rw [seen_file]
    refine forgets_offset (Fs.Logged.forgets_fs _) (fun t ht => ?_) s rfl
    rw [ht]
    refine Forgets.bind (forgets_inTrans (Fs.Logged.forgets_writei _ _ _)) fun r => ?_
    refine Forgets.bind (forgets_advance r) fun _ => ?_
    refine Forgets.bind (forgets_inTrans (Fs.Logged.forgets_fs _)) fun _ => ?_
    refine Forgets.record (fun _ => rfl) ?_
    exact Forgets.ite (Forgets.pure _) (ih _)

end Xv6.FilewriteTrans
