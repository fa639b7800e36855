import Xv6.FsConsistent

/-!
Blocks over whole runs: from an image in which the free map is exact, whatever calls the kernel
makes on its files and directories, the map marks the blocks in use and no others, each of them is
named once, and an inode that is deleted gives all of its blocks back.
-/

namespace Xv6.FsSpace

open Xv6.ByteMem Xv6.Wp Xv6.Fs

variable {sb : Superblock} {ρ : ℕ → ℕ} {s t u : Disk} {i x k : ℕ} {E : Panic → Prop}

/-! ### Calls -/

/-- What the kernel calls. An entry of the table that is read or changed is locked. -/
inductive Call where
  | iget (inum : ℕ)
  | idup (i : ℕ)
  | ilock (i : ℕ)
  | iput (i : ℕ)
  | itrunc (i : ℕ)
  | readi (i : ℕ) (ok : ℕ → ℕ → Bool) (off n : ℕ)
  | writei (i : ℕ) (src : ℕ → Option Byte) (off n : ℕ)
  | namei (cwd : ℕ) (path : List Byte)
  | dirlink (dp : ℕ) (name : List Byte) (inum : ℕ)
  | create (cwd : ℕ) (path : List Byte) (type : Ftype) (major minor : ℤ)
  | link (cwd : ℕ) (old new : List Byte)
  | unlink (cwd : ℕ) (path : List Byte)

/-- Somebody has the inode locked: it is referenced and has been read from disk. -/
def Locked (s : Disk) (i : ℕ) : Prop := 0 < (s.inodes i).ref ∧ (s.inodes i).valid = true

/-- What a caller sees to. -/
def Call.Allowed (s : Disk) : Call → Prop
  | .iget _ => True
  | .idup i | .ilock i | .iput i => 0 < (s.inodes i).ref
  | .itrunc i => Locked s i
  | .readi i _ _ n | .writei i _ _ n => Locked s i ∧ n < 2 ^ 32
  | .namei cwd _ | .create cwd _ _ _ _ | .link cwd _ _ | .unlink cwd _ => 0 < (s.inodes cwd).ref
  | .dirlink dp _ _ => Locked s dp

def Call.exec (sb : Superblock) : Call → F Unit
  | .iget inum => do
    let _ ← Fs.iget ROOTDEV inum
    pure ()
  | .idup i => do
    let _ ← Fs.idup i
    pure ()
  | .ilock i => Fs.ilock i
  | .iput i => Fs.iput i
  | .itrunc i => Fs.itrunc i
  | .readi i ok off n => do
    let _ ← Fs.readi sb i ok off n
    pure ()
  | .writei i src off n => do
    let _ ← Fs.writei sb i src off n
    pure ()
  | .namei cwd path => do
    let _ ← Fs.namei sb cwd path
    pure ()
  | .dirlink dp name inum => do
    let _ ← Fs.dirlink sb dp name inum
    pure ()
  | .create cwd path type major minor => do
    let _ ← Fs.create sb cwd path type major minor
    pure ()
  | .link cwd old new => do
    let _ ← Fs.link sb cwd old new
    pure ()
  | .unlink cwd path => do
    let _ ← Fs.unlink sb cwd path
    pure ()

/-- From `s`, completed calls have led to `t`. -/
inductive Run (sb : Superblock) (s : Disk) : Disk → Prop where
  | start : Run sb s s
  | call {t u : Disk} (c : Call) : Run sb s t → c.Allowed t → c.exec sb t = .ok ((), u) →
      Run sb s u

/-! ### The invariant -/

/-- The table is in order, and the disk. -/
def Ordered (sb : Superblock) (s : Disk) : Prop :=
  Held (fun i => (s.inodes i).ref) s ∧ Consistent sb s

lemma ordered_of_held (h : Held ρ s) (hc : Consistent sb s) : Ordered sb s := by
  have hρ : (fun i => (s.inodes i).ref) = ρ := funext h.ref
  exact ⟨hρ ▸ h, hc⟩

/-- **No call frees a free block**, and each leaves the file system in order. -/
lemma Call.ordered (c : Call) (h : Ordered sb s) (ha : c.Allowed s) :
    wp (c.exec sb) (fun _ t => Ordered sb t) (· ≠ .bfree) s := by
  obtain ⟨hρ, hc⟩ := h
  have hp := stable_consistent sb
  cases c with
  | iget inum =>
    simp only [Call.exec, wp_bind, wp_pure]
    exact wp_post (hp.wp_iget hρ hc inum) fun _ _ ht => ordered_of_held ht.1.1 ht.2
  | idup i =>
    simp only [Call.exec, wp_bind, wp_pure]
    exact wp_post (hp.wp_idup hρ hc ha) fun _ _ ht => ordered_of_held ht.1.2.1 ht.2
  | ilock i => exact wp_post (hp.wp_ilock hρ hc i) fun _ _ ht => ordered_of_held ht.1.1 ht.2
  | iput i => exact wp_post (hp.wp_iput hρ hc ha) fun _ _ ht => ordered_of_held ht.1.1 ht.2
  | itrunc i =>
    refine wp_post (wp_join (hρ.calm (tab_itrunc i)) (consistent_itrunc hc hρ ha.1 ha.2)) ?_
    exact fun _ _ ht => ordered_of_held ht.1.1 ht.2.1
  | readi i ok off n =>
    simp only [Call.exec, wp_bind, wp_pure]
    refine wp_post (hp.wp_readi hρ hc ha.1.1 ha.1.2 ok off ha.2) ?_
    exact fun _ _ ht => ordered_of_held ht.1.1 ht.2
  | writei i src off n =>
    simp only [Call.exec, wp_bind, wp_pure]
    refine wp_post (hp.wp_writei hρ hc ha.1.1 ha.1.2 src off ha.2) ?_
    exact fun _ _ ht => ordered_of_held ht.1.1 ht.2
  | namei cwd path =>
    simp only [Call.exec, wp_bind, wp_pure]
    exact wp_post (hp.wp_namei path hρ hc ha) fun _ _ ht => ordered_of_held ht.1 ht.2.2
  | dirlink dp name inum =>
    simp only [Call.exec, wp_bind, wp_pure]
    refine wp_post (hp.wp_dirlink name inum hρ hc ha.1 ha.2) ?_
    exact fun _ _ ht => ordered_of_held ht.1.1 ht.2
  | create cwd path type major minor =>
    simp only [Call.exec, wp_bind, wp_pure]
    refine wp_post (hp.wp_create path type major minor hρ hc ha) ?_
    exact fun _ _ ht => ordered_of_held ht.1.1 ht.2
  | link cwd old new =>
    simp only [Call.exec, wp_bind, wp_pure]
    exact wp_post (hp.wp_link old new hρ hc ha) fun _ _ ht => ordered_of_held ht.1 ht.2.2
  | unlink cwd path =>
    simp only [Call.exec, wp_bind, wp_pure]
    exact wp_post (hp.wp_unlink path hρ hc ha) fun _ _ ht => ordered_of_held ht.1 ht.2.2

lemma Run.ordered (h : Ordered sb s) (hr : Run sb s t) : Ordered sb t := by
  induction hr with
  | start => exact h
  | call c _ ha he ih =>
    have hw := c.ordered ih ha
    rwa [wp_of_run he] at hw

lemma ordered_boot (h1 : Acct sb s.bits (diskRefs s)) (h2 : NoHoles s)
    (h3 : ∀ i, (s.inodes i).ref = 0) : Ordered sb s := by
  refine ⟨⟨fun _ => rfl, fun i hi => ?_, fun i hi => ?_, fun i j hi => ?_⟩, h1, h2, fun i hi => ?_⟩
  all_goals
    rw [h3 i] at hi
    exact absurd hi (Nat.lt_irrefl 0)

/-! ### Deleting a file -/

lemma freed_bits (hf : Freed x s t) (hs : Acct sb s.bits (diskRefs s))
    (ht : Acct sb t.bits (diskRefs t)) (hk : diskRefs s x k ≠ 0) :
    t.bits (diskRefs s x k) = false := by
  obtain ⟨hge, hlt⟩ := hs.range x k hk
  rw [← Bool.not_eq_true, ht.bits _ hlt, not_or]
  refine ⟨by omega, ?_⟩
  rintro ⟨y, l, he⟩
  rw [hf.refs, clearInode] at he
  split_ifs at he with hy
  · exact hk he.symm
  · exact hy (hs.inj x y k l hk he.symm).1.symm

lemma iput_frees (h : Ordered sb s) (hd : Dying s i) :
    ∃ t, iput i s = .ok ((), t) ∧ (t.dinodes (s.inodes i).inum).type = .free ∧
      ∀ k, diskRefs s (s.inodes i).inum k ≠ 0 →
        t.bits (diskRefs s (s.inodes i).inum k) = false := by
  obtain ⟨hρ, hc⟩ := h
  have hi : 0 < (s.inodes i).ref := by
    rw [hd.1]
    exact Nat.one_pos
  obtain ⟨_, t, hrun, ht, ⟨hn, -⟩ | ⟨-, hf⟩⟩ := wp_returns (iput_disk hc hρ hi)
  · exact absurd hd hn
  · exact ⟨t, hrun, hf.type, fun k hk => freed_bits hf hc.acct ht.acct hk⟩

/-- **Blocks are neither leaked nor shared**: from an image in which the map is exact and no inode
has a hole, after every completed call the map is exact and names each block once; no call frees a
free block, and deleting a file returns all of its blocks. -/
theorem blocks_accounted (h1 : Acct sb s.bits (diskRefs s)) (h2 : NoHoles s)
    (h3 : ∀ i, (s.inodes i).ref = 0) (hr : Run sb s t) :
    Acct sb t.bits (diskRefs t) ∧
    (∀ c : Call, c.Allowed t → c.exec sb t ≠ .error .bfree) ∧
    ∀ i, Dying t i → ∃ u, iput i t = .ok ((), u) ∧ (u.dinodes (t.inodes i).inum).type = .free ∧
      ∀ k, diskRefs t (t.inodes i).inum k ≠ 0 →
        u.bits (diskRefs t (t.inodes i).inum k) = false := by
  have ht := hr.ordered (ordered_boot h1 h2 h3)
  refine ⟨ht.2.acct, fun c ha he => ?_, fun i hd => iput_frees ht hd⟩
  have hw := c.ordered ht ha
  unfold wp at hw
  rw [he] at hw
  exact hw rfl

/-! ### A small image -/

/-- Inode 1 is the root directory, without entries; nothing is in memory. -/
def smallImage : Disk where
  bits := fun b => decide (b < 5)
  dinodes := Function.update (fun _ => Dinode.zero) ROOTINO ⟨.dir, 0, 0, 1, 0, fun _ => 0⟩
  blocks := fun _ _ => 0
  inodes := fun _ => ⟨0, 0, 0, false, Dinode.zero⟩

lemma diskRefs_smallImage (y k : ℕ) : diskRefs smallImage y k = 0 := by
  unfold diskRefs refAt
  split_ifs
  · rfl
  · refine slotAt_empty (fun l _ => ?_) _ _
    by_cases hy : y = ROOTINO
    · subst hy
      rfl
    · have hzero : smallImage.dinodes y = Dinode.zero := by simp [smallImage, hy]
      rw [hzero]
      rfl

lemma acct_smallImage : Acct smallDisk smallImage.bits (diskRefs smallImage) := by
  have hmeta : smallDisk.nmeta = 5 := rfl
  refine ⟨fun x y k l hk => ?_, fun x k hk => ?_, fun b _ => ?_⟩
  · exact absurd (diskRefs_smallImage x k) hk
  · exact absurd (diskRefs_smallImage x k) hk
  · rw [hmeta]
    constructor
    · exact fun hb => Or.inl (of_decide_eq_true hb)
    · rintro (hb | ⟨x, k, he⟩)
      · exact decide_eq_true hb
      · rw [diskRefs_smallImage] at he
        subst he
        rfl

lemma noHoles_smallImage : NoHoles smallImage := by
  intro x o _ ho
  by_cases hx : x = ROOTINO
  · subst hx
    exact absurd ho (Nat.not_lt_zero o)
  · have hzero : smallImage.dinodes x = Dinode.zero := by simp [smallImage, hx]
    rw [hzero] at ho
    exact absurd ho (Nat.not_lt_zero o)

/-- An entry is written to the root directory. -/
theorem blocks_accounted_small : ∃ t, Acct smallDisk t.bits (diskRefs t) ∧ t.bits 5 = true := by
  have hrun : ∃ t, Run smallDisk smallImage t ∧ t.bits 5 = true := by
    refine ⟨_, .call (.dirlink 0 [97] 1) (.call (.ilock 0) (.call (.iget ROOTINO) .start trivial rfl)
      ?_ rfl) ?_ rfl, rfl⟩
    · exact (by decide : 0 < 1)
    · exact ⟨(by decide : 0 < 1), rfl⟩
  obtain ⟨t, hrun, hb⟩ := hrun
  exact ⟨t, (blocks_accounted acct_smallImage noHoles_smallImage (fun _ => rfl) hrun).1, hb⟩

end Xv6.FsSpace
