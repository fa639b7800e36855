import Xv6.FsDir
import Xv6.FsSpace

/-!
Path lookup. The components of a path are its pieces between slashes, and `namei` walks the tree of
directories along them.
-/

namespace Xv6.FsPath

open Xv6.ByteMem Xv6.Wp Xv6.Fs

variable {sb : Superblock} {ρ : ℕ → ℕ} {s t u v : Disk} {i ip dp cwd x y : ℕ} {E : Panic → Prop}
  {name path rest : List Byte} {names : List (List Byte)}

/-! ### Components -/

/-- The maximal runs of bytes other than `/`, each cut to `DIRSIZ` bytes. -/
def components (path : List Byte) : List (List Byte) :=
  ((path.splitOnP (· = slash)).filter (· ≠ [])).map (List.take DIRSIZ)

/-- `skipelem`, called again and again, yields these names. -/
inductive Yields : List Byte → List (List Byte) → Prop where
  | done {p} : skipelem p = none → Yields p []
  | next {p nm q nms} : skipelem p = some (nm, q) → Yields q nms → Yields p (nm :: nms)

lemma components_nil : components [] = [] := by
  simp [components]

lemma components_slash (path : List Byte) : components (slash :: path) = components path := by
  unfold components
  rw [List.splitOnP_cons_eq_if_modifyHead, if_pos (by simp)]
  rfl

lemma components_dropWhile (path : List Byte) :
    components (path.dropWhile (· = slash)) = components path := by
  induction path with
  | nil => rfl
  | cons b path ih =>
    by_cases hb : b = slash
    · rw [List.dropWhile_cons_of_pos (by simpa using hb), ih, hb, components_slash]
    · rw [List.dropWhile_cons_of_neg (by simpa using hb)]

lemma components_run {run : List Byte} (hrun : ∀ b ∈ run, b ≠ slash) (hne : run ≠ [])
    (hrest : rest = [] ∨ rest.head? = some slash) :
    components (run ++ rest) = run.take DIRSIZ :: components rest := by
  have hp : ∀ b ∈ run, (decide (b = slash)) = false := fun b hb => by simpa using hrun b hb
  cases rest with
  | nil =>
    unfold components
    rw [List.append_nil, List.splitOnP_eq_singleton hp]
    simp [hne]
  | cons b rest =>
    obtain rfl : b = slash := by simpa using hrest
    rw [components_slash]
    unfold components
    rw [List.splitOnP_append_cons_of_forall_mem hp slash (by simp)]
    simp [hne]

/-- What `skipelem` returns: nothing at the end of the path, or a run and what is behind it. -/
lemma skipelem_cases (path : List Byte) : skipelem path = none ∧ components path = [] ∨
    ∃ name rest, skipelem path = some (name, rest) ∧ components path = name :: components rest ∧
      rest.length < path.length := by
  have hlen : (path.dropWhile (· = slash)).length ≤ path.length :=
    (List.dropWhile_sublist _).length_le
  have hhead := List.head?_dropWhile_not (· = slash) path
  rw [← components_dropWhile path]
  unfold skipelem
  generalize path.dropWhile (· = slash) = p at *
  cases p with
  | nil => exact Or.inl ⟨rfl, components_nil⟩
  | cons b q =>
    have hb : b ≠ slash := by simpa using hhead
    have hrest : ((b :: q).dropWhile (· ≠ slash)).length ≤ q.length := by
      rw [List.dropWhile_cons_of_pos (by simpa using hb)]
      exact (List.dropWhile_sublist _).length_le
    refine Or.inr ⟨_, _, if_neg (by simp), ?_, ?_⟩
    · rw [components_dropWhile]
      conv_lhs => rw [← List.takeWhile_append_dropWhile (p := (· ≠ slash)) (l := b :: q)]
      refine components_run (fun c hc => by simpa using List.mem_takeWhile_imp hc) ?_ ?_
      · rw [List.takeWhile_cons_of_pos (by simpa using hb)]
        exact List.cons_ne_nil _ _
      · have hstop := List.head?_dropWhile_not (· ≠ slash) (b :: q)
        cases hd : (b :: q).dropWhile (· ≠ slash) with
        | nil => exact Or.inl rfl
        | cons c r =>
          rw [hd] at hstop
          exact Or.inr (by simpa using hstop)
    · calc (((b :: q).dropWhile (· ≠ slash)).dropWhile (· = slash)).length
          ≤ ((b :: q).dropWhile (· ≠ slash)).length := (List.dropWhile_sublist _).length_le
        _ ≤ q.length := hrest
        _ < (b :: q).length := Nat.lt_succ_self _
        _ ≤ path.length := hlen

/-- **Components**: `skipelem` yields the runs in order, and no others. -/
lemma yields_iff_components : Yields path names ↔ names = components path := by
  constructor
  · intro h
    induction h with
    | @done p h =>
      rcases skipelem_cases p with ⟨-, hc⟩ | ⟨nm, q, hs, -⟩
      · exact hc.symm
      · rw [h] at hs
        cases hs
    | @next p nm q nms h _ ih =>
      rcases skipelem_cases p with ⟨hs, -⟩ | ⟨nm', q', hs, hc, -⟩
      · rw [h] at hs
        cases hs
      · rw [h] at hs
        cases hs
        rw [hc, ih]
  · rintro rfl
    induction hn : path.length using Nat.strong_induction_on generalizing path with
    | _ n ih =>
      rcases skipelem_cases path with ⟨hs, hc⟩ | ⟨nm, q, hs, hc, hlt⟩
      · rw [hc]
        exact .done hs
      · rw [hc]
        exact .next hs (ih q.length (hn ▸ hlt) rfl)

/-! ### The tree of directories -/

/-- The bytes of an inode, as they are on disk. -/
def bytesOf (s : Disk) (x : ℕ) : List Byte :=
  (List.range (s.dinodes x).size).map fun o =>
    if diskRefs s x (slot (o / BSIZE)) = 0 then 0
    else s.blocks (diskRefs s x (slot (o / BSIZE))) (o % BSIZE)

/-- The inode that inode `x` has under a name, if it is a directory. -/
def child (s : Disk) (x : ℕ) (name : List Byte) : Option ℕ :=
  if (s.dinodes x).type = .dir then (findName name (dirents (bytesOf s x))).map Dirent.inum
  else none

/-- The inode that a path leads to from inode `x`. -/
def resolve (s : Disk) (x : ℕ) (names : List (List Byte)) : Option ℕ := names.foldlM (child s) x

lemma resolve_cons : resolve s x (name :: names) = (child s x name).bind (resolve s · names) :=
  List.foldlM_cons

/-- The inode a path starts from. -/
def origin (s : Disk) (cwd : ℕ) (path : List Byte) : ℕ :=
  if path.head? = some slash then ROOTINO else (s.inodes cwd).inum

lemma fileBytes_eq (hc : Consistent sb s) (hρ : Held ρ s) (hi : 0 < ρ i)
    (hv : (s.inodes i).valid = true) : fileBytes s i = bytesOf s (s.inodes i).inum := by
  unfold fileBytes bytesOf
  rw [hc.copy_eq hρ hi hv]
  refine List.map_congr_left fun o _ => ?_
  rw [content_eq, blockIn, hc.refs_eq hρ hi hv]

lemma entries_eq (hc : Consistent sb s) (hρ : Held ρ s) (hi : 0 < ρ i)
    (hv : (s.inodes i).valid = true) : entries s i = dirents (bytesOf s (s.inodes i).inum) :=
  congrArg dirents (fileBytes_eq hc hρ hi hv)

/-- Inodes may have been freed since; the others are the same. -/
structure Later (s t : Disk) : Prop where
  blocks : t.blocks = s.blocks
  dinode : ∀ y, t.dinodes y = s.dinodes y ∨ (t.dinodes y).type = .free

lemma Later.same (h : Later s t) (hs : SameDisk t u) : Later s u :=
  ⟨hs.blocks.trans h.blocks, fun y => hs.dinodes ▸ h.dinode y⟩

lemma Later.freed (h : Later s t) (hf : Freed x t u) : Later s u := by
  refine ⟨hf.blocks.trans h.blocks, fun y => ?_⟩
  by_cases hy : y = x
  · exact Or.inr (hy ▸ hf.type)
  · rw [hf.other y hy]
    exact h.dinode y

lemma later_of_same (hs : SameDisk s t) : Later s t :=
  ⟨hs.blocks, fun _ => Or.inl (congrFun hs.dinodes _)⟩

lemma Later.child (h : Later s t) (hx : (t.dinodes x).type ≠ .free) (name : List Byte) :
    child t x name = child s x name := by
  have hd := (h.dinode x).resolve_right hx
  have hr : ∀ k, diskRefs t x k = diskRefs s x k :=
    fun k => refAt_congr hd (fun _ _ _ => congrFun h.blocks _) k
  have hb : bytesOf t x = bytesOf s x := by
    unfold bytesOf
    rw [hd, h.blocks]
    simp only [hr]
  unfold FsPath.child
  rw [hd, hb]

/-! ### The walk -/

/-- Only this may stop the walk: there is no room in the table, a directory names a free inode, or
a directory is not whole. -/
def WalkStop (s : Disk) (e : Panic) : Prop :=
  e = .iget ∨ e = .ilock_no_type ∨
    ∃ x, (s.dinodes x).type = .dir ∧ (s.dinodes x).size % DESIZE ≠ 0

lemma ilock_disk (hr : 0 < (s.inodes i).ref) :
    wp (ilock i) (fun _ t => SameDisk s t) (· = .ilock_no_type) s := by
  unfold ilock
  simp only [wp_bind, wp_get]
  rw [if_neg (by omega)]
  split
  · exact SameDisk.refl s
  · simp only [wp_bind, setInode, wp_modify]
    split
    · exact rfl
    · exact ⟨rfl, rfl, rfl⟩

lemma iunlock_run (hr : 0 < (s.inodes i).ref) : iunlock i s = .ok ((), s) := by
  have hw : wp (iunlock i) (fun _ t => t = s) (fun _ => False) s := by
    unfold iunlock
    simp only [wp_bind, wp_get]
    rw [if_neg (by omega)]
    exact rfl
  obtain ⟨_, t, hrun, rfl⟩ := wp_returns hw
  exact hrun

lemma walk_ilock (h : Held ρ s) (hc : Consistent sb s) (hi : 0 < ρ ip) (hl : Later u s) :
    wp (ilock ip) (fun _ t => (Held ρ t ∧ Keep ρ s t ∧ (t.inodes ip).valid = true) ∧
      Consistent sb t ∧ Later u t) (WalkStop v) s := by
  have hr : 0 < (s.inodes ip).ref := by rwa [h.ref ip]
  have hstable := wp_any ((stable_consistent sb).wp_ilock h hc ip)
  refine wp_mono (wp_join hstable (ilock_disk hr)) ?_ fun e he => Or.inr (Or.inl he)
  rintro _ t ⟨⟨⟨h1, h2, -, h3⟩, h4⟩, hd⟩
  exact ⟨⟨h1, h2, h3⟩, h4, hl.same hd⟩

lemma walk_iunlockput (h : Held ρ s) (hc : Consistent sb s) (hi : 0 < ρ ip) (hl : Later u s) :
    wp (iunlockput ip) (fun _ t => (Held (drop ρ ip) t ∧ Keep (drop ρ ip) s t) ∧
      Consistent sb t ∧ Later u t) E s := by
  unfold iunlockput
  rw [wp_bind, wp_of_run (iunlock_run (by rwa [h.ref ip]))]
  refine wp_post (wp_join (iput_held h hi) (iput_disk hc h hi)) ?_
  rintro _ t ⟨ht, hct, ⟨-, hd⟩ | ⟨-, hf⟩⟩
  · exact ⟨ht, hct, hl.same hd⟩
  · exact ⟨ht, hct, hl.freed hf⟩

/-- `dirlookup` has taken the step that the tree has. -/
lemma walk_dirlookup (h : Held ρ s) (hc : Consistent sb s) (hi : 0 < ρ dp)
    (hv : (s.inodes dp).valid = true) (ht : (s.inodes dp).copy.type = .dir) (hl : Later u s)
    (name : List Byte) :
    wp (dirlookup sb dp name) (fun r t => (Held (takeO ρ (r.map Prod.fst)) t ∧ Keep ρ s t) ∧
      (Consistent sb t ∧ Later u t) ∧ r.map (fun p => (t.inodes p.1).inum) =
        child u (s.inodes dp).inum name) (WalkStop u) s := by
  have hdir := hc.dir h hi hv ht
  have hcopy := hc.copy_eq h hi hv
  have hfree : (s.dinodes (s.inodes dp).inum).type ≠ .free := by
    rw [hcopy, ht]
    decide
  have hchild : (findName name (entries s dp)).map Dirent.inum = child u (s.inodes dp).inum name := by
    rw [← hl.child hfree, entries_eq hc h hi hv, child, if_pos (by rw [hcopy, ht])]
  have hstable := wp_any ((stable_consistent sb).wp_dirlookup name h hc hi hv)
  refine wp_mono (wp_join hstable (dirlookup_spec hdir name)) ?_ ?_
  · rintro r t ⟨⟨h1, h2, h3⟩, hr⟩
    rw [← hchild]
    cases r with
    | none =>
      obtain ⟨rfl, hnone⟩ := hr
      rw [List.drop_zero] at hnone
      exact ⟨⟨h1, h2⟩, ⟨h3, hl⟩, by rw [hnone]; rfl⟩
    | some r =>
      obtain ⟨i, off⟩ := r
      obtain ⟨j, e, -, -, hfind, hrun⟩ := hr
      have hget := iget_panic (s := s) (s.inodes dp).dev e.inum
      rw [wp_of_run hrun] at hget
      rw [List.drop_zero] at hfind
      refine ⟨⟨h1, h2⟩, ⟨h3, hl.same hget.2.2⟩, ?_⟩
      rw [hfind]
      exact congrArg some hget.2.1
  · rintro e (he | ⟨hw, -⟩)
    · exact Or.inl he
    · refine Or.inr (Or.inr ⟨(s.inodes dp).inum, ?_, ?_⟩)
      all_goals rw [← (hl.dinode _).resolve_right hfree, hcopy]
      · exact ht
      · exact hw

/-- **The loop of `namex`** is the fold of the steps of the tree. -/
lemma namexLoop_spec (fuel : ℕ) (hfuel : path.length < fuel) (h : Held (take ρ ip) s)
    (hc : Consistent sb s) (hl : Later u s) :
    wp (namexLoop sb false fuel ip path) (fun r t => r.map (fun p => (t.inodes p.1).inum) =
      resolve u (s.inodes ip).inum (components path)) (WalkStop u) s := by
  induction fuel generalizing s ip path with
  | zero => omega
  | succ fuel ih =>
    unfold namexLoop
    rcases skipelem_cases path with ⟨hs, hcomp⟩ | ⟨name, rest, hs, hcomp, hlt⟩
    · rw [hs, hcomp]
      exact rfl
    rw [hs, hcomp, resolve_cons]
    have hip := take_self_pos ρ ip
    simp only [wp_bind, wp_get]
    refine wp_post (walk_ilock h hc hip hl) ?_
    rintro _ t1 ⟨⟨h1, hk1, hv1⟩, hc1, hl1⟩
    rw [← (hk1 ip hip).1]
    have hcopy := hc1.copy_eq h1 hip hv1
    by_cases ht : (t1.inodes ip).copy.type = .dir
    swap
    · -- not a directory
      have hnone : child u (t1.inodes ip).inum name = none := by
        have hfree := hc1.type_ne h1 hip hv1
        rw [← hl1.child (by rwa [hcopy]), child, if_neg (by rwa [hcopy])]
      rw [if_pos ht, wp_bind, hnone]
      exact wp_post (walk_iunlockput h1 hc1 hip hl1) fun _ _ _ => rfl
    rw [if_neg (by simpa using ht), if_neg (by simp), wp_bind]
    refine wp_post (walk_dirlookup h1 hc1 hip hv1 ht hl1 name) ?_
    rintro r t2 ⟨⟨h2, hk2⟩, ⟨hc2, hl2⟩, hr⟩
    rw [← hr]
    cases r with
    | none =>
      rw [wp_bind]
      exact wp_post (walk_iunlockput h2 hc2 hip hl2) fun _ _ _ => rfl
    | some r =>
      obtain ⟨next, off⟩ := r
      have hnext := take_self_pos ρ next
      simp only [wp_bind]
      refine wp_post (walk_iunlockput h2 hc2 (take_pos hip) hl2) ?_
      rintro _ t3 ⟨⟨h3, hk3⟩, hc3, hl3⟩
      simp only [Option.map_some, takeO, drop_take_take] at h3 hk3
      have hrec := ih (by omega : rest.length < fuel) h3 hc3 hl3
      rwa [(hk3 next hnext).1] at hrec

/-! ### The parent -/

/-- The last step of a walk: `dirlookup` in the directory that `nameiparent` has returned. -/
def lookupIn (sb : Superblock) (dp : ℕ) (name : List Byte) : F (Option ℕ) := do
  match ← dirlookup sb dp name with
  | none => do
    iunlockput dp
    pure none
  | some (next, _) => do
    iunlockput dp
    pure (some next)

lemma get_run {β : Type} (f : Disk → F β) (s : Disk) : (get >>= f) s = f s s := rfl

lemma iunlock_state (hrun : iunlock i s = .ok ((), t)) : t = s := by
  unfold iunlock at hrun
  rw [get_run] at hrun
  split at hrun
  · cases hrun
  · cases hrun
    rfl

lemma namexLoop_end {fuel : ℕ} (hfuel : 0 < fuel) :
    namexLoop sb false fuel ip [] = pure (some (ip, [])) := by
  obtain ⟨n, rfl⟩ := Nat.exists_eq_succ_of_ne_zero hfuel.ne'
  rfl

/-- Where the loop of `namex` stops for `nameiparent`, it takes one more step for `namei`. -/
lemma namexLoop_parent (fuel : ℕ) (hfuel : path.length < fuel)
    (hrun : namexLoop sb true fuel ip path s = .ok (some (dp, name), t)) :
    (namexLoop sb false fuel ip path >>= fun r => pure (r.map Prod.fst)) s =
      lookupIn sb dp name t := by
  induction fuel generalizing s ip path with
  | zero => omega
  | succ fuel ih =>
    unfold namexLoop at hrun ⊢
    rcases skipelem_cases path with ⟨hs, -⟩ | ⟨nm, rest, hs, -, hlt⟩
    · rw [hs] at hrun
      simp only [if_true, bind_run] at hrun
      split at hrun
      · cases hrun
      · cases hrun
    rw [hs] at hrun ⊢
    dsimp only at hrun ⊢
    rw [bind_run] at hrun
    rw [bind_assoc, bind_run]
    rcases hlock : ilock ip s with e | ⟨_, t1⟩
    · rw [hlock] at hrun
      cases hrun
    rw [hlock] at hrun
    dsimp only at hrun ⊢
    rw [get_run] at hrun
    rw [bind_assoc, get_run]
    by_cases ht : (t1.inodes ip).copy.type ≠ .dir
    · rw [if_pos ht, bind_run] at hrun
      split at hrun <;> cases hrun
    rw [if_neg ht] at hrun ⊢
    rw [if_neg (by simp)]
    by_cases hrest : rest = []
    · -- the last component
      rw [if_pos ⟨rfl, hrest⟩, bind_run] at hrun
      split at hrun
      · rename_i u hu
        cases hrun
        rw [iunlock_state hu, hrest]
        unfold lookupIn
        rw [bind_assoc]
        refine congrFun (congrArg (dirlookup sb dp name >>= ·) (funext fun r => ?_)) t1
        cases r with
        | none =>
          dsimp only
          rw [bind_assoc]
          rfl
        | some r =>
          dsimp only
          rw [namexLoop_end (by omega), bind_assoc]
          rfl
      · cases hrun
    · rw [if_neg (by simp [hrest]), bind_run] at hrun
      rw [bind_assoc, bind_run]
      rcases hlook : dirlookup sb ip nm t1 with e | ⟨r, t2⟩
      all_goals rw [hlook] at hrun
      · cases hrun
      · cases r with
        | none =>
          dsimp only at hrun
          rw [bind_run] at hrun
          split at hrun <;> cases hrun
        | some r =>
          dsimp only at hrun ⊢
          rw [bind_run] at hrun
          rw [bind_assoc, bind_run]
          rcases hput : iunlockput ip t2 with e | ⟨_, t3⟩
          all_goals rw [hput] at hrun
          · cases hrun
          · exact ih (by omega) hrun

lemma iput_none (h : Consistent sb s) (hρ : Held ρ s) (hi : 0 < ρ i) :
    wp (do
      iput i
      pure none) (fun (r : Option (ℕ × List Byte)) _ => r = none) E s := by
  rw [wp_bind]
  exact wp_post (iput_disk h hρ hi) fun _ _ _ => rfl

/-- Without a component there is no parent. -/
lemma nameiparent_none (h : Held ρ s) (hc : Consistent sb s) (hcwd : 0 < ρ cwd)
    (hp : components path = []) :
    wp (nameiparent sb cwd path) (fun r _ => r = none) (· = .iget) s := by
  have hs : skipelem path = none := by
    rcases skipelem_cases path with ⟨hs, -⟩ | ⟨nm, rest, -, hc', -⟩
    · exact hs
    · rw [hp] at hc'
      cases hc'
  have hloop : ∀ ip t, Held (take ρ ip) t → Consistent sb t →
      wp (namexLoop sb true (path.length + 1) ip path) (fun r _ => r = none) (· = .iget) t := by
    intro ip t ht hct
    unfold namexLoop
    rw [hs]
    exact iput_none hct ht (take_self_pos ρ ip)
  unfold nameiparent namex
  split
  · rw [wp_bind]
    have hstable := wp_any ((stable_consistent sb).wp_iget h hc ROOTINO)
    refine wp_post (wp_join hstable (iget_panic ROOTDEV ROOTINO)) ?_
    rintro ip t ⟨⟨⟨h1, -⟩, h2⟩, -⟩
    exact hloop ip t h1 h2
  · rw [wp_bind]
    refine wp_post (wp_join (idup_held h hcwd) (consistent_idup hc h hcwd)) ?_
    rintro ip t ⟨⟨rfl, h1, -⟩, h2⟩
    exact hloop _ t h1 h2

lemma namei_eq (sb : Superblock) (cwd : ℕ) (path : List Byte) : namei sb cwd path =
    (if path.head? = some slash then iget ROOTDEV ROOTINO else idup cwd) >>= fun ip =>
      namexLoop sb false (path.length + 1) ip path >>= fun r => pure (r.map Prod.fst) := by
  unfold namei namex
  split <;>
  · rw [bind_assoc]
    refine congrArg (_ >>= ·) (funext fun ip => congrArg (_ >>= ·) (funext fun r => ?_))
    cases r <;> rfl

lemma namei_of_parent (hrun : nameiparent sb cwd path s = .ok (some (dp, name), t)) :
    namei sb cwd path s = lookupIn sb dp name t := by
  have hparent : nameiparent sb cwd path = (if path.head? = some slash then iget ROOTDEV ROOTINO
      else idup cwd) >>= fun ip => namexLoop sb true (path.length + 1) ip path := by
    unfold nameiparent namex
    split <;> rfl
  rw [hparent, bind_run] at hrun
  rw [namei_eq, bind_run]
  split at hrun
  · exact namexLoop_parent _ (Nat.lt_succ_self _) hrun
  · cases hrun

/-! ### namei -/

/-- `iget` or `idup` has taken the inode where the path starts. -/
lemma namei_resolve (h : Held ρ s) (hc : Consistent sb s) (hcwd : 0 < ρ cwd) :
    wp (namei sb cwd path) (fun r t => r.map (fun i => (t.inodes i).inum) =
      resolve s (origin s cwd path) (components path)) (WalkStop s) s := by
  have hloop : ∀ ip t, Held (take ρ ip) t → Consistent sb t → SameDisk s t →
      (t.inodes ip).inum = origin s cwd path →
      wp (namexLoop sb false (path.length + 1) ip path >>= fun r => pure (r.map Prod.fst))
        (fun r v => r.map (fun i => (v.inodes i).inum) =
          resolve s (origin s cwd path) (components path)) (WalkStop s) t := by
    intro ip t ht hct hd ho
    rw [← ho, wp_bind]
    refine wp_post (namexLoop_spec _ (Nat.lt_succ_self _) ht hct (later_of_same hd)) ?_
    intro q u hq
    rw [wp_pure, Option.map_map]
    exact hq
  rw [namei_eq, wp_bind]
  unfold origin at hloop ⊢
  split_ifs at hloop ⊢
  · have hstable := wp_any ((stable_consistent sb).wp_iget h hc ROOTINO)
    refine wp_mono (wp_join hstable (iget_panic ROOTDEV ROOTINO)) ?_ fun e he => Or.inl he
    rintro ip t ⟨⟨⟨h1, -, h2⟩, h3⟩, -, -, h4⟩
    exact hloop ip t h1 h3 h4 h2
  · have hdisk : wp (idup cwd) (fun _ t => SameDisk s t) (fun _ => True) s := ⟨rfl, rfl, rfl⟩
    refine wp_post (wp_join (idup_held h hcwd) (wp_join hdisk (consistent_idup hc h hcwd))) ?_
    rintro ip t ⟨⟨rfl, h1, -, h2⟩, h3, h4⟩
    exact hloop _ t h1 h4 h3 h2

/-- The references after a walk that has returned `r`. -/
def OneMore (s t : Disk) (r : Option ℕ) : Prop :=
  ∀ j, (t.inodes j).ref = (s.inodes j).ref + if r = some j then 1 else 0

lemma oneMore_of_held {r : Option ℕ} (h : Held ρ s) (ht : Held (takeO ρ r) t) : OneMore s t r := by
  intro j
  rw [h.ref, ht.ref]
  cases r with
  | none => rfl
  | some i =>
    by_cases hij : i = j
    · subst hij
      rw [if_pos rfl]
      exact take_self ρ i
    · rw [if_neg (by simpa using hij)]
      exact take_ne ρ (Ne.symm hij)

/-- **Path lookup follows the components of the path.** -/
theorem namei_follows_components (h : FsSpace.Ordered sb s) (hcwd : 0 < (s.inodes cwd).ref)
    (path : List Byte) :
    (∀ names, Yields path names ↔ names = components path) ∧
    wp (namei sb cwd path) (fun r t => r.map (fun i => (t.inodes i).inum) =
      resolve s (origin s cwd path) (components path) ∧ OneMore s t r) (WalkStop s) s ∧
    (components path = [] → wp (nameiparent sb cwd path) (fun r _ => r = none) (· = .iget) s) ∧
    wp (nameiparent sb cwd path) (fun r t => OneMore s t (r.map Prod.fst) ∧
      ∀ dp name, r = some (dp, name) → namei sb cwd path s = lookupIn sb dp name t)
      (fun _ => True) s := by
  obtain ⟨hρ, hc⟩ := h
  have hcwd : 0 < (fun i => (s.inodes i).ref) cwd := hcwd
  refine ⟨fun names => yields_iff_components, ?_, nameiparent_none hρ hc hcwd, ?_⟩
  · refine wp_post (wp_join (stable_true.wp_namei path hρ trivial hcwd)
      (namei_resolve hρ hc hcwd)) ?_
    exact fun r t ht => ⟨ht.2, oneMore_of_held hρ ht.1.1⟩
  · have hrefs : wp (nameiparent sb cwd path) (fun r t => Held (takeO _ (r.map Prod.fst)) t ∧ _)
        (fun _ => True) s := stable_true.wp_namex path true hρ trivial hcwd
    unfold wp at hrefs ⊢
    cases hrun : nameiparent sb cwd path s with
    | error e => trivial
    | ok q =>
      obtain ⟨r, t⟩ := q
      rw [hrun] at hrefs
      refine ⟨oneMore_of_held hρ hrefs.1, ?_⟩
      rintro dp name rfl
      exact namei_of_parent hrun

/-- In the small image with an entry `a` for the root itself, `//a/a` leads to the root. -/
theorem namei_follows_components_small : ∃ s, wp (namei smallDisk 0 [47, 47, 97, 47, 97])
    (fun r t => r.map (fun i => (t.inodes i).inum) = some ROOTINO ∧ OneMore s t r)
    (WalkStop s) s := by
  have hrun : ∃ s, FsSpace.Run smallDisk FsSpace.smallImage s ∧ 0 < (s.inodes 0).ref ∧
      resolve s (origin s 0 [47, 47, 97, 47, 97]) [[97], [97]] = some ROOTINO := by
    refine ⟨_, .call (.dirlink 0 [97] ROOTINO) (.call (.ilock 0) (.call (.iget ROOTINO) .start
      trivial rfl) (by exact Nat.one_pos) rfl) ⟨Nat.one_pos, rfl⟩ rfl, Nat.one_pos, ?_⟩
    rfl
  obtain ⟨s, hrun, href, hres⟩ := hrun
  have hord := hrun.ordered (FsSpace.ordered_boot FsSpace.acct_smallImage
    FsSpace.noHoles_smallImage fun _ => rfl)
  have hcomp : components [47, 47, 97, 47, 97] = [[97], [97]] := by rfl
  obtain ⟨-, hwalk, -⟩ := namei_follows_components hord href [47, 47, 97, 47, 97]
  rw [hcomp, hres] at hwalk
  exact ⟨s, hwalk⟩

end Xv6.FsPath
