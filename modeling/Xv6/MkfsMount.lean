import Xv6.MkfsImage

/-!
Booting from the image of `mkfs`: the kernel reads the inodes, the free map and the files from the
sectors that `main` has left. The one fault is the last step of `main`, which adds a block to the
size of the root directory also when the directory ends at the end of a block.
-/

namespace Xv6.Mkfs

open Xv6.ByteMem Xv6.Wp
open Xv6.Fs (BSIZE NDIRECT NINDIRECT MAXFILE BPB DIRSIZ ROOTDEV ROOTINO Superblock Dinode Disk
  Dirent DESIZE Ftype entry setEntry strncmp strncpy slash Acct refAt slot NSLOT)

variable {t : St} {C : ℕ → List Byte} {x : ℕ}

/-! ### The free map -/

lemma getLsbD_one_shift (i : ℕ) {j : ℕ} (hj : j < 8) :
    (1#8 <<< i).getLsbD j = decide (j = i) := by
  rw [BitVec.getLsbD_shiftLeft, BitVec.getLsbD_one]
  by_cases h : j = i
  · subst h
    simp [hj]
  · simp [hj, h]
    omega

lemma getLsbD_bitmap (used o : ℕ) {j : ℕ} (hj : j < 8) :
    (bitmap used o).getLsbD j = decide (8 * o + j < used) := by
  induction used with
  | zero => simp [bitmap]
  | succ n ih =>
    have hstep : bitmap (n + 1) =
        Function.update (bitmap n) (n / 8) (bitmap n (n / 8) ||| (1#8 <<< (n % 8))) := by
      unfold bitmap
      rw [List.range_succ, List.foldl_append]
      rfl
    rw [hstep]
    by_cases ho : o = n / 8
    · subst ho
      rw [Function.update_self, BitVec.getLsbD_or, ih, getLsbD_one_shift _ hj, ← Bool.decide_or]
      exact decide_eq_decide.mpr (by omega)
    · rw [Function.update_of_ne ho, ih]
      exact decide_eq_decide.mpr (by omega)

/-! ### main -/

lemma zeroAll_spec {E : Fail → Prop} : ∀ (is : List ℕ) (t : St), (∀ b, t.sect b = fun _ => 0) →
    wp (zeroAll is) (fun _ t' => (∀ b, t'.sect b = fun _ => 0) ∧
      t'.nsect = is.foldl (fun n i => max n (i + 1)) t.nsect ∧ t'.freeinode = t.freeinode ∧
      t'.freeblock = t.freeblock) E t := by
  intro is
  induction is with
  | nil => intro t h; exact ⟨h, rfl, rfl, rfl⟩
  | cons i is ih =>
    intro t h
    rw [zeroAll, wp_bind]
    unfold wsect
    rw [wp_modify]
    refine ih _ fun b => ?_
    by_cases hb : b = i
    · rw [hb]
      exact Function.update_self _ _ _
    · exact (Function.update_of_ne hb _ _).trans (h b)

lemma zeroAll_range {E : Fail → Prop} (n : ℕ) : wp (zeroAll (List.range n)) (fun _ t =>
    (∀ b, t.sect b = fun _ => 0) ∧ t.nsect = n ∧ t.freeinode = 1 ∧ t.freeblock = nmeta)
    E start := by
  have hlen : (List.range n).foldl (fun n i => max n (i + 1)) 0 = n := by
    induction n with
    | zero => rfl
    | succ n ih =>
      rw [List.range_succ, List.foldl_append, ih]
      simp
  have h := zeroAll_spec (E := E) (List.range n) start fun _ => rfl
  rwa [show start.nsect = 0 from rfl, hlen] at h

lemma dinode_zero : (dinode fun _ => 0) = Dinode.zero := by
  have hshort : ∀ o, shortAt (fun _ => 0) o = 0 := fun o => by simp [shortAt, Fs.short]
  unfold dinode dsize daddr
  simp only [Fs.entry_zero, ite_self, hshort]
  rfl

/-- The image before the first inode. -/
lemma inv_empty (hn : t.nsect = FSSIZE) (hi : t.freeinode = 1) (hb : t.freeblock = nmeta)
    (hz : ∀ b, b ≠ 1 → t.sect b = fun _ => 0) : Inv t fun _ => [] := by
  have hwin : ∀ y, dinodes t.sect y = dinode fun _ => 0 := by
    intro y
    unfold dinodes
    split_ifs with hy
    · congr 1
      funext o
      have hne : IBLOCK y ≠ 1 := by
        have : sb.inodestart = 32 := by decide
        unfold IBLOCK
        generalize y / IPB = q
        omega
      unfold window
      rw [hz _ hne]
    · exact dinode_zero.symm
  have htype : ∀ y, (dinodes t.sect y).type = .free := fun y => by rw [hwin]; rfl
  have hR : ∀ y l, refAt (dinodes t.sect) t.sect y l = 0 := by
    intro y l
    unfold refAt
    rw [if_pos (htype y)]
  have hmeta : nmeta = 46 := by decide
  refine ⟨hn, fun y => ?_, fun y => ?_, ⟨⟨?_, ?_, ?_⟩, ?_, ?_, ?_⟩, fun y => ⟨fun bn => ?_, ?_⟩⟩
  · rw [hi]
    exact iff_of_false (fun hc => hc (htype y)) (by omega)
  · rw [hwin]
    rfl
  · exact fun y _ k _ hy => absurd (hR y k) hy
  · exact fun y k hy => absurd (hR y k) hy
  · intro b hb'
    rw [hb, decide_eq_true_iff, nmeta_eq]
    refine ⟨Or.inl, fun h => h.elim id ?_⟩
    rintro ⟨y, k, hy⟩
    rw [hR] at hy
    omega
  · rw [hb]
    decide
  · exact fun y o hy => absurd (hR _ _) hy
  · intro b hge _
    exact hz b (by omega)
  · exact iff_of_false (fun hc => hc (hR _ _)) (by unfold nblk; simp [BSIZE])
  · exact iff_of_false (fun hc => hc (hR _ _)) (by unfold nblk; simp [BSIZE])

/-- The entries of the root directory, the files from inode `j` on. -/
def fileEntries (j : ℕ) (files : List File) : List Dirent :=
  files.mapIdx fun k f => ⟨j + k, strncpy DIRSIZ (shortname f.path)⟩

def rootEntries (files : List File) : List Dirent :=
  ⟨ROOTINO, strncpy DIRSIZ dot⟩ :: ⟨ROOTINO, strncpy DIRSIZ dotdot⟩ :: fileEntries 2 files

lemma fileEntries_cons (j : ℕ) (f : File) (fs : List File) : fileEntries j (f :: fs) =
    ⟨j, strncpy DIRSIZ (shortname f.path)⟩ :: fileEntries (j + 1) fs := by
  unfold fileEntries
  rw [List.mapIdx_cons]
  congr 2
  funext k g
  rw [Nat.add_assoc, Nat.add_comm 1 k]

lemma dirent_eq {j : ℕ} (hj : j < 2 ^ 16) (name : List Byte) :
    dirent j name = Dirent.toBytes ⟨j, strncpy DIRSIZ name⟩ := by
  unfold dirent
  rw [Nat.mod_eq_of_lt hj]

lemma withFiles_root : ∀ (files : List File) (C : ℕ → List Byte) (j : ℕ), ROOTINO < j →
    j + files.length ≤ NINODES →
    withFiles C j files ROOTINO = C ROOTINO ++ (fileEntries j files).flatMap Dirent.toBytes := by
  intro files
  induction files with
  | nil => intro C j _ _; simp [withFiles, fileEntries]
  | cons f fs ih =>
    intro C j hj hlen
    rw [List.length_cons] at hlen
    have hn : NINODES = 200 := by decide
    rw [withFiles, ih _ (j + 1) (by omega) (by omega), fileEntries_cons, List.flatMap_cons]
    unfold withFile
    rw [Function.update_of_ne (by omega), Function.update_self, dirent_eq (by omega),
      List.append_assoc]

lemma withFiles_other : ∀ (files : List File) (C : ℕ → List Byte) (j : ℕ), x ≠ ROOTINO →
    (x < j ∨ j + files.length ≤ x) → withFiles C j files x = C x := by
  intro files
  induction files with
  | nil => intro C j _ _; rfl
  | cons f fs ih =>
    intro C j hx hlen
    rw [List.length_cons] at hlen
    rw [withFiles, ih _ (j + 1) hx (by omega)]
    unfold withFile
    rw [Function.update_of_ne (by omega), Function.update_of_ne hx]

lemma withFiles_file : ∀ (files : List File) (C : ℕ → List Byte) (j k : ℕ) (hk : k < files.length),
    ROOTINO < j → withFiles C j files (j + k) = files[k].content := by
  intro files
  induction files with
  | nil => intro C j k hk; exact absurd hk (Nat.not_lt_zero k)
  | cons f fs ih =>
    intro C j k hk hj
    rw [withFiles]
    cases k with
    | zero =>
      rw [withFiles_other fs _ (j + 1) (by omega) (by omega)]
      exact Function.update_self _ _ _
    | succ k =>
      rw [show j + (k + 1) = j + 1 + k by omega]
      exact ih _ (j + 1) k (Nat.lt_of_succ_lt_succ hk) (by omega)

/-- The contents of the inodes of the image. -/
def contents (files : List File) : ℕ → List Byte :=
  withFiles (Function.update (fun _ => []) ROOTINO
    (dirent ROOTINO dot ++ dirent ROOTINO dotdot)) 2 files

lemma length_flatMap_toBytes (es : List Dirent) (h : ∀ e ∈ es, e.name.length = DIRSIZ) :
    (es.flatMap Dirent.toBytes).length = DESIZE * es.length := by
  induction es with
  | nil => rfl
  | cons e es ih =>
    have he := h e List.mem_cons_self
    rw [List.flatMap_cons, List.length_append, ih fun e' he' => h e' (List.mem_cons_of_mem _ he'),
      List.length_cons]
    unfold Dirent.toBytes
    rw [List.length_cons, List.length_cons, he, Nat.mul_add]
    unfold DESIZE
    omega

lemma rootEntries_name (files : List File) : ∀ e ∈ rootEntries files, e.name.length = DIRSIZ := by
  intro e he
  rcases List.mem_cons.mp he with rfl | he
  · exact length_strncpy _ _
  rcases List.mem_cons.mp he with rfl | he
  · exact length_strncpy _ _
  obtain ⟨k, hk, rfl⟩ := List.mem_mapIdx.mp he
  exact length_strncpy _ _

lemma contents_root {files : List File} (h : 2 + files.length ≤ NINODES) :
    contents files ROOTINO = (rootEntries files).flatMap Dirent.toBytes := by
  unfold contents
  rw [withFiles_root files _ 2 (by decide) h, Function.update_self, rootEntries, List.flatMap_cons,
    List.flatMap_cons, dirent_eq (by decide), dirent_eq (by decide), List.append_assoc]

lemma length_contents_root {files : List File} (h : 2 + files.length ≤ NINODES) :
    (contents files ROOTINO).length = DESIZE * (files.length + 2) := by
  rw [contents_root h, length_flatMap_toBytes _ (rootEntries_name files)]
  unfold rootEntries fileEntries
  simp only [List.length_cons, List.length_mapIdx]

/-- What `main` leaves: the contents, but for the size of the root directory. -/
structure Written (t : St) (files : List File) : Prop where
  used : ∀ x, (dinodes t.sect x).type ≠ .free ↔ 1 ≤ x ∧ x < files.length + 2
  size : ∀ x, x ≠ ROOTINO → (dinodes t.sect x).size = (contents files x).length
  root : (dinodes t.sect ROOTINO).size =
    ((contents files ROOTINO).length / BSIZE + 1) * BSIZE
  layout : Layout (refAt (dinodes t.sect) t.sect) t.sect t.freeblock (contents files)
  filled : ∀ x, Filled (refAt (dinodes t.sect) t.sect) x (nblk (contents files x).length)
  bits : ∀ b, b < FSSIZE → bit t.sect b = decide (b < t.freeblock)

lemma nmeta_46 : nmeta = 46 := by decide

/-- The last two steps of `main`. -/
lemma finish_spec {E : Fail → Prop} {files : List File} (h : Inv t (contents files))
    (hi : t.freeinode = files.length + 2)
    (hroot : (contents files ROOTINO).length ≤ MAXFILE * BSIZE) :
    wp (do
      fixRoot ROOTINO
      let s ← get
      balloc s.freeblock) (fun _ t' => Written t' files) E t := by
  have hmax := max_size_lt
  have hB : BSIZE = 1024 := rfl
  rw [wp_bind]
  unfold fixRoot
  rw [wp_bind]
  refine rinode_spec h.nsect (by decide) ?_
  have hwin := dinode_window (show ROOTINO < NINODES by decide) t.sect
  have hsize : dsize (window t.sect ROOTINO) = (contents files ROOTINO).length := by
    rw [← h.size ROOTINO, ← hwin]
    rfl
  rw [hsize]
  set n := ((contents files ROOTINO).length / BSIZE + 1) * BSIZE with hn
  have hn32 : n < 2 ^ 32 := by
    rw [hn, hB]
    have : MAXFILE * BSIZE = 274432 := by decide
    omega
  refine winode_spec h.nsect (by decide) fun u hun hfi hfb hsect hdin => ?_
  rw [dinode_setDsize _ hn32, hwin] at hdin
  rw [wp_bind, wp_get]
  have hle : u.freeblock ≤ FSSIZE := hfb ▸ h.layout.le
  have hF : FSSIZE = 2000 := by decide
  unfold balloc
  rw [if_pos (by rw [hB]; omega)]
  refine wsect_spec (by rw [hun]; decide) ?_
  -- the free map is behind the inodes and before the data blocks
  set v := Function.update u.sect sb.bmapstart (bitmap u.freeblock) with hv
  have hvdin : dinodes v = dinodes u.sect := by
    funext x
    unfold dinodes
    split_ifs with hx
    · unfold window
      have hne : IBLOCK x ≠ sb.bmapstart := by
        have h1 : x < 200 := hx
        have h2 : sb.bmapstart = 45 := by decide
        have h3 : sb.inodestart = 32 := by decide
        unfold IBLOCK
        rw [show IPB = 16 by decide]
        omega
      rw [hv, Function.update_of_ne hne]
    · rfl
  have hvsect : ∀ b, nmeta ≤ b → v b = t.sect b := by
    intro b hb
    have h2 : sb.bmapstart = 45 := by decide
    rw [hv, Function.update_of_ne (by rw [nmeta_46] at hb; omega), hsect b hb]
  have hrefs : refAt (dinodes v) v = refAt (dinodes t.sect) t.sect := by
    rw [hvdin, hdin, refAt_resize]
    funext y l
    refine Fs.refAt_congr rfl (fun c hc he => hvsect c ?_) l
    rw [← he]
    exact (h.layout.lt (by rw [he]; exact hc)).1
  change Written { u with sect := v } files
  refine ⟨fun x => ?_, fun x hx => ?_, ?_, ?_, ?_, fun b hb => ?_⟩
  · rw [hvdin, hdin, ← hi, ← h.used x]
    by_cases hx : x = ROOTINO
    · rw [hx, Function.update_self]
    · rw [Function.update_of_ne hx]
  · rw [hvdin, hdin, Function.update_of_ne hx, h.size]
  · rw [hvdin, hdin, Function.update_self]
  · rw [hrefs, hfb]
    exact h.layout.congr hvsect
  · rw [hrefs]
    exact h.filled
  · have hbb : BBLOCK b = sb.bmapstart := by
      unfold BBLOCK
      rw [Nat.div_eq_of_lt (by rw [show BPB = 8192 by decide]; omega), Nat.zero_add]
    have hmod : b % BPB = b := Nat.mod_eq_of_lt (by rw [show BPB = 8192 by decide]; omega)
    have hvb : v sb.bmapstart = bitmap u.freeblock := Function.update_self _ _ _
    change (v (BBLOCK b) (b % BPB / 8)).getLsbD (b % 8) = decide (b < u.freeblock)
    rw [hbb, hvb, hmod, getLsbD_bitmap _ _ (Nat.mod_lt b (by decide)), Nat.div_add_mod]

/-- The blocks that the files and the root directory take. -/
def totalBlocks (files : List File) : ℕ :=
  nmeta + cost (nblk (DESIZE * (files.length + 2))) + (files.map fileCost).sum

/-- `main` is a variable here, or Lean runs it to see whether its specification is a function. -/
lemma main_spec {files : List File} {p : M Unit} (hp : p = main files) (hn : files.length ≤ NINODES - 2)
    (hmax : ∀ f ∈ files, f.content.length ≤ MAXFILE * BSIZE)
    (htotal : totalBlocks files ≤ FSSIZE) :
    wp p (fun _ t => Written t files) (BadName files) start := by
  subst hp
  have hN : NINODES = 200 := by decide
  have hmeta := nmeta_46
  have hF : FSSIZE = 2000 := by decide
  have hM : MAXFILE * BSIZE = 274432 := by decide
  have hD : DESIZE = 16 := by decide
  unfold main
  rw [wp_bind]
  -- the length stays a variable, or Lean runs the loop
  generalize hlen0 : FSSIZE = n
  refine wp_post (zeroAll_range n) fun _ t0 ⟨hz, hns, hfi, hfb⟩ => ?_
  rw [← hlen0] at hns
  rw [wp_bind]
  refine wsect_spec (by rw [hns]; decide) ?_
  set t1 : St := { t0 with sect := Function.update t0.sect 1 (put (fun _ => 0) 0 sbBytes) } with ht1
  have h1 : Inv t1 fun _ => [] :=
    inv_empty hns hfi hfb fun b hb => (Function.update_of_ne hb _ _).trans (hz b)
  have hfi1 : t1.freeinode = 1 := hfi
  have hfb1 : t1.freeblock = nmeta := hfb
  rw [wp_bind]
  refine wp_post (ialloc_spec h1 (by omega) (by omega) (by decide) (by decide))
    fun r t2 ⟨hr, h2, hfi2, hfb2⟩ => ?_
  rw [hfi1] at hr
  subst hr
  rw [if_pos (show (1 : ℕ) = ROOTINO from rfl), wp_bind]
  have hlen := length_dirent 1 dot
  have hlen' := length_dirent 1 dotdot
  have hc1 : cost (nblk 0) = 0 := by decide
  have hc2 : cost (nblk 16) = 1 := by decide
  have hc3 : cost (nblk 32) = 1 := by decide
  refine wp_post (iappend_spec h2 (Nat.le_refl 1) (by omega) (by decide)
    (by rw [hlen]; decide) (by simp only [hlen, hD, List.length_nil, hc1, hc2]; omega))
    fun _ t3 ⟨h3, hfi3, hp3⟩ => ?_
  simp only [hlen, hD, List.length_nil, Nat.zero_add, hc1, hc2, List.nil_append] at hp3 h3
  rw [wp_bind]
  refine wp_post (iappend_spec h3 (Nat.le_refl 1) (by omega) (by decide)
    (by rw [Function.update_self, hlen, hlen']; decide)
    (by simp only [Function.update_self, hlen, hlen', hD, hc2, hc3]; omega))
    fun _ t4 ⟨h4, hfi4, hp4⟩ => ?_
  simp only [Function.update_self, Function.update_idem, hlen, hlen', hD, hc2, hc3] at hp4 h4
  rw [wp_bind]
  have hroot : ∀ c : List Byte, (Function.update (fun _ => []) 1 c : ℕ → List Byte) ROOTINO = c :=
    fun c => Function.update_self _ _ _
  have hrootlen : (dirent 1 dot ++ dirent 1 dotdot).length = 32 := by
    rw [List.length_append, hlen, hlen', hD]
  unfold totalBlocks at htotal
  have hsum : 32 + 16 * files.length = 16 * (files.length + 2) := by omega
  have hadd := addFiles_spec files t4 _ h4 (by rw [show ROOTINO = 1 from rfl]; omega) (by omega) hmax
    (by rw [hroot, hrootlen, hD, hM]; omega)
    (by
      rw [hroot, hrootlen, hD, hsum, hc3]
      rw [hD] at htotal
      omega)
  rw [show t4.freeinode = 2 by omega] at hadd
  refine wp_post hadd fun _ t5 ⟨h5, hfi5⟩ => ?_
  exact finish_spec h5 (by omega)
    (by rw [length_contents_root (by omega), hD, hM]; omega)

/-! ### The kernel reads the image -/

lemma Written.acct {files : List File} (h : Written t files) :
    Acct sb (bit t.sect) (refAt (dinodes t.sect) t.sect) := by
  refine ⟨h.layout.acct.inj, h.layout.acct.range, fun b hb => ?_⟩
  rw [h.bits b hb]
  exact h.layout.acct.bits b hb

/-- The inode table of a kernel that has locked inode `x`. -/
def locked (sect : ℕ → Mem) (x : ℕ) : Disk :=
  { mount sect with
    inodes := Function.update (mount sect).inodes 0 ⟨ROOTDEV, x, 1, true, dinodes sect x⟩ }

lemma wp_readFile {Q : ℤ × List Byte → Disk → Prop} {E : Fs.Panic → Prop} {sect : ℕ → Mem}
    (ht : (dinodes sect x).type ≠ .free)
    (hQ : wp (Fs.readi sb 0 Fs.kernelDst 0 (dinodes sect x).size) Q E (locked sect x)) :
    wp (readFile x) Q E (mount sect) := by
  have hnone : ((List.range Fs.NINODE).find? fun i =>
      decide (0 < ((mount sect).inodes i).ref ∧ ((mount sect).inodes i).dev = ROOTDEV ∧
        ((mount sect).inodes i).inum = x)) = none := by
    rw [List.find?_eq_none]
    intro i _
    simp [mount]
  have hfirst : ((List.range Fs.NINODE).find? fun i =>
      decide (((mount sect).inodes i).ref = 0)) = some 0 := by
    rw [show Fs.NINODE = 49 + 1 from rfl, List.range_succ_eq_map, List.find?_cons]
    rfl
  unfold readFile Fs.iget Fs.ilock Fs.setInode
  simp only [wp_bind, wp_get, hnone, hfirst, wp_modify, wp_pure, Function.update_self, wp_ite]
  rw [if_neg (by omega)]
  simp only [Bool.false_eq_true, if_false, Function.update_idem]
  rw [if_neg (show ((mount sect).dinodes x).type ≠ .free from ht)]
  exact hQ

/-- A file of the image without holes is read as its contents, with zeros up to its size. -/
lemma Written.readFile {files : List File} (h : Written t files) {n : ℕ}
    (ht : (dinodes t.sect x).type ≠ .free) (hn : n = (dinodes t.sect x).size) (hlt : n < 2 ^ 32)
    (hall : ∀ bn, bn * BSIZE < n → bn < nblk (contents files x).length) :
    ∃ s, readFile x (mount t.sect) =
      .ok ((n, (List.range n).map fun o => (contents files x).getD o 0), s) := by
  have hself : (locked t.sect x).inodes 0 = ⟨ROOTDEV, x, 1, true, dinodes t.sect x⟩ := by
    unfold locked
    simp only [Function.update_self]
  have hcur : Fs.refs (locked t.sect x) 0 = refAt (dinodes t.sect) t.sect := by
    unfold Fs.refs Fs.cur
    rw [hself]
    exact congrArg (fun D => refAt D t.sect) (Function.update_eq_self _ _)
  have hR : ∀ bn, bn * BSIZE < n → refAt (dinodes t.sect) t.sect x (slot bn) ≠ 0 :=
    fun bn hbn => ((h.filled x).slots bn).mpr (hall bn hbn)
  have hspec := wp_readFile (x := x) (E := fun _ => False) ht
    (Q := fun r s => s = locked t.sect x ∧ r.1 = n ∧
      r.2 = (List.range n).map (Fs.byteAt (locked t.sect x) 0)) (by
    rw [← hn]
    refine Fs.readi_file ?_ ?_ ?_ hlt fun bn hbn => ?_
    · rw [hcur]
      exact h.acct
    · rw [hself]
      exact ht
    · rw [hself]
      exact hn
    · rw [hself, hcur]
      refine ⟨?_, hR bn hbn⟩
      by_contra hc
      refine hR bn hbn (Fs.refAt_beyond _ _ _ ?_)
      unfold slot NSLOT MAXFILE at *
      split_ifs <;> omega)
  obtain ⟨⟨r1, r2⟩, s, hrun, -, rfl, rfl⟩ := wp_returns hspec
  refine ⟨s, ?_⟩
  rw [hrun]
  congr 3
  refine List.map_congr_left fun o ho => ?_
  have hlt := List.mem_range.mp ho
  unfold Fs.byteAt
  rw [hself, hcur]
  refine h.layout.data x o (hR _ ?_)
  have := Nat.div_mul_le_self o BSIZE
  omega

/-! ### Well-formed images -/

/-- An entry that names nothing. -/
def noEntry : Dirent := ⟨0, List.replicate DIRSIZ 0⟩

/-- The kernel reads inode `x` as the bytes and nothing else. -/
def ReadsAs (d : Disk) (x : ℕ) (bs : List Byte) : Prop :=
  (d.dinodes x).size = bs.length ∧ ∃ s, readFile x d = .ok ((bs.length, bs), s)

/-- The image of a list of files. -/
structure WellFormed (files : List File) (d : Disk) : Prop where
  addrs : ∀ x bn, bn < nblk (d.dinodes x).size →
    refAt d.dinodes d.blocks x (slot bn) ≠ 0 ∧ nmeta ≤ refAt d.dinodes d.blocks x (slot bn) ∧
      refAt d.dinodes d.blocks x (slot bn) < FSSIZE
  acct : Acct sb d.bits (refAt d.dinodes d.blocks)
  reads : ∀ k (hk : k < files.length), ReadsAs d (k + 2) files[k].content
  root : ∃ z, ReadsAs d ROOTINO
    ((rootEntries files ++ List.replicate z noEntry).flatMap Dirent.toBytes)

lemma map_getD_range (l : List Byte) {n : ℕ} (h : l.length ≤ n) :
    (List.range n).map (fun o => l.getD o 0) = l ++ List.replicate (n - l.length) 0 := by
  refine List.ext_getElem ?_ fun o h1 h2 => ?_
  · rw [List.length_map, List.length_range, List.length_append, List.length_replicate]
    omega
  · rw [List.getElem_map, List.getElem_range]
    by_cases ho : o < l.length
    · rw [List.getD_eq_getElem _ _ ho, List.getElem_append_left ho]
    · rw [List.getD_eq_default _ _ (by omega), List.getElem_append_right (by omega),
        List.getElem_replicate]

lemma flatMap_noEntry (z : ℕ) :
    (List.replicate z noEntry).flatMap Dirent.toBytes = List.replicate (DESIZE * z) 0 := by
  induction z with
  | zero => rfl
  | succ z ih =>
    rw [List.replicate_succ, List.flatMap_cons, ih, Nat.mul_add, Nat.mul_one, Nat.add_comm,
      ← List.replicate_append_replicate]
    rfl

lemma Written.reads {files : List File} (h : Written t files)
    (ht : (dinodes t.sect x).type ≠ .free)
    (hle : (contents files x).length ≤ (dinodes t.sect x).size)
    (hlt : (dinodes t.sect x).size < 2 ^ 32)
    (hall : nblk (dinodes t.sect x).size ≤ nblk (contents files x).length) :
    ReadsAs (mount t.sect) x (contents files x ++
      List.replicate ((dinodes t.sect x).size - (contents files x).length) 0) := by
  have hB : BSIZE = 1024 := rfl
  obtain ⟨s, hs⟩ := h.readFile ht rfl hlt fun bn hbn => by
    refine Nat.lt_of_lt_of_le ?_ hall
    unfold nblk
    rw [hB] at hbn ⊢
    omega
  rw [map_getD_range _ hle] at hs
  have hlen : (contents files x ++ List.replicate
      ((dinodes t.sect x).size - (contents files x).length) 0).length = (dinodes t.sect x).size := by
    rw [List.length_append, List.length_replicate]
    omega
  refine ⟨hlen.symm, s, ?_⟩
  rw [hs, hlen]

/-- The image is well formed unless the root directory fills its last block. -/
lemma Written.wellFormed_iff {files : List File} (h : Written t files)
    (hn : files.length ≤ NINODES - 2) (hmax : ∀ f ∈ files, f.content.length ≤ MAXFILE * BSIZE) :
    WellFormed files (mount t.sect) ↔ (files.length + 2) % (BSIZE / DESIZE) ≠ 0 := by
  have hN : NINODES = 200 := by decide
  have hB : BSIZE = 1024 := rfl
  have hD : DESIZE = 16 := rfl
  have hroot := @length_contents_root files (by omega)
  have hsize := h.root
  rw [hroot, hB, hD] at hsize
  rw [hB, hD]
  have hfile : ∀ k (hk : k < files.length), contents files (k + 2) = files[k].content := by
    intro k hk
    rw [Nat.add_comm]
    exact withFiles_file files _ 2 k hk (by decide)
  constructor
  · rintro hw h0
    -- the block behind the last entry has no address
    have hbn : (files.length + 2) / 64 < nblk ((mount t.sect).dinodes ROOTINO).size := by
      change _ < nblk (dinodes t.sect ROOTINO).size
      rw [hsize]
      unfold nblk
      rw [hB]
      omega
    have hlt := ((h.filled ROOTINO).slots _).mp (hw.addrs ROOTINO _ hbn).1
    rw [hroot, hD] at hlt
    unfold nblk at hlt
    rw [hB] at hlt
    omega
  · intro h0
    have hrootblk : nblk (dinodes t.sect ROOTINO).size =
        nblk (contents files ROOTINO).length := by
      rw [hsize, hroot, hD]
      unfold nblk
      rw [hB]
      omega
    have hblk : ∀ x, nblk (dinodes t.sect x).size = nblk (contents files x).length := by
      intro x
      by_cases hx : x = ROOTINO
      · rw [hx, hrootblk]
      · rw [h.size x hx]
    refine ⟨fun x bn hbn => ?_, h.acct, fun k hk => ?_, ?_⟩
    · have hr := ((h.filled x).slots bn).mpr (Nat.lt_of_lt_of_le hbn (Nat.le_of_eq (hblk x)))
      exact ⟨hr, (h.layout.lt hr).1, h.layout.lt_size hr⟩
    · have hne : k + 2 ≠ ROOTINO := by
        change k + 2 ≠ 1
        omega
      have hs := h.size (k + 2) hne
      have hlen := hmax _ (List.getElem_mem hk)
      have hm := max_size_lt
      rw [hfile k hk] at hs
      have hreads := h.reads (x := k + 2) ((h.used _).mpr ⟨by omega, by omega⟩)
        (Nat.le_of_eq (by rw [hfile k hk, hs])) (by rw [hs]; omega) (Nat.le_of_eq (hblk _))
      rw [hfile k hk, hs, Nat.sub_self, List.replicate_zero, List.append_nil] at hreads
      exact hreads
    · have hreads := h.reads (x := ROOTINO) ((h.used _).mpr ⟨by decide, by
        change 1 < _
        omega⟩) (by rw [hroot, hsize, hD]; omega) (by rw [hsize]; omega) (Nat.le_of_eq hrootblk)
      refine ⟨((dinodes t.sect ROOTINO).size - (contents files ROOTINO).length) / DESIZE, ?_⟩
      rw [List.flatMap_append, flatMap_noEntry, Nat.mul_div_cancel', ← contents_root (by omega)]
      · exact hreads
      · rw [hsize, hroot, hD]
        omega

lemma mkfs_written {files : List File} {p : M Unit} (hp : p = main files)
    (hn : files.length ≤ NINODES - 2) (hmax : ∀ f ∈ files, f.content.length ≤ MAXFILE * BSIZE)
    (htotal : totalBlocks files ≤ FSSIZE) :
    (∃ t, image p = .ok t.sect ∧ Written t files) ∨ ∃ e, image p = .error e ∧ BadName files e := by
  have hspec := main_spec hp hn hmax htotal
  unfold wp at hspec
  unfold image
  rcases hrun : p start with e | ⟨_, t⟩
  · rw [hrun] at hspec
    exact Or.inr ⟨e, rfl, hspec⟩
  · rw [hrun] at hspec
    exact Or.inl ⟨t, rfl, hspec⟩

/-- **The image of `mkfs`**: from files that fit, with names that have no slash, an image is made,
and whatever image is made is well formed exactly when the root directory, with the entries for
`.` and `..`, does not end at the end of a block. -/
theorem mkfs_well_formed_iff (files : List File) (hn : files.length ≤ NINODES - 2)
    (hmax : ∀ f ∈ files, f.content.length ≤ MAXFILE * BSIZE)
    (htotal : totalBlocks files ≤ FSSIZE) :
    ((∀ f ∈ files, slash ∉ basename f.path) → ∃ img, mkfs files = .ok img) ∧
      ∀ img, mkfs files = .ok img →
        (WellFormed files (mount img) ↔ (files.length + 2) % (BSIZE / DESIZE) ≠ 0) := by
  rcases mkfs_written rfl hn hmax htotal with ⟨t, ht, hw⟩ | ⟨e, he, -, f, hf, hs⟩
  · refine ⟨fun _ => ⟨_, ht⟩, fun img himg => ?_⟩
    rw [mkfs, ht] at himg
    cases himg
    exact hw.wellFormed_iff hn hmax
  · refine ⟨fun hname => absurd hs (hname f hf), fun img himg => ?_⟩
    rw [mkfs, he] at himg
    cases himg

/-- Empty files named `fA`, `fB` and so on. -/
def emptyFiles (n : ℕ) : List File :=
  (List.range n).map fun i => ⟨[102, BitVec.ofNat 8 (65 + i)], [], by simp⟩

/-- `README` with 1500 bytes, and the binary `user/_cat` with three. -/
def twoFiles : List File :=
  [⟨[82, 69, 65, 68, 77, 69], [List.replicate 1024 7, List.replicate 476 7], by decide +kernel⟩,
    ⟨[117, 115, 101, 114, 47, 95, 99, 97, 116], [[1, 2, 3]], by decide⟩]

theorem mkfs_well_formed_two : ∃ img, mkfs twoFiles = .ok img ∧ WellFormed twoFiles (mount img) := by
  have h := mkfs_well_formed_iff twoFiles (by decide) (by decide +kernel) (by decide +kernel)
  obtain ⟨img, himg⟩ := h.1 (by decide)
  exact ⟨img, himg, (h.2 img himg).mpr (by decide)⟩

/-- With 62 files the root directory fills its block and its size says two. -/
theorem mkfs_full_root : (emptyFiles 62).length ≤ NINODES - 2 ∧
    (∀ f ∈ emptyFiles 62, f.content.length ≤ MAXFILE * BSIZE) ∧
    totalBlocks (emptyFiles 62) ≤ FSSIZE ∧
    ∃ img, mkfs (emptyFiles 62) = .ok img ∧ ¬WellFormed (emptyFiles 62) (mount img) := by
  have hn : (emptyFiles 62).length ≤ NINODES - 2 := by decide
  have hmax : ∀ f ∈ emptyFiles 62, f.content.length ≤ MAXFILE * BSIZE := by
    intro f hf
    obtain ⟨i, -, rfl⟩ := List.mem_map.mp hf
    exact Nat.zero_le _
  have htotal : totalBlocks (emptyFiles 62) ≤ FSSIZE := by decide
  refine ⟨hn, hmax, htotal, ?_⟩
  rcases mkfs_written rfl hn hmax htotal with ⟨t, ht, hw⟩ | ⟨e, -, -, f, hf, hs⟩
  · exact ⟨_, ht, fun hc => (hw.wellFormed_iff hn hmax).mp hc (by decide)⟩
  · obtain ⟨i, hi, rfl⟩ := List.mem_map.mp hf
    have hname : ∀ i ∈ List.range 62, slash ∉ basename [102, BitVec.ofNat 8 (65 + i)] := by decide
    exact absurd hs (hname i hi)

end Xv6.Mkfs
