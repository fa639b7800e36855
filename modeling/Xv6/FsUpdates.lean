import Xv6.FsFault
import Xv6.FsNames
import Xv6.FsPath

/-!
`create` and `sys_unlink` update the map that a directory is: each is one operation of its history.
Whatever else they do while they hold the directory is done to other inodes, whose blocks are not
those of the directory.
-/

namespace Xv6.FsUpdates

open Xv6.ByteMem Xv6.Wp Xv6.Fs Xv6.FsNames Xv6.FsPath

variable {sb : Superblock} {s t u v s0 : Disk} {ρ σ : ℕ → ℕ} {dp ip i off x : ℕ}
  {name : List Byte} {ops : List NameOp}

/-- A locked directory, after something that has not changed its bytes on the disk. -/
lemma elsewhere (h : Held ρ u) (hc : Consistent sb u) (h' : Held σ v) (hc' : Consistent sb v)
    (hk : Keep ρ u v) (hi : 0 < ρ dp) (hi' : 0 < σ dp) (hv : (u.inodes dp).valid = true)
    (ht : (v.dinodes (u.inodes dp).inum).type = .dir)
    (hb : bytesOf v (u.inodes dp).inum = bytesOf u (u.inodes dp).inum) : Elsewhere sb dp u v := by
  obtain ⟨hinum, hvalid⟩ := hk dp hi
  have hcopy := hc'.copy_eq h' hi' (hvalid hv)
  rw [hinum] at hcopy
  refine ⟨hc'.dir h' hi' (hvalid hv) (hcopy ▸ ht), ?_, by rwa [h'.ref dp]⟩
  rw [fileBytes_eq hc' h' hi' (hvalid hv), fileBytes_eq hc h hi hv, hinum, hb]

/-! ### What is done to other inodes -/

/-- Inode `x` and its bytes are what they were. -/
structure Same (x : ℕ) (s t : Disk) : Prop where
  dinode : t.dinodes x = s.dinodes x
  bytes : bytesOf t x = bytesOf s x

lemma Same.refl (x : ℕ) (s : Disk) : Same x s s := ⟨rfl, rfl⟩

lemma Same.trans (h1 : Same x s t) (h2 : Same x t u) : Same x s u :=
  ⟨h2.dinode.trans h1.dinode, h2.bytes.trans h1.bytes⟩

/-- The blocks of the inode are the same ones, and have the same bytes. -/
lemma same_of_refs (hd : t.dinodes x = s.dinodes x) (hr : ∀ k, diskRefs t x k = diskRefs s x k)
    (hb : ∀ k, diskRefs s x k ≠ 0 → t.blocks (diskRefs s x k) = s.blocks (diskRefs s x k)) :
    Same x s t := by
  refine ⟨hd, ?_⟩
  unfold bytesOf
  rw [hd]
  refine List.map_congr_left fun o _ => ?_
  rw [hr]
  split_ifs with h0
  · rfl
  · rw [hb _ h0]

lemma same_of_blocks (hd : t.dinodes x = s.dinodes x) (hb : t.blocks = s.blocks) : Same x s t :=
  same_of_refs hd (fun k => refAt_congr hd (fun _ _ _ => congrFun hb _) k) fun _ _ => congrFun hb _

lemma same_of_disk (h : SameDisk s t) (x : ℕ) : Same x s t :=
  same_of_blocks (congrFun h.dinodes x) h.blocks

/-- A block of another inode is not among those that `writei` changes. -/
lemma same_finish {d p : ℕ} {src : ℕ → Option Byte} {K : Finset ℕ} {w : Logged.Traced}
    (hacct : Acct sb s.bits (diskRefs s)) (hrefs : refs s i = diskRefs s)
    (ht : (s.inodes i).copy.type ≠ .free)
    (hw : Logged.Wrote sb i src off d p K ⟨s, ∅⟩ w) (hx : (s.inodes i).inum ≠ x) :
    Same x s (finish w.disk i (off + d)) := by
  have hold : ∀ k, refs w.disk i x k = diskRefs s x k := fun k => by
    rw [hw.filled.old x k fun hc => hx hc.1.symm, hrefs]
  refine same_of_refs ?_ (fun k => by rw [diskRefs_finish, hold]) fun k hk => ?_
  · rw [← hw.filled.dinodes]
    refine Function.update_of_ne ?_ _ _
    rw [hw.filled.inum]
    exact hx.symm
  · -- a changed block is one of inode `i`, or of the map
    have hne : ∀ l, blockIn w.disk i l ≠ diskRefs s x k := by
      intro l hl
      rw [← hold k] at hl hk
      rw [← hw.filled.inum] at hx
      exact hx (hw.filled.acct.inj _ _ _ _ (hl.trans_ne hk) hl).1
    by_contra hc
    rcases hw.changed _ hc with hlog | ⟨-, hlast⟩
    · rcases Logged.logged_cases ht hw hlog with hmeta | ⟨l, hl, -⟩
      · exact absurd (hacct.range _ _ hk).1 (by omega)
      · exact hne l hl
    · exact hne _ hlast.symm

/-- The kernel holds what it held, and inode `x` is what it was. -/
structure Aside (sb : Superblock) (ρ : ℕ → ℕ) (x : ℕ) (s t : Disk) : Prop where
  held : Held ρ t
  keep : Keep ρ s t
  consistent : Consistent sb t
  same : Same x s t

lemma Aside.refl (h : Held ρ s) (hc : Consistent sb s) (x : ℕ) : Aside sb ρ x s s :=
  ⟨h, Keep.refl ρ s, hc, Same.refl x s⟩

lemma Aside.trans (h1 : Aside sb ρ x s t) (h2 : Aside sb ρ x t u) : Aside sb ρ x s u :=
  ⟨h2.held, h1.keep.trans h2.keep, h2.consistent, h1.same.trans h2.same⟩

/-- An inode that is held is not the one that `iput` frees. -/
lemma aside_iput (h : Held (take ρ i) s) (hc : Consistent sb s) (hdp : 0 < ρ dp)
    (hv : (s.inodes dp).valid = true) :
    wp (iput i) (fun _ t => Aside sb ρ (s.inodes dp).inum s t) (fun _ => True) s := by
  have hi := take_self_pos ρ i
  refine wp_post (wp_join (iput_held h hi) (iput_disk hc h hi)) ?_
  rintro _ t ⟨⟨ht, hk⟩, hct, hcase⟩
  rw [drop_take] at ht hk
  refine ⟨ht, hk, hct, ?_⟩
  rcases hcase with ⟨-, hd⟩ | ⟨-, hf⟩
  · exact same_of_disk hd _
  · obtain ⟨hinum, hvalid⟩ := hk dp hdp
    have hlive : (t.dinodes (s.inodes dp).inum).type ≠ .free := by
      rw [← hinum, hct.copy_eq ht hdp (hvalid hv)]
      exact hct.type_ne ht hdp (hvalid hv)
    exact same_of_blocks (hf.other _ fun he => hlive (he ▸ hf.type)) hf.blocks

lemma aside_writei (h : Held ρ s) (hc : Consistent sb s) (hi : 0 < ρ i)
    (hv : (s.inodes i).valid = true) (hx : (s.inodes i).inum ≠ x) (src : ℕ → Option Byte)
    (off : ℕ) {n : ℕ} (hn : n < 2 ^ 32) :
    wp (writei sb i src off n) (fun _ t => Aside sb ρ x s t) (fun _ => True) s := by
  have hheld := wp_any ((stable_consistent sb).wp_writei h hc hi hv src off hn)
  have hcases := writei_cases (E := fun _ => True) (hc.acct_at h hi hv) (hc.type_ne h hi hv) src
    off hn
  refine wp_post (wp_join hheld hcases) ?_
  rintro r t ⟨⟨⟨ht, hk⟩, hct⟩, hr⟩
  refine ⟨ht, hk, hct, ?_⟩
  rcases hr with ⟨-, rfl, -⟩ | ⟨d, p, K, w, -, -, -, hw, -, rfl⟩
  · exact Same.refl x _
  · exact same_finish hc.acct (hc.refs_eq h hi hv) (hc.type_ne h hi hv) hw hx

lemma aside_relink (h : Held ρ s) (hc : Consistent sb s) (hi : 0 < ρ i)
    (hv : (s.inodes i).valid = true) (hx : (s.inodes i).inum ≠ x) {f : Dinode → Dinode}
    (hf : Shallow f) :
    wp (setCopy i f) (fun _ t => wp (iupdate i) (fun _ u => Aside sb ρ x s u) (fun _ => True) t)
      (fun _ => True) s := by
  have hrelink := wp_any ((stable_consistent sb).wp_relink h hc hi hv hf)
  refine wp_post (wp_join hrelink (consistent_relink hc h hi hv hf)) ?_
  rintro _ w ⟨h1, h2⟩
  refine wp_post (wp_join (wp_any h1) h2) ?_
  rintro _ t ⟨⟨⟨ht, hk⟩, hct⟩, -, hd, hb⟩
  refine ⟨ht, hk, hct, same_of_blocks ?_ hb⟩
  rw [hd, Function.update_of_ne hx.symm]

lemma aside_ilock (h : Held ρ s) (hc : Consistent sb s) (hi : 0 < ρ i) (x : ℕ) :
    wp (ilock i) (fun _ t => Aside sb ρ x s t ∧ (t.inodes i).valid = true) (fun _ => True) s := by
  have hilock := wp_any ((stable_consistent sb).wp_ilock h hc i)
  have hdisk := wp_any (ilock_disk (s := s) (i := i) (by rwa [h.ref i]))
  refine wp_post (wp_join hilock hdisk) ?_
  rintro _ t ⟨⟨⟨ht, hk, -, hv⟩, hct⟩, hsame⟩
  exact ⟨⟨ht, hk, hct, same_of_disk hsame x⟩, hv⟩

/-- `ialloc` takes an inode that was free. -/
lemma aside_ialloc (h : Held ρ s) (hc : Consistent sb s) (hx : (s.dinodes x).type ≠ .free)
    (type : Ftype) :
    wp (ialloc sb ROOTDEV type) (fun r t => ∀ ip, r = some ip →
      Held (take ρ ip) t ∧ Keep ρ s t ∧ Consistent sb t ∧ Same x s t ∧
        (t.inodes ip).inum ≠ x ∧ 1 ≤ (t.inodes ip).inum ∧ (t.inodes ip).inum < sb.ninodes)
      (fun _ => True) s := by
  have hheld := wp_any ((stable_consistent sb).wp_ialloc h hc type)
  have hdisk : wp (ialloc sb ROOTDEV type) (fun r t => ∀ ip, r = some ip → Same x s t ∧
      (t.inodes ip).inum ≠ x ∧ 1 ≤ (t.inodes ip).inum ∧ (t.inodes ip).inum < sb.ninodes)
      (fun _ => True) s := by
    unfold ialloc
    simp only [wp_bind, wp_get]
    split
    · rename_i inum hf
      have hfree := List.find?_some hf
      rw [decide_eq_true_eq] at hfree
      have hlt := List.mem_range.mp (List.mem_of_find?_eq_some hf)
      have hne : inum ≠ x := by
        rintro rfl
        exact hx hfree.2
      simp only [wp_bind, wp_set, wp_pure]
      refine wp_mono (iget_panic ROOTDEV inum) ?_ fun _ _ => trivial
      rintro i t ⟨-, hinum, hsame⟩ _ ⟨rfl⟩
      have hset : Same x s { s with
          dinodes := Function.update s.dinodes inum { Dinode.zero with type := type } } :=
        same_of_blocks (Function.update_of_ne hne.symm _ _) rfl
      refine ⟨hset.trans (same_of_disk hsame x), ?_⟩
      rw [hinum]
      exact ⟨hne, Nat.one_le_iff_ne_zero.mpr hfree.1, hlt⟩
    · rintro _ ⟨⟩
  refine wp_post (wp_join hheld hdisk) ?_
  rintro r t ⟨⟨⟨hk, ht⟩, hct⟩, hr⟩ ip rfl
  exact ⟨ht, hk, hct, hr ip rfl⟩

/-- The search reads, and takes a reference to what it finds. -/
lemma aside_dirlookup (h : Held ρ s) (hc : Consistent sb s) (hi : 0 < ρ i)
    (hv : (s.inodes i).valid = true) (name : List Byte) (x : ℕ) :
    wp (dirlookup sb i name) (fun r t => Held (takeO ρ (r.map Prod.fst)) t ∧ Keep ρ s t ∧
      Consistent sb t ∧ Same x s t) (fun _ => True) s := by
  have hheld := wp_any ((stable_consistent sb).wp_dirlookup name h hc hi hv)
  have hloop : ∀ fuel off, wp (dirlookupLoop sb i name fuel off) (fun _ t => Same x s t)
      (fun _ => True) s := by
    intro fuel
    induction fuel with
    | zero => exact fun _ => trivial
    | succ fuel ih =>
      intro off
      unfold dirlookupLoop
      simp only [wp_bind, wp_get]
      rw [wp_ite]
      split_ifs
      · rw [wp_bind]
        refine wp_post (readi_same hc h hi hv kernelDst off DESIZE_lt) ?_
        rintro r _ rfl
        simp only [wp_ite, wp_throw]
        split_ifs
        · exact ih _
        · rw [wp_bind]
          refine wp_mono (iget_panic _ _) ?_ fun _ _ => trivial
          rintro j t ⟨-, -, hsame⟩
          exact same_of_disk hsame x
        · exact ih _
      · exact Same.refl x s
  have hdisk : wp (dirlookup sb i name) (fun _ t => Same x s t) (fun _ => True) s := by
    unfold dirlookup
    simp only [wp_bind, wp_get]
    rw [wp_ite]
    split_ifs
    · trivial
    · exact hloop _ _
  refine wp_post (wp_join hheld hdisk) ?_
  rintro r t ⟨⟨h1, h2, h3⟩, h4⟩
  exact ⟨h1, h2, h3, h4⟩

lemma dirlinkLoop_same (hc : Consistent sb s) (h : Held ρ s) (hi : 0 < ρ i)
    (hv : (s.inodes i).valid = true) (fuel : ℕ) : ∀ off,
    wp (dirlinkLoop sb i fuel off) (fun _ t => t = s) (fun _ => True) s := by
  induction fuel with
  | zero => exact fun _ => trivial
  | succ fuel ih =>
    intro off
    unfold dirlinkLoop
    simp only [wp_bind, wp_get]
    rw [wp_ite]
    split_ifs
    · rw [wp_bind]
      refine wp_post (readi_same hc h hi hv kernelDst off DESIZE_lt) ?_
      rintro r _ rfl
      simp only [wp_ite, wp_throw, wp_pure]
      split_ifs
      exact ih _
    · rfl

/-- An entry of another directory. -/
lemma aside_dirlink (h : Held ρ s) (hc : Consistent sb s) (hi : 0 < ρ i)
    (hv : (s.inodes i).valid = true) (hdp : 0 < ρ dp) (hvd : (s.inodes dp).valid = true)
    (hx : (s.inodes i).inum ≠ (s.inodes dp).inum) (name : List Byte) (inum : ℕ) :
    wp (dirlink sb i name inum) (fun _ t => Aside sb ρ (s.inodes dp).inum s t) (fun _ => True)
      s := by
  unfold dirlink
  rw [wp_bind]
  refine wp_post (aside_dirlookup h hc hi hv name (s.inodes dp).inum) ?_
  rintro r t ⟨ht, hk, hct, hsame⟩
  have hinum := (hk dp hdp).1
  cases r with
  | some r =>
    obtain ⟨j, o⟩ := r
    simp only [wp_bind, wp_pure]
    refine wp_post (aside_iput ht hct hdp ((hk dp hdp).2 hvd)) ?_
    intro _ u hu
    rw [hinum] at hu
    exact ⟨hu.held, hk.trans hu.keep, hu.consistent, hsame.trans hu.same⟩
  | none =>
    have hvt := (hk i hi).2 hv
    simp only [wp_bind, wp_get]
    refine wp_post (dirlinkLoop_same hct ht hi hvt _ 0) ?_
    rintro o _ rfl
    rw [← (hk i hi).1] at hx
    refine wp_post (aside_writei ht hct hi hvt hx _ _ DESIZE_lt) ?_
    intro r u hu
    have hres : Aside sb ρ (s.inodes dp).inum s u :=
      ⟨hu.held, hk.trans hu.keep, hu.consistent, hsame.trans hu.same⟩
    split_ifs
    · exact hres
    · exact hres

lemma aside_createDots (h : Held ρ s) (hc : Consistent sb s) (hi : 0 < ρ i)
    (hv : (s.inodes i).valid = true) (hdp : 0 < ρ dp) (hvd : (s.inodes dp).valid = true)
    (hx : (s.inodes i).inum ≠ (s.inodes dp).inum) (type : Ftype) :
    wp (createDots sb dp i type) (fun _ t => Aside sb ρ (s.inodes dp).inum s t) (fun _ => True)
      s := by
  unfold createDots
  split
  · simp only [wp_bind, wp_get]
    refine wp_post (aside_dirlink h hc hi hv hdp hvd hx _ _) ?_
    intro r t ht
    split
    · exact ht
    · obtain ⟨hdinum, hdvalid⟩ := ht.keep dp hdp
      obtain ⟨hiinum, hivalid⟩ := ht.keep i hi
      simp only [wp_bind, wp_get]
      rw [← hdinum, ← hiinum] at hx
      refine wp_post (aside_dirlink ht.held ht.consistent hi (hivalid hv) hdp (hdvalid hvd) hx
        _ _) ?_
      intro r u hu
      rw [hdinum] at hu
      split
      · exact ht.trans hu
      · exact ht.trans hu
  · exact Aside.refl h hc _

/-! ### What is done to the directory itself -/

lemma isdirempty_same (hc : Consistent sb s) (h : Held ρ s) (hi : 0 < ρ ip)
    (hv : (s.inodes ip).valid = true) :
    wp (isdirempty sb ip) (fun _ t => t = s) (fun _ => True) s := by
  have hloop : ∀ fuel off, wp (isdiremptyLoop sb ip fuel off) (fun _ t => t = s)
      (fun _ => True) s := by
    intro fuel
    induction fuel with
    | zero => exact fun _ => trivial
    | succ fuel ih =>
      intro off
      unfold isdiremptyLoop
      simp only [wp_bind, wp_get]
      rw [wp_ite]
      split_ifs
      · rw [wp_bind]
        refine wp_post (readi_same hc h hi hv kernelDst off DESIZE_lt) ?_
        rintro r _ rfl
        simp only [wp_ite, wp_throw, wp_pure]
        split_ifs
        exact ih _
      · rfl
  unfold isdirempty
  simp only [wp_bind, wp_get]
  exact hloop _ _

lemma removable_same (hc : Consistent sb s) (h : Held ρ s) (hi : 0 < ρ ip)
    (hv : (s.inodes ip).valid = true) (type : Ftype) :
    wp (removable sb ip type) (fun _ t => t = s) (fun _ => True) s := by
  unfold removable
  rw [wp_ite]
  split_ifs
  · exact isdirempty_same hc h hi hv
  · rfl

lemma parentLink_elsewhere (h : Held ρ s) (hc : Consistent sb s) (hi : 0 < ρ dp)
    (hv : (s.inodes dp).valid = true) (ht : (s.inodes dp).copy.type = .dir) (type : Ftype)
    (δ : ℤ) : wp (parentLink dp type δ) (fun _ t => Elsewhere sb dp s t) (fun _ => True) s := by
  have hcopy := hc.copy_eq h hi hv
  have hdir : (s.dinodes (s.inodes dp).inum).type = .dir := by rw [hcopy, ht]
  unfold parentLink
  rw [wp_ite]
  split_ifs
  · have hf : Shallow fun d => { d with nlink := short (d.nlink + δ) } :=
      shallow_nlink fun n => short (n + δ)
    have hrelink := wp_any ((stable_consistent sb).wp_relink h hc hi hv hf)
    rw [wp_bind]
    refine wp_post (wp_join hrelink (consistent_relink hc h hi hv hf)) ?_
    rintro _ w ⟨h1, h2⟩
    refine wp_post (wp_join (wp_any h1) h2) ?_
    rintro _ t ⟨⟨⟨hρ, hk⟩, hct⟩, -, hd, hb⟩
    have hrefs : diskRefs t = diskRefs s := by
      unfold diskRefs
      rw [hd, hb]
      exact refAt_shallow _ (by rw [hcopy]) (by rw [hcopy])
    refine elsewhere h hc hρ hct hk hi hi hv ?_ ?_
    · rw [hd, Function.update_self]
      exact ht
    · unfold bytesOf
      rw [hrefs, hb, hd, Function.update_self, hcopy]
  · exact elsewhere h hc h hc (Keep.refl _ _) hi hi hv hdir rfl

/-! ### create -/

lemma createFail_none : wp (createFail dp ip) (fun r _ => r = none) (fun _ => True) s := by
  unfold createFail
  simp only [wp_bind]
  exact wp_post wp_true fun _ _ _ => wp_post wp_true fun _ _ _ => wp_post wp_true fun _ _ _ =>
    wp_post wp_true fun _ _ _ => rfl

/-- **create is a linking** in the history of the directory: when it lets go of the directory, that
is the last thing that was done to it. -/
theorem createNew_links (h0 : Maps sb dp s0 fun _ => none) (hist : History sb dp s0 ops s)
    (h : Held (take ρ dp) s) (hc : Consistent sb s) (hv : (s.inodes dp).valid = true)
    (ht : (s.inodes dp).copy.type = .dir) (hn : sb.ninodes ≤ 2 ^ 16) (type : Ftype)
    (major minor : ℤ) :
    wp (createNew sb dp name type major minor) (fun r t => ∀ ip, r = some ip → ∃ w,
      History sb dp s0 (ops ++ [.link name (t.inodes ip).inum]) w ∧ iunlockput dp w = .ok ((), t))
      (fun _ => True) s := by
  have hdp := take_self_pos ρ dp
  have hdir : (s.dinodes (s.inodes dp).inum).type = .dir := by rw [hc.copy_eq h hdp hv, ht]
  unfold createNew
  simp only [wp_bind, wp_get]
  rw [h.dev dp hdp]
  refine wp_post (aside_ialloc h hc (x := (s.inodes dp).inum) (by rw [hdir]; decide) type) ?_
  intro r t1 hr
  cases r with
  | none =>
    simp only [wp_bind]
    exact wp_post wp_true fun _ _ _ => fun _ hc => by cases hc
  | some ip =>
    obtain ⟨ht1, hk1, hc1, hsame1, hne1, hpos, hlt⟩ := hr ip rfl
    have hip := take_self_pos (take ρ dp) ip
    have hdp' : 0 < take (take ρ dp) ip dp := take_pos hdp
    simp only [wp_bind]
    refine wp_post (aside_ilock ht1 hc1 hip (s.inodes dp).inum) ?_
    rintro _ t2 ⟨ha2, hvi2⟩
    have hi2 := (ha2.keep ip hip).1
    refine wp_post (aside_relink ha2.held ha2.consistent hip hvi2 (by rwa [hi2])
      fun d => ⟨rfl, rfl, rfl⟩) fun _ t3 ht3 => ?_
    refine wp_post ht3 ?_
    intro _ t4 ha24
    have hvi4 := (ha24.keep ip hip).2 hvi2
    have ha4 := ha2.trans ha24
    obtain ⟨hd4, hdv4⟩ := ha4.keep dp hdp'
    have hi4 := (ha4.keep ip hip).1
    obtain ⟨hd1, hdv1⟩ := hk1 dp hdp
    rw [hd1] at hd4
    refine wp_post (aside_createDots ha4.held ha4.consistent hip hvi4 hdp' (hdv4 (hdv1 hv))
      (by rwa [hi4, hd4]) type) ?_
    intro ok t5 ha5
    rw [hd4] at ha5
    have ha5 := ha4.trans ha5
    split
    · refine wp_post createFail_none ?_
      rintro _ _ rfl _ ⟨⟩
    have helse : Elsewhere sb dp s t5 :=
      elsewhere h hc ha5.held ha5.consistent (hk1.trans ha5.keep.of_take) hdp hdp' hv
        (by rw [ha5.same.dinode, hsame1.dinode, hdir]) (hsame1.trans ha5.same).bytes
    have hist5 := History.other hist helse
    have hv5 := (ha5.keep dp hdp').2 (hdv1 hv)
    have hheld := wp_any ((stable_consistent sb).wp_dirlink name (t5.inodes ip).inum ha5.held
      ha5.consistent hdp' hv5)
    have hmap := wp_any ((hist5.maps h0).dirlink name (t5.inodes ip).inum)
    simp only [wp_bind, wp_get]
    refine wp_post (wp_join hheld (wp_join hmap wp_self)) ?_
    rintro r w ⟨⟨⟨hw, hkw⟩, hcw⟩, hr, hrun⟩
    split
    · refine wp_post createFail_none ?_
      rintro _ _ rfl _ ⟨⟩
    rename_i hneg
    obtain rfl : r = 0 := by
      rcases hr with ⟨-, rfl, -⟩ | ⟨-, ⟨rfl, -⟩ | ⟨rfl, -⟩⟩
      · exact absurd (by decide) hneg
      · rfl
      · exact absurd (by decide) hneg
    have hi5 := (ha5.keep ip hip).1
    have hist' := History.link name _ hist5 (by rwa [hi5]) (by omega) hrun
    have hvw := (hkw dp hdp').2 hv5
    have hparent := wp_any ((stable_consistent sb).wp_parentLink type 1 hw hcw hdp' hvw)
    rw [wp_bind]
    refine wp_post (wp_join hparent (parentLink_elsewhere hw hcw hdp' hvw
      (hist'.maps h0).dir.type _ _)) ?_
    rintro _ w' ⟨⟨⟨hw', hkw'⟩, hcw'⟩, helse'⟩
    have hput := wp_any ((stable_consistent sb).wp_iunlockput hw' hcw' hdp')
    rw [wp_bind]
    refine wp_post (wp_join hput wp_self) ?_
    rintro _ t ⟨⟨⟨-, hkt⟩, -⟩, hend⟩ _ ⟨rfl⟩
    rw [drop_take_take] at hkt
    rw [(hkt ip (take_self_pos ρ ip)).1, (hkw' ip hip).1, (hkw ip hip).1]
    exact ⟨w', .other hist' helse', hend⟩

/-! ### sys_unlink -/

/-- The end of `sys_unlink`, from where it lets go of the directory. -/
def letGo (dp ip : ℕ) : F ℤ := do
  iunlockput dp
  setCopy ip fun d => { d with nlink := short (d.nlink - 1) }
  iupdate ip
  iunlockput ip
  pure 0

/-- **sys_unlink is the clearing of an entry** in the history of the directory: when it lets go of
the directory, that is the last thing that was done to it. -/
theorem unlinkEntry_clears (h0 : Maps sb dp s0 fun _ => none) (hist : History sb dp s0 ops s)
    (hrun : dirlookup sb dp name s = .ok (some (ip, off), u)) (h : Held ρ u)
    (hc : Consistent sb u) (hdp : 0 < ρ dp) (hip : 0 < ρ ip) (hv : (u.inodes dp).valid = true)
    (ht : (u.inodes dp).copy.type = .dir) :
    wp (unlinkEntry sb dp ip off) (fun r t => r = 0 →
      ∃ w, History sb dp s0 (ops ++ [.clear name]) w ∧ letGo dp ip w = .ok (0, t))
      (fun _ => True) u := by
  have hdir : (u.dinodes (u.inodes dp).inum).type = .dir := by rw [hc.copy_eq h hdp hv, ht]
  unfold unlinkEntry
  rw [wp_bind]
  refine wp_post (aside_ilock h hc hip (u.inodes dp).inum) ?_
  rintro _ v ⟨⟨hv1, hk, hcv, hsame⟩, hvip⟩
  have helse : Elsewhere sb dp u v :=
    elsewhere h hc hv1 hcv hk hdp hdp hv (hsame.dinode ▸ hdir) hsame.bytes
  have hvdp := (hk dp hdp).2 hv
  rw [wp_bind, wp_get, wp_ite]
  split_ifs
  · trivial
  rw [wp_bind]
  refine wp_post (removable_same hcv hv1 hip hvip _) ?_
  rintro empty _ rfl
  rw [wp_ite]
  split_ifs
  · rw [wp_bind]
    refine wp_post wp_true fun _ _ _ => ?_
    rw [wp_bind]
    refine wp_post wp_true fun _ _ _ => ?_
    exact fun hr => absurd hr (by decide)
  have hwrite := wp_any ((stable_consistent sb).wp_writei hv1 hcv hdp hvdp (kernelSrc cleared)
    off DESIZE_lt)
  rw [wp_bind]
  refine wp_post (wp_join hwrite wp_self) ?_
  rintro r w ⟨⟨⟨hw1, hkw⟩, hcw⟩, hwrun⟩
  rw [wp_ite]
  split_ifs with hr
  · trivial
  obtain rfl : r = DESIZE := not_not.mp hr
  have hist' := History.clear name hist hrun (.inr helse) hwrun
  have hdirw := (hist'.maps h0).dir
  rw [wp_bind]
  refine wp_post (parentLink_elsewhere hw1 hcw hdp ((hkw dp hdp).2 hvdp) hdirw.type _ _) ?_
  intro _ w' hw'
  refine wp_post (wp_self (m := letGo dp ip)) ?_
  rintro r t hend rfl
  exact ⟨w', .other hist' hw', hend⟩

end Xv6.FsUpdates
