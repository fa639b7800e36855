import Xv6.FsTable
import Xv6.Sysfile

/-!
References over whole calls: path lookup, `create`, `link` and `unlink` give back every reference
they take, apart from the one they return. The same walk through these functions carries any
property of the disk that the functions on single inodes keep, so it is done once, over such a
property.
-/

namespace Xv6.Fs

open Xv6.ByteMem Xv6.Wp

variable {sb : Superblock} {ρ : ℕ → ℕ} {s t u : Disk} {i j : ℕ}

/-- A change of an inode that leaves its type and contents alone. -/
def Shallow (f : Dinode → Dinode) : Prop :=
  ∀ d, (f d).type = d.type ∧ (f d).size = d.size ∧ (f d).addrs = d.addrs

/-- `P` survives the functions that work on single inodes, and their panics are in `E`. -/
structure Stable (sb : Superblock) (P : Disk → Prop) (E : Panic → Prop) : Prop where
  panic : ∀ e, e ≠ .bfree → E e
  iget : ∀ {ρ s}, Held ρ s → P s → ∀ inum, wp (iget ROOTDEV inum) (fun _ t => P t) E s
  idup : ∀ {ρ s i}, Held ρ s → P s → 0 < ρ i → wp (idup i) (fun _ t => P t) E s
  ilock : ∀ {ρ s}, Held ρ s → P s → ∀ i, wp (ilock i) (fun _ t => P t) E s
  iput : ∀ {ρ s i}, Held ρ s → P s → 0 < ρ i → wp (iput i) (fun _ t => P t) E s
  ialloc : ∀ {ρ s}, Held ρ s → P s → ∀ type, wp (ialloc sb ROOTDEV type) (fun _ t => P t) E s
  readi : ∀ {ρ s i}, Held ρ s → P s → 0 < ρ i → (s.inodes i).valid = true →
    ∀ ok off n, n < 2 ^ 32 → wp (readi sb i ok off n) (fun _ t => P t) E s
  writei : ∀ {ρ s i}, Held ρ s → P s → 0 < ρ i → (s.inodes i).valid = true →
    ∀ src off n, n < 2 ^ 32 → wp (writei sb i src off n) (fun _ t => P t) E s
  relink : ∀ {ρ s i f}, Held ρ s → P s → 0 < ρ i → (s.inodes i).valid = true → Shallow f →
    wp (setCopy i f) (fun _ t => wp (iupdate i) (fun _ u => P u) E t) E s

lemma DESIZE_lt : DESIZE < 2 ^ 32 := by decide

/-- The references with the one that is returned. -/
def takeO (ρ : ℕ → ℕ) : Option ℕ → ℕ → ℕ
  | some i => take ρ i
  | none => ρ

variable {P : Disk → Prop} {E : Panic → Prop}

/-! ### The functions on single inodes once more, with both -/

lemma Stable.wp_iget (hp : Stable sb P E) (h : Held ρ s) (hP : P s) (inum : ℕ) :
    wp (Fs.iget ROOTDEV inum) (fun i t => (Held (take ρ i) t ∧ Keep ρ s t ∧
      (t.inodes i).inum = inum) ∧ P t) E s :=
  wp_join (iget_held h inum) (hp.iget h hP inum)

lemma Stable.wp_idup (hp : Stable sb P E) (h : Held ρ s) (hP : P s) (hi : 0 < ρ i) :
    wp (Fs.idup i) (fun j t => (j = i ∧ Held (take ρ i) t ∧ Keep ρ s t ∧
      (t.inodes i).inum = (s.inodes i).inum) ∧ P t) E s :=
  wp_join (idup_held h hi) (hp.idup h hP hi)

lemma Stable.wp_ilock (hp : Stable sb P E) (h : Held ρ s) (hP : P s) (i : ℕ) :
    wp (Fs.ilock i) (fun _ t => (Held ρ t ∧ Keep ρ s t ∧ 0 < ρ i ∧
      (t.inodes i).valid = true) ∧ P t) E s :=
  wp_join (ilock_held h i) (hp.ilock h hP i)

lemma Stable.wp_iunlock (hp : Stable sb P E) (h : Held ρ s) (i : ℕ) :
    wp (Fs.iunlock i) (fun _ t => t = s ∧ 0 < ρ i) E s := by
  unfold Fs.iunlock
  simp only [wp_bind, wp_get]
  split
  · exact hp.panic _ (by decide)
  · rename_i hr
    rw [h.ref i] at hr
    exact ⟨rfl, by omega⟩

lemma Stable.wp_iput (hp : Stable sb P E) (h : Held ρ s) (hP : P s) (hi : 0 < ρ i) :
    wp (Fs.iput i) (fun _ t => (Held (drop ρ i) t ∧ Keep (drop ρ i) s t) ∧ P t) E s :=
  wp_join (iput_held h hi) (hp.iput h hP hi)

lemma Stable.wp_iunlockput (hp : Stable sb P E) (h : Held ρ s) (hP : P s) (hi : 0 < ρ i) :
    wp (iunlockput i) (fun _ t => (Held (drop ρ i) t ∧ Keep (drop ρ i) s t) ∧ P t) E s := by
  unfold iunlockput
  rw [wp_bind]
  refine wp_post (hp.wp_iunlock h i) ?_
  rintro _ t ⟨rfl, -⟩
  exact hp.wp_iput h hP hi

lemma Stable.wp_ialloc (hp : Stable sb P E) (h : Held ρ s) (hP : P s) (type : Ftype) :
    wp (Fs.ialloc sb ROOTDEV type) (fun r t => (Keep ρ s t ∧ Held (takeO ρ r) t) ∧ P t) E s := by
  refine wp_join (wp_post (ialloc_held h type) ?_) (hp.ialloc h hP type)
  rintro r t ⟨hk, hr⟩
  refine ⟨hk, ?_⟩
  cases r with
  | none => exact hr
  | some i => exact hr

lemma Stable.wp_readi (hp : Stable sb P E) (h : Held ρ s) (hP : P s) (hi : 0 < ρ i)
    (hv : (s.inodes i).valid = true) (ok : ℕ → ℕ → Bool) (off : ℕ) {n : ℕ} (hn : n < 2 ^ 32) :
    wp (Fs.readi sb i ok off n) (fun _ t => (Held ρ t ∧ Keep ρ s t) ∧ P t) E s :=
  wp_join (h.calm (tab_readi i ok off n)) (hp.readi h hP hi hv ok off n hn)

lemma Stable.wp_writei (hp : Stable sb P E) (h : Held ρ s) (hP : P s) (hi : 0 < ρ i)
    (hv : (s.inodes i).valid = true) (src : ℕ → Option Byte) (off : ℕ) {n : ℕ} (hn : n < 2 ^ 32) :
    wp (Fs.writei sb i src off n) (fun _ t => (Held ρ t ∧ Keep ρ s t) ∧ P t) E s :=
  wp_join (h.calm (tab_writei i src off n)) (hp.writei h hP hi hv src off n hn)

lemma Stable.wp_relink (hp : Stable sb P E) (h : Held ρ s) (hP : P s) (hi : 0 < ρ i)
    (hv : (s.inodes i).valid = true) {f : Dinode → Dinode} (hf : Shallow f) :
    wp (setCopy i f) (fun _ t => wp (iupdate i) (fun _ u => (Held ρ u ∧ Keep ρ s u) ∧ P u) E t)
      E s := by
  have hcalm := h.calm (Keeps.bind (tab_setCopy i f) fun _ => tab_iupdate i)
  rw [wp_bind] at hcalm
  refine wp_post (wp_join hcalm (hp.relink h hP hi hv hf)) ?_
  rintro _ t ⟨h1, h2⟩
  exact wp_join h1 h2

/-! ### Directories -/

lemma Stable.wp_dirlookupLoop (hp : Stable sb P E) {dp : ℕ} (name : List Byte) (fuel off : ℕ)
    (h : Held ρ s) (hP : P s) (hi : 0 < ρ dp) (hv : (s.inodes dp).valid = true) :
    wp (dirlookupLoop sb dp name fuel off) (fun r t =>
      Held (takeO ρ (r.map Prod.fst)) t ∧ Keep ρ s t ∧ P t) E s := by
  induction fuel generalizing s off with
  | zero => exact hp.panic _ (by decide)
  | succ fuel ih =>
    unfold dirlookupLoop
    simp only [wp_bind, wp_get]
    split
    · rw [wp_bind]
      refine wp_post (hp.wp_readi h hP hi hv _ _ DESIZE_lt) ?_
      rintro ⟨r, bs⟩ t ⟨⟨ht, hk⟩, hPt⟩
      have hvt := (hk dp hi).2 hv
      dsimp only
      split
      · exact hp.panic _ (by decide)
      · split
        · refine wp_post (ih (off + DESIZE) ht hPt hvt) ?_
          rintro _ _ ⟨h1, h2, h3⟩
          exact ⟨h1, hk.trans h2, h3⟩
        · split
          · rw [wp_bind, h.dev dp hi]
            refine wp_post (hp.wp_iget ht hPt _) ?_
            rintro i u ⟨⟨h1, h2, _⟩, h3⟩
            exact ⟨h1, hk.trans h2, h3⟩
          · refine wp_post (ih (off + DESIZE) ht hPt hvt) ?_
            rintro _ _ ⟨h1, h2, h3⟩
            exact ⟨h1, hk.trans h2, h3⟩
    · exact ⟨h, Keep.refl ρ s, hP⟩

lemma Stable.wp_dirlookup (hp : Stable sb P E) {dp : ℕ} (name : List Byte) (h : Held ρ s)
    (hP : P s) (hi : 0 < ρ dp) (hv : (s.inodes dp).valid = true) :
    wp (dirlookup sb dp name) (fun r t =>
      Held (takeO ρ (r.map Prod.fst)) t ∧ Keep ρ s t ∧ P t) E s := by
  unfold dirlookup
  simp only [wp_bind, wp_get]
  split
  · exact hp.panic _ (by decide)
  · exact hp.wp_dirlookupLoop name _ 0 h hP hi hv

lemma Stable.wp_dirlinkLoop (hp : Stable sb P E) {dp : ℕ} (fuel off : ℕ) (h : Held ρ s) (hP : P s)
    (hi : 0 < ρ dp) (hv : (s.inodes dp).valid = true) :
    wp (dirlinkLoop sb dp fuel off) (fun _ t => (Held ρ t ∧ Keep ρ s t) ∧ P t) E s := by
  induction fuel generalizing s off with
  | zero => exact hp.panic _ (by decide)
  | succ fuel ih =>
    unfold dirlinkLoop
    simp only [wp_bind, wp_get]
    split
    · rw [wp_bind]
      refine wp_post (hp.wp_readi h hP hi hv _ _ DESIZE_lt) ?_
      rintro ⟨r, bs⟩ t ⟨⟨ht, hk⟩, hPt⟩
      dsimp only
      split
      · exact hp.panic _ (by decide)
      · split
        · exact ⟨⟨ht, hk⟩, hPt⟩
        · refine wp_post (ih (off + DESIZE) ht hPt ((hk dp hi).2 hv)) ?_
          rintro _ _ ⟨⟨h1, h2⟩, h3⟩
          exact ⟨⟨h1, hk.trans h2⟩, h3⟩
    · exact ⟨⟨h, Keep.refl ρ s⟩, hP⟩

lemma Stable.wp_dirlink (hp : Stable sb P E) {dp : ℕ} (name : List Byte) (inum : ℕ)
    (h : Held ρ s) (hP : P s) (hi : 0 < ρ dp) (hv : (s.inodes dp).valid = true) :
    wp (dirlink sb dp name inum) (fun _ t => (Held ρ t ∧ Keep ρ s t) ∧ P t) E s := by
  unfold dirlink
  rw [wp_bind]
  refine wp_post (hp.wp_dirlookup name h hP hi hv) ?_
  rintro r t ⟨ht, hk, hPt⟩
  cases r with
  | some r =>
    obtain ⟨i, off⟩ := r
    simp only [wp_bind, wp_pure]
    refine wp_post (hp.wp_iput ht hPt (take_self_pos ρ i)) ?_
    rintro _ u ⟨⟨h1, h2⟩, h3⟩
    simp only [Option.map_some, takeO, drop_take] at h1 h2
    exact ⟨⟨h1, hk.trans h2⟩, h3⟩
  | none =>
    have hvt := (hk dp hi).2 hv
    simp only [wp_bind, wp_get]
    refine wp_post (hp.wp_dirlinkLoop _ 0 ht hPt hi hvt) ?_
    rintro off u ⟨⟨hu, hk1⟩, hPu⟩
    refine wp_post (hp.wp_writei hu hPu hi ((hk1 dp hi).2 hvt) _ _ DESIZE_lt) ?_
    rintro r v ⟨⟨hv1, hk2⟩, hPv⟩
    have hres := (⟨⟨hv1, (hk.trans hk1).trans hk2⟩, hPv⟩ : (Held ρ v ∧ Keep ρ s v) ∧ P v)
    split
    · exact hres
    · exact hres

lemma Stable.wp_isdirempty (hp : Stable sb P E) {dp : ℕ} (h : Held ρ s) (hP : P s)
    (hi : 0 < ρ dp) (hv : (s.inodes dp).valid = true) :
    wp (isdirempty sb dp) (fun _ t => (Held ρ t ∧ Keep ρ s t) ∧ P t) E s := by
  have hloop : ∀ fuel off s, Held ρ s → P s → (s.inodes dp).valid = true →
      wp (isdiremptyLoop sb dp fuel off) (fun _ t => (Held ρ t ∧ Keep ρ s t) ∧ P t) E s := by
    intro fuel
    induction fuel with
    | zero => exact fun _ _ _ _ _ => hp.panic _ (by decide)
    | succ fuel ih =>
      intro off s h hP hv
      unfold isdiremptyLoop
      simp only [wp_bind, wp_get]
      split
      · rw [wp_bind]
        refine wp_post (hp.wp_readi h hP hi hv _ _ DESIZE_lt) ?_
        rintro ⟨r, bs⟩ t ⟨⟨ht, hk⟩, hPt⟩
        dsimp only
        split
        · exact hp.panic _ (by decide)
        · split
          · exact ⟨⟨ht, hk⟩, hPt⟩
          · refine wp_post (ih (off + DESIZE) t ht hPt ((hk dp hi).2 hv)) ?_
            rintro _ _ ⟨⟨h1, h2⟩, h3⟩
            exact ⟨⟨h1, hk.trans h2⟩, h3⟩
      · exact ⟨⟨h, Keep.refl ρ s⟩, hP⟩
  unfold isdirempty
  simp only [wp_bind, wp_get]
  exact hloop _ _ s h hP hv

/-! ### Paths -/

/-- The loop of `namex` passes its reference on. -/
lemma Stable.wp_namexLoop (hp : Stable sb P E) (parent : Bool) (fuel ip : ℕ) (path : List Byte)
    (h : Held (take ρ ip) s) (hP : P s) :
    wp (namexLoop sb parent fuel ip path) (fun r t =>
      Held (takeO ρ (r.map Prod.fst)) t ∧ Keep ρ s t ∧ P t) E s := by
  induction fuel generalizing s ip path with
  | zero => exact hp.panic _ (by decide)
  | succ fuel ih =>
    have hout : ∀ t, Held (take ρ ip) t → Keep ρ s t → P t →
        wp (do
          iunlockput ip
          pure none) (fun (r : Option (ℕ × List Byte)) t =>
            Held (takeO ρ (r.map Prod.fst)) t ∧ Keep ρ s t ∧ P t) E t := by
      intro t ht hk hPt
      rw [wp_bind]
      refine wp_post (hp.wp_iunlockput ht hPt (take_self_pos ρ ip)) ?_
      rintro _ u ⟨⟨h1, h2⟩, h3⟩
      rw [drop_take] at h1 h2
      exact ⟨h1, hk.trans h2, h3⟩
    unfold namexLoop
    cases skipelem path with
    | none =>
      cases parent with
      | false => exact ⟨h, Keep.refl ρ s, hP⟩
      | true =>
        simp only [if_true, wp_bind, wp_pure]
        refine wp_post (hp.wp_iput h hP (take_self_pos ρ ip)) ?_
        rintro _ u ⟨⟨h1, h2⟩, h3⟩
        rw [drop_take] at h1 h2
        exact ⟨h1, h2, h3⟩
    | some e =>
      obtain ⟨name, rest⟩ := e
      simp only [wp_bind, wp_get]
      refine wp_post (hp.wp_ilock h hP ip) ?_
      rintro _ t ⟨⟨ht, hk, hpos, hv⟩, hPt⟩
      split
      · exact hout t ht hk.of_take hPt
      · split
        · rw [wp_bind]
          refine wp_post (hp.wp_iunlock ht ip) ?_
          rintro _ u ⟨rfl, -⟩
          exact ⟨ht, hk.of_take, hPt⟩
        · rw [wp_bind]
          refine wp_post (hp.wp_dirlookup name ht hPt hpos hv) ?_
          rintro r u ⟨hu, hk1, hPu⟩
          cases r with
          | none => exact hout u hu (hk.trans hk1).of_take hPu
          | some r =>
            obtain ⟨next, off⟩ := r
            simp only [wp_bind]
            refine wp_post (hp.wp_iunlockput hu hPu (take_pos (take_self_pos ρ ip))) ?_
            rintro _ v ⟨⟨hv1, hk2⟩, hPv⟩
            simp only [Option.map_some, takeO, drop_take_take] at hv1 hk2
            refine wp_post (ih next rest hv1 hPv) ?_
            rintro q w ⟨h1, h2, h3⟩
            exact ⟨h1, ((hk.trans hk1).of_take.trans hk2.of_take).trans h2, h3⟩

lemma Stable.wp_namex (hp : Stable sb P E) {cwd : ℕ} (path : List Byte) (parent : Bool)
    (h : Held ρ s) (hP : P s) (hcwd : 0 < ρ cwd) :
    wp (namex sb cwd path parent) (fun r t =>
      Held (takeO ρ (r.map Prod.fst)) t ∧ Keep ρ s t ∧ P t) E s := by
  unfold namex
  split
  · rw [wp_bind]
    refine wp_post (hp.wp_iget h hP _) ?_
    rintro ip t ⟨⟨ht, hk, -⟩, hPt⟩
    refine wp_post (hp.wp_namexLoop parent _ ip path ht hPt) ?_
    rintro _ _ ⟨h1, h2, h3⟩
    exact ⟨h1, hk.trans h2, h3⟩
  · rw [wp_bind]
    refine wp_post (hp.wp_idup h hP hcwd) ?_
    rintro ip t ⟨⟨rfl, ht, hk, -⟩, hPt⟩
    refine wp_post (hp.wp_namexLoop parent _ _ path ht hPt) ?_
    rintro _ _ ⟨h1, h2, h3⟩
    exact ⟨h1, hk.trans h2, h3⟩

lemma Stable.wp_namei (hp : Stable sb P E) {cwd : ℕ} (path : List Byte) (h : Held ρ s) (hP : P s)
    (hcwd : 0 < ρ cwd) :
    wp (namei sb cwd path) (fun r t => Held (takeO ρ r) t ∧ Keep ρ s t ∧ P t) E s := by
  unfold namei
  rw [wp_bind]
  refine wp_post (hp.wp_namex path false h hP hcwd) ?_
  rintro r t ht
  cases r with
  | none => exact ht
  | some r => exact ht

/-! ### Calls -/

lemma shallow_nlink (g : ℤ → ℤ) : Shallow fun d => { d with nlink := g d.nlink } :=
  fun _ => ⟨rfl, rfl, rfl⟩

lemma Stable.wp_linkBad (hp : Stable sb P E) {ip : ℕ} (h : Held (take ρ ip) s) (hP : P s) :
    wp (linkBad ip) (fun _ t => Held ρ t ∧ Keep ρ s t ∧ P t) E s := by
  unfold linkBad
  rw [wp_bind]
  refine wp_post (hp.wp_ilock h hP ip) ?_
  rintro _ t ⟨⟨ht, hk, hpos, hv⟩, hPt⟩
  rw [wp_bind]
  refine wp_post (hp.wp_relink ht hPt hpos hv (shallow_nlink fun n => short (n - 1))) ?_
  intro _ u hu
  rw [wp_bind]
  refine wp_post hu ?_
  rintro _ v ⟨⟨hv1, hk1⟩, hPv⟩
  rw [wp_bind]
  refine wp_post (hp.wp_iunlockput hv1 hPv hpos) ?_
  rintro _ w ⟨⟨h1, h2⟩, h3⟩
  rw [drop_take] at h1 h2
  exact ⟨h1, (hk.trans hk1).of_take.trans h2, h3⟩

/-- **References of link**: all of them are given back, whichever way the call ends. -/
lemma Stable.wp_link (hp : Stable sb P E) {cwd : ℕ} (old new : List Byte) (h : Held ρ s)
    (hP : P s) (hcwd : 0 < ρ cwd) :
    wp (link sb cwd old new) (fun _ t => Held ρ t ∧ Keep ρ s t ∧ P t) E s := by
  unfold link
  rw [wp_bind]
  refine wp_post (hp.wp_namei old h hP hcwd) ?_
  rintro r t ⟨ht, hk, hPt⟩
  cases r with
  | none => exact ⟨ht, hk, hPt⟩
  | some ip =>
    have hbad : ∀ v, Held (take ρ ip) v → Keep ρ s v → P v →
        wp (linkBad ip) (fun _ t => Held ρ t ∧ Keep ρ s t ∧ P t) E v := by
      intro v h1 h2 h3
      refine wp_post (hp.wp_linkBad h1 h3) ?_
      rintro _ _ ⟨h4, h5, h6⟩
      exact ⟨h4, h2.trans h5, h6⟩
    simp only [wp_bind, wp_get]
    refine wp_post (hp.wp_ilock ht hPt ip) ?_
    rintro _ t1 ⟨⟨ht1, hk1, hpos, hv⟩, hPt1⟩
    have hk1 := hk.trans (Keep.of_take hk1)
    split
    · rw [wp_bind]
      refine wp_post (hp.wp_iunlockput ht1 hPt1 hpos) ?_
      rintro _ u ⟨⟨h1, h2⟩, h3⟩
      simp only [takeO, drop_take] at h1 h2
      exact ⟨h1, hk1.trans h2, h3⟩
    · rw [wp_bind]
      refine wp_post (hp.wp_relink ht1 hPt1 hpos hv (shallow_nlink fun n => short (n + 1))) ?_
      intro _ u hu
      rw [wp_bind]
      refine wp_post hu ?_
      rintro _ t2 ⟨⟨ht2, hk2⟩, hPt2⟩
      have hk2 := hk1.trans (Keep.of_take hk2)
      rw [wp_bind]
      refine wp_post (hp.wp_iunlock ht2 ip) ?_
      rintro _ _ ⟨rfl, -⟩
      rw [wp_bind]
      refine wp_post (hp.wp_namex new true ht2 hPt2 (take_pos hcwd)) ?_
      rintro r t3 ⟨ht3, hk3, hPt3⟩
      have hk3 := hk2.trans (Keep.of_take hk3)
      cases r with
      | none => exact hbad t3 ht3 hk3 hPt3
      | some r =>
        obtain ⟨dp, name⟩ := r
        simp only [wp_bind, wp_get]
        refine wp_post (hp.wp_ilock ht3 hPt3 dp) ?_
        rintro _ t4 ⟨⟨ht4, hk4, hpos4, hv4⟩, hPt4⟩
        have hk4 := hk3.trans hk4.of_take.of_take
        have hdone : ∀ v, Held (take (take ρ ip) dp) v → Keep ρ s v → P v →
            wp (iunlockput dp) (fun _ w => Held (take ρ ip) w ∧ Keep ρ s w ∧ P w) E v := by
          intro v h1 h2 h3
          refine wp_post (hp.wp_iunlockput h1 h3 (take_self_pos _ dp)) ?_
          rintro _ w ⟨⟨h4, h5⟩, h6⟩
          rw [drop_take] at h4 h5
          exact ⟨h4, h2.trans h5.of_take, h6⟩
        split
        · rw [wp_bind]
          refine wp_post (hdone t4 ht4 hk4 hPt4) ?_
          rintro _ w ⟨h1, h2, h3⟩
          exact hbad w h1 h2 h3
        · rw [wp_bind]
          refine wp_post (hp.wp_dirlink name _ ht4 hPt4 hpos4 hv4) ?_
          rintro r t5 ⟨⟨ht5, hk5⟩, hPt5⟩
          have hk5 := hk4.trans hk5.of_take.of_take
          split
          · rw [wp_bind]
            refine wp_post (hdone t5 ht5 hk5 hPt5) ?_
            rintro _ w ⟨h1, h2, h3⟩
            exact hbad w h1 h2 h3
          · rw [wp_bind]
            refine wp_post (hdone t5 ht5 hk5 hPt5) ?_
            rintro _ t6 ⟨ht6, hk6, hPt6⟩
            rw [wp_bind]
            refine wp_post (hp.wp_iput ht6 hPt6 (take_self_pos ρ ip)) ?_
            rintro _ w ⟨⟨h1, h2⟩, h3⟩
            rw [drop_take] at h1 h2
            exact ⟨h1, hk6.trans h2, h3⟩

lemma Stable.wp_parentLink (hp : Stable sb P E) {dp : ℕ} (type : Ftype) (δ : ℤ) (h : Held ρ s)
    (hP : P s) (hi : 0 < ρ dp) (hv : (s.inodes dp).valid = true) :
    wp (parentLink dp type δ) (fun _ t => (Held ρ t ∧ Keep ρ s t) ∧ P t) E s := by
  unfold parentLink
  split
  · rw [wp_bind]
    exact hp.wp_relink h hP hi hv (shallow_nlink fun n => short (n + δ))
  · exact ⟨⟨h, Keep.refl ρ s⟩, hP⟩

lemma Stable.wp_removable (hp : Stable sb P E) {ip : ℕ} (type : Ftype) (h : Held ρ s) (hP : P s)
    (hi : 0 < ρ ip) (hv : (s.inodes ip).valid = true) :
    wp (removable sb ip type) (fun _ t => (Held ρ t ∧ Keep ρ s t) ∧ P t) E s := by
  unfold removable
  split
  · exact hp.wp_isdirempty h hP hi hv
  · exact ⟨⟨h, Keep.refl ρ s⟩, hP⟩

lemma Stable.wp_unlinkEntry (hp : Stable sb P E) {dp ip : ℕ} (off : ℕ)
    (h : Held (take (take ρ dp) ip) s) (hP : P s) (hv : (s.inodes dp).valid = true) :
    wp (unlinkEntry sb dp ip off) (fun _ t => Held ρ t ∧ Keep ρ s t ∧ P t) E s := by
  have hdp : 0 < take (take ρ dp) ip dp := take_pos (take_self_pos ρ dp)
  have hip : 0 < take (take ρ dp) ip ip := take_self_pos _ ip
  unfold unlinkEntry
  simp only [wp_bind, wp_get]
  refine wp_post (hp.wp_ilock h hP ip) ?_
  rintro _ t ⟨⟨ht, hk, -, hvi⟩, hPt⟩
  split
  · exact hp.panic _ (by decide)
  rw [wp_bind]
  refine wp_post (hp.wp_removable _ ht hPt hip hvi) ?_
  rintro empty u ⟨⟨hu, hk1⟩, hPu⟩
  have hvi := (hk1 ip hip).2 hvi
  have hk1 := hk.trans hk1
  split
  · rw [wp_bind]
    refine wp_post (hp.wp_iunlockput hu hPu hip) ?_
    rintro _ v ⟨⟨hv1, hk2⟩, hPv⟩
    rw [drop_take] at hv1 hk2
    rw [wp_bind]
    refine wp_post (hp.wp_iunlockput hv1 hPv (take_self_pos ρ dp)) ?_
    rintro _ w ⟨⟨h1, h2⟩, h3⟩
    rw [drop_take] at h1 h2
    exact ⟨h1, (hk1.of_take.of_take.trans hk2.of_take).trans h2, h3⟩
  · rw [wp_bind]
    refine wp_post (hp.wp_writei hu hPu hdp ((hk1 dp hdp).2 hv) _ _ DESIZE_lt) ?_
    rintro r v ⟨⟨hv1, hk2⟩, hPv⟩
    have hvi := (hk2 ip hip).2 hvi
    have hk2 := hk1.trans hk2
    split
    · exact hp.panic _ (by decide)
    rw [wp_bind]
    refine wp_post (hp.wp_parentLink _ _ hv1 hPv hdp ((hk2 dp hdp).2 hv)) ?_
    rintro _ w ⟨⟨hw, hk3⟩, hPw⟩
    have hvi := (hk3 ip hip).2 hvi
    have hk3 := (hk2.trans hk3).of_take.of_take
    rw [wp_bind]
    refine wp_post (hp.wp_iunlockput hw hPw hdp) ?_
    rintro _ x ⟨⟨hx, hk4⟩, hPx⟩
    rw [drop_take_take] at hx hk4
    have hip := take_self_pos ρ ip
    rw [wp_bind]
    refine wp_post (hp.wp_relink hx hPx hip ((hk4 ip hip).2 hvi)
      (shallow_nlink fun n => short (n - 1))) fun _ y hy => ?_
    rw [wp_bind]
    refine wp_post hy ?_
    rintro _ z ⟨⟨hz, hk5⟩, hPz⟩
    rw [wp_bind]
    refine wp_post (hp.wp_iunlockput hz hPz hip) ?_
    rintro _ z' ⟨⟨h1, h2⟩, h3⟩
    rw [drop_take] at h1 h2
    exact ⟨h1, (hk3.trans (hk4.trans hk5).of_take).trans h2, h3⟩

/-- **References of unlink**: all of them are given back, whichever way the call ends. -/
lemma Stable.wp_unlink (hp : Stable sb P E) {cwd : ℕ} (path : List Byte) (h : Held ρ s)
    (hP : P s) (hcwd : 0 < ρ cwd) :
    wp (unlink sb cwd path) (fun _ t => Held ρ t ∧ Keep ρ s t ∧ P t) E s := by
  unfold unlink
  rw [wp_bind]
  refine wp_post (hp.wp_namex path true h hP hcwd) ?_
  rintro r t ⟨ht, hk, hPt⟩
  cases r with
  | none => exact ⟨ht, hk, hPt⟩
  | some r =>
    obtain ⟨dp, name⟩ := r
    simp only [wp_bind]
    refine wp_post (hp.wp_ilock ht hPt dp) ?_
    rintro _ t1 ⟨⟨ht1, hk1, hpos, hv⟩, hPt1⟩
    have hk1 := hk.trans (Keep.of_take hk1)
    have hout : ∀ v, Held (take ρ dp) v → Keep ρ s v → P v →
        wp (do
          iunlockput dp
          pure (-1)) (fun (_ : ℤ) t => Held ρ t ∧ Keep ρ s t ∧ P t) E v := by
      intro v h1 h2 h3
      rw [wp_bind]
      refine wp_post (hp.wp_iunlockput h1 h3 (take_self_pos ρ dp)) ?_
      rintro _ w ⟨⟨h4, h5⟩, h6⟩
      rw [drop_take] at h4 h5
      exact ⟨h4, h2.trans h5, h6⟩
    split
    · exact hout t1 ht1 hk1 hPt1
    · rw [wp_bind]
      refine wp_post (hp.wp_dirlookup name ht1 hPt1 hpos hv) ?_
      rintro r t2 ⟨ht2, hk2, hPt2⟩
      have hk2' := hk1.trans (Keep.of_take hk2)
      cases r with
      | none => exact hout t2 ht2 hk2' hPt2
      | some r =>
        obtain ⟨ip, off⟩ := r
        refine wp_post (hp.wp_unlinkEntry off ht2 hPt2 ((hk2 dp hpos).2 hv)) ?_
        rintro _ _ ⟨h1, h2, h3⟩
        exact ⟨h1, hk2'.trans h2, h3⟩

lemma Stable.wp_createFail (hp : Stable sb P E) {dp ip : ℕ} (h : Held (take (take ρ dp) ip) s)
    (hP : P s) (hv : (s.inodes ip).valid = true) :
    wp (createFail dp ip) (fun r t => r = none ∧ Held ρ t ∧ Keep ρ s t ∧ P t) E s := by
  have hip : 0 < take (take ρ dp) ip ip := take_self_pos _ ip
  unfold createFail
  rw [wp_bind]
  refine wp_post (hp.wp_relink h hP hip hv (shallow_nlink fun _ => 0)) fun _ t ht => ?_
  rw [wp_bind]
  refine wp_post ht ?_
  rintro _ u ⟨⟨hu, hk⟩, hPu⟩
  rw [wp_bind]
  refine wp_post (hp.wp_iunlockput hu hPu hip) ?_
  rintro _ v ⟨⟨hv1, hk1⟩, hPv⟩
  rw [drop_take] at hv1 hk1
  rw [wp_bind]
  refine wp_post (hp.wp_iunlockput hv1 hPv (take_self_pos ρ dp)) ?_
  rintro _ w ⟨⟨h1, h2⟩, h3⟩
  rw [drop_take] at h1 h2
  exact ⟨rfl, h1, (hk.of_take.of_take.trans hk1.of_take).trans h2, h3⟩

lemma Stable.wp_createDots (hp : Stable sb P E) {dp ip : ℕ} (type : Ftype) (h : Held ρ s)
    (hP : P s) (hi : 0 < ρ ip) (hv : (s.inodes ip).valid = true) :
    wp (createDots sb dp ip type) (fun _ t => (Held ρ t ∧ Keep ρ s t) ∧ P t) E s := by
  unfold createDots
  split
  · simp only [wp_bind, wp_get]
    refine wp_post (hp.wp_dirlink _ _ h hP hi hv) ?_
    rintro r t ⟨⟨ht, hk⟩, hPt⟩
    split
    · exact ⟨⟨ht, hk⟩, hPt⟩
    · simp only [wp_bind, wp_get]
      refine wp_post (hp.wp_dirlink _ _ ht hPt hi ((hk ip hi).2 hv)) ?_
      rintro r u ⟨⟨hu, hk1⟩, hPu⟩
      split
      · exact ⟨⟨hu, hk.trans hk1⟩, hPu⟩
      · exact ⟨⟨hu, hk.trans hk1⟩, hPu⟩
  · exact ⟨⟨h, Keep.refl ρ s⟩, hP⟩

/-- What holds when `create` returns: the inode is referenced once more, and locked. -/
def Created (ρ : ℕ → ℕ) (s : Disk) (r : Option ℕ) (t : Disk) : Prop :=
  Held (takeO ρ r) t ∧ Keep ρ s t ∧ ∀ ip, r = some ip → (t.inodes ip).valid = true

lemma Stable.wp_createNew (hp : Stable sb P E) {dp : ℕ} (name : List Byte) (type : Ftype)
    (major minor : ℤ) (h : Held (take ρ dp) s) (hP : P s) (hv : (s.inodes dp).valid = true) :
    wp (createNew sb dp name type major minor) (fun r t => Created ρ s r t ∧ P t) E s := by
  have hdp := take_self_pos ρ dp
  unfold createNew
  simp only [wp_bind, wp_get]
  rw [h.dev dp hdp]
  refine wp_post (hp.wp_ialloc h hP type) ?_
  rintro r t ⟨⟨hk, ht⟩, hPt⟩
  have hvd := (hk dp hdp).2 hv
  cases r with
  | none =>
    simp only [wp_bind]
    refine wp_post (hp.wp_iunlockput ht hPt hdp) ?_
    rintro _ u ⟨⟨h1, h2⟩, h3⟩
    simp only [takeO, drop_take] at h1 h2
    exact ⟨⟨h1, hk.of_take.trans h2, fun _ hc => by cases hc⟩, h3⟩
  | some ip =>
    have hip := take_self_pos (take ρ dp) ip
    have hdp' : 0 < take (take ρ dp) ip dp := take_pos hdp
    simp only [wp_bind, takeO] at ht ⊢
    refine wp_post (hp.wp_ilock ht hPt ip) ?_
    rintro _ t1 ⟨⟨ht1, hk1, -, hvi⟩, hPt1⟩
    have hvd := (hk1 dp hdp').2 hvd
    have hk1 := hk.of_take.trans hk1.of_take.of_take
    refine wp_post (hp.wp_relink ht1 hPt1 hip hvi fun d => ⟨rfl, rfl, rfl⟩) fun _ t2 ht2 => ?_
    refine wp_post ht2 ?_
    rintro _ t3 ⟨⟨ht3, hk3⟩, hPt3⟩
    have hvi := (hk3 ip hip).2 hvi
    have hvd := (hk3 dp hdp').2 hvd
    have hk3 := hk1.trans hk3.of_take.of_take
    refine wp_post (hp.wp_createDots type ht3 hPt3 hip hvi) ?_
    rintro ok t4 ⟨⟨ht4, hk4⟩, hPt4⟩
    have hvi := (hk4 ip hip).2 hvi
    have hvd := (hk4 dp hdp').2 hvd
    have hk4 := hk3.trans hk4.of_take.of_take
    have hfail : ∀ v, Held (take (take ρ dp) ip) v → Keep ρ s v → P v →
        (v.inodes ip).valid = true →
        wp (createFail dp ip) (fun r t => Created ρ s r t ∧ P t) E v := by
      intro v h1 h2 h3 h4
      refine wp_post (hp.wp_createFail h1 h3 h4) ?_
      rintro _ w ⟨rfl, h5, h6, h7⟩
      exact ⟨⟨h5, h2.trans h6, fun _ hc => by cases hc⟩, h7⟩
    split
    · exact hfail t4 ht4 hk4 hPt4 hvi
    simp only [wp_bind, wp_get]
    refine wp_post (hp.wp_dirlink name _ ht4 hPt4 hdp' hvd) ?_
    rintro r t5 ⟨⟨ht5, hk5⟩, hPt5⟩
    have hvi := (hk5 ip hip).2 hvi
    have hvd := (hk5 dp hdp').2 hvd
    have hk5 := hk4.trans hk5.of_take.of_take
    split
    · exact hfail t5 ht5 hk5 hPt5 hvi
    rw [wp_bind]
    refine wp_post (hp.wp_parentLink _ _ ht5 hPt5 hdp' hvd) ?_
    rintro _ t6 ⟨⟨ht6, hk6⟩, hPt6⟩
    have hvi := (hk6 ip hip).2 hvi
    have hk6 := hk5.trans hk6.of_take.of_take
    rw [wp_bind]
    refine wp_post (hp.wp_iunlockput ht6 hPt6 hdp') ?_
    rintro _ w ⟨⟨h1, h2⟩, h3⟩
    rw [drop_take_take] at h1 h2
    refine ⟨⟨h1, hk6.trans h2.of_take, fun _ hc => ?_⟩, h3⟩
    cases hc
    exact (h2 ip (take_self_pos ρ ip)).2 hvi

/-- **References of create**: the one to the inode it returns, and no other. -/
lemma Stable.wp_create (hp : Stable sb P E) {cwd : ℕ} (path : List Byte) (type : Ftype)
    (major minor : ℤ) (h : Held ρ s) (hP : P s) (hcwd : 0 < ρ cwd) :
    wp (create sb cwd path type major minor) (fun r t => Created ρ s r t ∧ P t) E s := by
  unfold create
  rw [wp_bind]
  refine wp_post (hp.wp_namex path true h hP hcwd) ?_
  rintro r t ⟨ht, hk, hPt⟩
  cases r with
  | none => exact ⟨⟨ht, hk, fun _ hc => by cases hc⟩, hPt⟩
  | some r =>
    obtain ⟨dp, name⟩ := r
    simp only [wp_bind]
    refine wp_post (hp.wp_ilock ht hPt dp) ?_
    rintro _ t1 ⟨⟨ht1, hk1, hpos, hv⟩, hPt1⟩
    have hk1 := hk.trans (Keep.of_take hk1)
    refine wp_post (hp.wp_dirlookup name ht1 hPt1 hpos hv) ?_
    rintro r t2 ⟨ht2, hk2, hPt2⟩
    have hv := (hk2 dp hpos).2 hv
    have hk2 := hk1.trans (Keep.of_take hk2)
    cases r with
    | none =>
      refine wp_post (hp.wp_createNew name type major minor ht2 hPt2 hv) ?_
      rintro r u ⟨⟨h1, h2, h3⟩, h4⟩
      exact ⟨⟨h1, hk2.trans h2, h3⟩, h4⟩
    | some r =>
      obtain ⟨ip, off⟩ := r
      simp only [wp_bind, wp_get]
      refine wp_post (hp.wp_iunlockput ht2 hPt2 (take_pos hpos)) ?_
      rintro _ t3 ⟨⟨ht3, hk3⟩, hPt3⟩
      simp only [Option.map_some, takeO, drop_take_take] at ht3 hk3
      have hk3 := hk2.trans hk3.of_take
      refine wp_post (hp.wp_ilock ht3 hPt3 ip) ?_
      rintro _ t4 ⟨⟨ht4, hk4, hpos4, hv4⟩, hPt4⟩
      have hk4 := hk3.trans hk4.of_take
      split
      · exact ⟨⟨ht4, hk4, fun _ hc => by cases hc; exact hv4⟩, hPt4⟩
      · rw [wp_bind]
        refine wp_post (hp.wp_iunlockput ht4 hPt4 hpos4) ?_
        rintro _ u ⟨⟨h1, h2⟩, h3⟩
        rw [drop_take] at h1 h2
        exact ⟨⟨h1, hk4.trans h2, fun _ hc => by cases hc⟩, h3⟩

lemma stable_true : Stable sb (fun _ => True) fun _ => True where
  panic _ _ := trivial
  iget _ _ _ := wp_true
  idup _ _ _ := wp_true
  ilock _ _ _ := wp_true
  iput _ _ _ := wp_true
  ialloc _ _ _ := wp_true
  readi _ _ _ _ _ _ _ _ := wp_true
  writei _ _ _ _ _ _ _ _ := wp_true
  relink _ _ _ _ _ := wp_post wp_true fun _ _ _ => wp_true

end Xv6.Fs
