import Xv6.FsConsistent
import Mathlib.Data.List.TakeWhile

/-!
Directories as lists of entries: `dirlookup` finds the first live entry of a name, `dirlink` puts an
entry in the first place that is not live, at the end if there is none.
-/

namespace Xv6.Fs

open Xv6.ByteMem Xv6.Wp

variable {sb : Superblock} {ρ : ℕ → ℕ} {s t u : Disk} {i j k n dp : ℕ} {E : Panic → Prop}
  {name nm : List Byte} {e : Dirent} {es : List Dirent}

/-! ### Names -/

/-- A name up to its NUL, cut to `DIRSIZ` bytes. -/
def cut (name : List Byte) : List Byte := (name.takeWhile (· ≠ 0)).take DIRSIZ

lemma takeWhile_of_end {l : List Byte} (h : l.headD 0 = 0) : l.takeWhile (· ≠ 0) = [] := by
  cases l with
  | nil => rfl
  | cons a l => exact List.takeWhile_cons_of_neg (by simpa using h)

lemma takeWhile_of_headD {l : List Byte} (h : l.headD 0 ≠ 0) :
    l.takeWhile (· ≠ 0) = l.headD 0 :: l.tail.takeWhile (· ≠ 0) := by
  cases l with
  | nil => exact absurd rfl h
  | cons a l => exact List.takeWhile_cons_of_pos (by simpa using h)

/-- `strncmp` compares the strings, cut to `n` bytes. -/
lemma strncmp_eq_zero (n : ℕ) (p q : List Byte) : strncmp n p q = 0 ↔
    (p.takeWhile (· ≠ 0)).take n = (q.takeWhile (· ≠ 0)).take n := by
  induction n generalizing p q with
  | zero => simp [strncmp]
  | succ n ih =>
    rw [strncmp]
    by_cases hc : p.headD 0 ≠ 0 ∧ p.headD 0 = q.headD 0
    · have hq : q.headD 0 ≠ 0 := hc.2 ▸ hc.1
      rw [if_pos hc, ih, takeWhile_of_headD hc.1, takeWhile_of_headD hq, List.take_succ_cons,
        List.take_succ_cons, hc.2, List.cons.injEq, and_iff_right rfl]
    · rw [if_neg hc]
      have hsub : ((p.headD 0).toNat : ℤ) - (q.headD 0).toNat = 0 ↔ p.headD 0 = q.headD 0 := by
        rw [← BitVec.toNat_inj]
        omega
      rw [hsub]
      by_cases hp : p.headD 0 = 0
      · rw [takeWhile_of_end hp, hp, List.take_nil]
        by_cases hq : q.headD 0 = 0
        · simp only [hq, takeWhile_of_end hq, List.take_nil]
        · rw [takeWhile_of_headD hq, List.take_succ_cons]
          exact ⟨fun he => absurd he.symm hq, fun he => by cases he⟩
      · have hne : p.headD 0 ≠ q.headD 0 := fun he => hc ⟨hp, he⟩
        rw [takeWhile_of_headD hp, List.take_succ_cons]
        refine ⟨fun he => absurd he hne, fun he => ?_⟩
        by_cases hq : q.headD 0 = 0
        · rw [takeWhile_of_end hq] at he
          cases he
        · rw [takeWhile_of_headD hq, List.take_succ_cons] at he
          exact absurd (List.cons.inj he).1 hne

lemma namecmp_eq_zero (p q : List Byte) : namecmp p q = 0 ↔ cut p = cut q :=
  strncmp_eq_zero DIRSIZ p q

lemma length_strncpy (n : ℕ) (l : List Byte) : (strncpy n l).length = n := by
  induction n generalizing l with
  | zero => rfl
  | succ n ih =>
    unfold strncpy
    split_ifs
    · simp
    · simp [ih]

lemma takeWhile_strncpy (n : ℕ) (l : List Byte) :
    (strncpy n l).takeWhile (· ≠ 0) = (l.takeWhile (· ≠ 0)).take n := by
  induction n generalizing l with
  | zero => rfl
  | succ n ih =>
    unfold strncpy
    by_cases h : l.headD 0 = 0
    · rw [if_pos h, takeWhile_of_end h]
      exact takeWhile_of_end rfl
    · rw [if_neg h, takeWhile_of_headD h, List.take_succ_cons, ← ih]
      exact takeWhile_of_headD h

@[simp] lemma cut_strncpy (l : List Byte) : cut (strncpy DIRSIZ l) = cut l := by
  unfold cut
  rw [takeWhile_strncpy, List.take_take, Nat.min_self]

/-! ### Entries -/

lemma ofBytes_toBytes (h : e.inum < 2 ^ 16) : Dirent.ofBytes e.toBytes = e := by
  have h1 : e.inum % 256 + 256 * (e.inum / 256 % 256) = e.inum := by omega
  simp only [Dirent.ofBytes, Dirent.toBytes, List.getD_cons_zero, List.getD_cons_succ,
    toNat_ofNat_byte, h1]
  rfl

/-- Entry `k` of the contents of a directory. -/
def direntAt (bs : List Byte) (k : ℕ) : Dirent :=
  Dirent.ofBytes ((bs.drop (k * DESIZE)).take DESIZE)

def dirents (bs : List Byte) : List Dirent :=
  (List.range (bs.length / DESIZE)).map (direntAt bs)

@[simp] lemma length_dirents (bs : List Byte) : (dirents bs).length = bs.length / DESIZE := by
  simp [dirents]

lemma getElem?_dirents (bs : List Byte) (k : ℕ) :
    (dirents bs)[k]? = if k < bs.length / DESIZE then some (direntAt bs k) else none := by
  rw [dirents, List.getElem?_map]
  split_ifs with hk
  · rw [List.getElem?_range hk]
    rfl
  · rw [List.getElem?_eq_none (by simpa using hk)]
    rfl

lemma getElem?_overwrite {α : Type} {l : List α} (ds : List α) {off : ℕ} (h : off ≤ l.length)
    (o : ℕ) : (overwrite l off ds)[o]? =
      if off ≤ o ∧ o < off + ds.length then ds[o - off]? else l[o]? := by
  unfold overwrite
  rw [List.append_assoc, List.getElem?_append, List.getElem?_append, List.length_take,
    Nat.min_eq_left h, List.getElem?_take, List.getElem?_drop]
  by_cases h1 : o < off
  · rw [if_pos h1, if_pos h1, if_neg (by omega)]
  · by_cases h2 : o < off + ds.length
    · rw [if_neg h1, if_pos (by omega), if_pos (by omega)]
    · rw [if_neg h1, if_neg (by omega), if_neg (by omega)]
      congr 1
      omega

/-- The bytes of an entry after another one has been written. -/
lemma direntAt_overwrite {bs ds : List Byte} (hlen : ds.length = DESIZE)
    (hj : j * DESIZE ≤ bs.length) (k : ℕ) : direntAt (overwrite bs (j * DESIZE) ds) k =
      if k = j then Dirent.ofBytes ds else direntAt bs k := by
  unfold direntAt
  have hget : ∀ r, r < 16 → (overwrite bs (j * DESIZE) ds)[k * DESIZE + r]? =
      if k = j then ds[r]? else bs[k * DESIZE + r]? := by
    intro r hr
    rw [getElem?_overwrite _ hj, hlen]
    unfold DESIZE DIRSIZ
    by_cases hk : k = j
    · rw [if_pos (by omega), if_pos hk, hk, Nat.add_sub_cancel_left]
    · rw [if_neg (by omega), if_neg hk]
  have hchunk : ((overwrite bs (j * DESIZE) ds).drop (k * DESIZE)).take DESIZE =
      if k = j then ds else (bs.drop (k * DESIZE)).take DESIZE := by
    refine List.ext_getElem? fun r => ?_
    rw [List.getElem?_take, List.getElem?_drop]
    by_cases hr : r < DESIZE
    · rw [if_pos hr, hget r hr]
      split_ifs with hk
      · rfl
      · rw [List.getElem?_take, if_pos hr, List.getElem?_drop]
    · rw [if_neg hr]
      split_ifs with hk
      · exact (List.getElem?_eq_none (by omega)).symm
      · rw [List.getElem?_take, if_neg hr]
  rw [hchunk]
  split_ifs <;> rfl

lemma dirents_overwrite {bs ds : List Byte} (hlen : ds.length = DESIZE)
    (hj : j ≤ bs.length / DESIZE) :
    dirents (overwrite bs (j * DESIZE) ds) = overwrite (dirents bs) j [Dirent.ofBytes ds] := by
  have hle : j * DESIZE ≤ bs.length := by
    unfold DESIZE DIRSIZ at *
    omega
  have hlen2 : (overwrite bs (j * DESIZE) ds).length / DESIZE =
      max (bs.length / DESIZE) (j + 1) := by
    rw [length_overwrite _ hle, hlen]
    unfold DESIZE DIRSIZ at *
    omega
  refine List.ext_getElem? fun k => ?_
  rw [getElem?_dirents, hlen2, direntAt_overwrite hlen hle,
    getElem?_overwrite _ (by rwa [length_dirents]), getElem?_dirents, List.length_singleton]
  by_cases hk : k = j
  · rw [if_pos (by omega), if_pos hk, if_pos (by omega), hk, Nat.sub_self]
    rfl
  · rw [if_neg hk, if_neg (by omega : ¬(j ≤ k ∧ k < j + 1))]
    exact if_congr (by omega) rfl rfl

/-- The entry is live and has the name. -/
def Dirent.Names (name : List Byte) (e : Dirent) : Prop := e.inum ≠ 0 ∧ cut e.name = cut name

instance (name : List Byte) (e : Dirent) : Decidable (e.Names name) :=
  inferInstanceAs (Decidable (_ ∧ _))

/-- The first live entry with the name. -/
def findName (name : List Byte) (es : List Dirent) : Option Dirent :=
  es.find? fun e => e.Names name

lemma findName_cons_of_names (h : e.Names name) : findName name (e :: es) = some e :=
  List.find?_cons_of_pos (by simpa using h)

lemma findName_cons_of_not (h : ¬e.Names name) : findName name (e :: es) = findName name es :=
  List.find?_cons_of_neg (by simpa using h)

/-! ### Reading a directory -/

/-- Table entry `dp` is a directory, held in memory, without holes. -/
structure Dir (sb : Superblock) (dp : ℕ) (s : Disk) : Prop where
  acct : Acct sb s.bits (refs s dp)
  type : (s.inodes dp).copy.type = .dir
  size : (s.inodes dp).copy.size ≤ MAXFILE * BSIZE
  holeFree : HoleFree s dp

lemma Dir.type_ne (h : Dir sb dp s) : (s.inodes dp).copy.type ≠ .free := by
  rw [h.type]
  decide

lemma Consistent.dir (h : Consistent sb s) (hρ : Held ρ s) (hi : 0 < ρ dp)
    (hv : (s.inodes dp).valid = true) (ht : (s.inodes dp).copy.type = .dir) : Dir sb dp s :=
  ⟨h.acct_at hρ hi hv, ht, h.size_le hρ hi hv, h.holeFree hρ hi hv⟩

/-- The entries of a directory in memory. -/
def entries (s : Disk) (dp : ℕ) : List Dirent := dirents (fileBytes s dp)

lemma length_entries (s : Disk) (dp : ℕ) :
    (entries s dp).length = (s.inodes dp).copy.size / DESIZE := by
  rw [entries, length_dirents, length_fileBytes]

/-- The directory is a sequence of entries. -/
def Whole (s : Disk) (dp : ℕ) : Prop := (s.inodes dp).copy.size % DESIZE = 0

lemma maxfile_bytes : MAXFILE * BSIZE = 274432 := rfl

lemma Dir.size_lt (h : Dir sb dp s) : (s.inodes dp).copy.size < 2 ^ 32 := by
  have := h.size
  rw [maxfile_bytes] at this
  omega

lemma Dir.readi_entry (h : Dir sb dp s) (hk : k < (entries s dp).length) :
    ∃ bs, readi sb dp kernelDst (k * DESIZE) DESIZE s = .ok ((DESIZE, bs), s) ∧
      Dirent.ofBytes bs = (entries s dp)[k] := by
  have hlt := h.size_lt
  have hk' := hk
  rw [length_entries] at hk
  have hend : k * DESIZE + DESIZE ≤ (s.inodes dp).copy.size := by
    unfold DESIZE DIRSIZ at *
    omega
  refine ⟨((fileBytes s dp).drop (k * DESIZE)).take DESIZE, ?_, ?_⟩
  · rw [readi_run h.acct h.type_ne h.size h.holeFree (by omega) DESIZE_lt, if_neg (by omega),
      Nat.min_eq_left (by omega)]
  · have hget : (entries s dp)[k]? = some (direntAt (fileBytes s dp) k) := by
      rw [entries, getElem?_dirents, length_fileBytes, if_pos hk]
    rw [List.getElem?_eq_getElem hk'] at hget
    exact (Option.some.inj hget).symm

lemma Dir.readi_ragged (h : Dir sb dp s) (hk : k = (entries s dp).length)
    (hlt : k * DESIZE < (s.inodes dp).copy.size) :
    ∃ (r : ℤ) (bs : List Byte), readi sb dp kernelDst (k * DESIZE) DESIZE s = .ok ((r, bs), s) ∧
      r ≠ DESIZE := by
  have hsize := h.size_lt
  rw [length_entries] at hk
  have hrun := readi_run h.acct h.type_ne h.size h.holeFree (by omega : k * DESIZE < 2 ^ 32)
    DESIZE_lt
  have hend : (s.inodes dp).copy.size - k * DESIZE < DESIZE := by
    unfold DESIZE DIRSIZ at *
    omega
  have hsum : k * DESIZE + DESIZE < 2 ^ 32 := by
    have := h.size
    rw [maxfile_bytes] at this
    unfold DESIZE DIRSIZ at *
    omega
  rw [if_neg (by omega), Nat.min_eq_right (by omega)] at hrun
  exact ⟨_, _, hrun, by omega⟩

/-- Only this may stop a search: there is no room in the table, or the directory is not whole. -/
def SearchStop (s : Disk) (dp : ℕ) (e : Panic) : Prop :=
  e = .iget ∨ ¬Whole s dp ∧ (e = .dirlookup_read ∨ e = .dirlink_read)

/-- What the search for a name among the entries from `k` on leads to. -/
def Searched (name : List Byte) (k : ℕ) (s : Disk) (dp : ℕ) (r : Option (ℕ × ℕ)) (t : Disk) :
    Prop :=
  match r with
  | none => t = s ∧ findName name ((entries s dp).drop k) = none
  | some (i, off) => ∃ j e, (entries s dp)[j]? = some e ∧ off = j * DESIZE ∧
    findName name ((entries s dp).drop k) = some e ∧
    iget (s.inodes dp).dev e.inum s = .ok (i, t)

lemma iget_panic (dev inum : ℕ) : wp (iget dev inum) (fun i t => iget dev inum s = .ok (i, t) ∧
    (t.inodes i).inum = inum ∧ SameDisk s t) (· = .iget) s := by
  have hw : wp (iget dev inum) (fun i t => (t.inodes i).inum = inum ∧ SameDisk s t) (· = .iget)
      s := by
    unfold iget
    simp only [wp_bind, wp_get]
    split
    · rename_i i hf
      have hfound := List.find?_some hf
      rw [decide_eq_true_eq] at hfound
      simp only [wp_bind, setInode, wp_modify, wp_pure, Function.update_self]
      exact ⟨hfound.2.2, rfl, rfl, rfl⟩
    · split
      · simp only [wp_bind, setInode, wp_modify, wp_pure, Function.update_self]
        exact ⟨trivial, rfl, rfl, rfl⟩
      · exact rfl
  unfold wp at hw ⊢
  cases hr : iget dev inum s with
  | ok r =>
    rw [hr] at hw
    exact ⟨rfl, hw⟩
  | error e =>
    rw [hr] at hw
    exact hw

lemma dirlookupLoop_spec (h : Dir sb dp s) (name : List Byte) (fuel k : ℕ)
    (hk : k ≤ (entries s dp).length) (hfuel : (entries s dp).length - k < fuel) :
    wp (dirlookupLoop sb dp name fuel (k * DESIZE)) (Searched name k s dp) (SearchStop s dp) s := by
  induction fuel generalizing k with
  | zero => omega
  | succ fuel ih =>
    unfold dirlookupLoop
    simp only [wp_bind, wp_get]
    have hlen := length_entries s dp
    by_cases hlt : k < (entries s dp).length
    · have hoff : k * DESIZE < (s.inodes dp).copy.size := by
        unfold DESIZE DIRSIZ at *
        omega
      obtain ⟨bs, hrun, hbs⟩ := h.readi_entry hlt
      have hdrop := List.drop_eq_getElem_cons hlt
      rw [if_pos hoff, wp_bind, wp_of_run hrun]
      dsimp only
      rw [if_neg (by simp), hbs]
      have hnext : ¬((entries s dp)[k]).Names name → wp (dirlookupLoop sb dp name fuel
          (k * DESIZE + DESIZE)) (Searched name k s dp) (SearchStop s dp) s := by
        intro hnot
        rw [← Nat.succ_mul]
        refine wp_post (ih (k + 1) hlt (by omega)) fun r t ht => ?_
        unfold Searched at *
        rwa [hdrop, findName_cons_of_not hnot]
      split_ifs with h0 hcmp
      · exact hnext fun hc => hc.1 h0
      · have hnames : ((entries s dp)[k]).Names name :=
          ⟨h0, ((namecmp_eq_zero _ _).mp hcmp).symm⟩
        rw [wp_bind]
        refine wp_mono (iget_panic _ _) (fun i t hi => ?_) fun e he => Or.inl he
        refine ⟨k, _, List.getElem?_eq_getElem hlt, rfl, ?_, hi.1⟩
        rw [hdrop, findName_cons_of_names hnames]
      · exact hnext fun hc => hcmp ((namecmp_eq_zero _ _).mpr hc.2.symm)
    · have hend : k = (entries s dp).length := by omega
      by_cases hoff : k * DESIZE < (s.inodes dp).copy.size
      · obtain ⟨r, bs, hrun, hr⟩ := h.readi_ragged hend hoff
        rw [if_pos hoff, wp_bind, wp_of_run hrun]
        dsimp only
        rw [if_pos hr]
        refine Or.inr ⟨fun hw => ?_, Or.inl rfl⟩
        unfold Whole at hw
        unfold DESIZE DIRSIZ at *
        omega
      · rw [if_neg hoff]
        refine ⟨rfl, ?_⟩
        rw [hend, List.drop_length]
        rfl

/-- **dirlookup** finds the first live entry of the name. -/
lemma dirlookup_spec (h : Dir sb dp s) (name : List Byte) :
    wp (dirlookup sb dp name) (Searched name 0 s dp) (SearchStop s dp) s := by
  unfold dirlookup
  simp only [wp_bind, wp_get]
  rw [if_neg (by simp [h.type])]
  rw [← length_entries]
  have hloop := dirlookupLoop_spec h name ((entries s dp).length + 2) 0 (Nat.zero_le _) (by omega)
  rwa [Nat.zero_mul] at hloop

/-! ### Writing a directory -/

/-- **dirlink** looks for the first entry that is not live. -/
lemma dirlinkLoop_spec (h : Dir sb dp s) (fuel k : ℕ) (hk : k ≤ (entries s dp).length)
    (hfuel : (entries s dp).length - k < fuel) :
    wp (dirlinkLoop sb dp fuel (k * DESIZE)) (fun off t => t = s ∧
      ∃ j ≤ (entries s dp).length, off = j * DESIZE ∧ ∀ e, (entries s dp)[j]? = some e → e.inum = 0)
      (SearchStop s dp) s := by
  induction fuel generalizing k with
  | zero => omega
  | succ fuel ih =>
    unfold dirlinkLoop
    simp only [wp_bind, wp_get]
    have hlen := length_entries s dp
    by_cases hlt : k < (entries s dp).length
    · have hoff : k * DESIZE < (s.inodes dp).copy.size := by
        unfold DESIZE DIRSIZ at *
        omega
      obtain ⟨bs, hrun, hbs⟩ := h.readi_entry hlt
      rw [if_pos hoff, wp_bind, wp_of_run hrun]
      dsimp only
      rw [if_neg (by simp), hbs]
      split_ifs with h0
      · refine ⟨rfl, k, hk, rfl, fun e he => ?_⟩
        rw [List.getElem?_eq_getElem hlt] at he
        exact Option.some.inj he ▸ h0
      · rw [← Nat.succ_mul]
        exact ih (k + 1) hlt (by omega)
    · have hend : k = (entries s dp).length := by omega
      by_cases hoff : k * DESIZE < (s.inodes dp).copy.size
      · obtain ⟨r, bs, hrun, hr⟩ := h.readi_ragged hend hoff
        rw [if_pos hoff, wp_bind, wp_of_run hrun]
        dsimp only
        rw [if_pos hr]
        refine Or.inr ⟨fun hw => ?_, Or.inr rfl⟩
        unfold Whole at hw
        unfold DESIZE DIRSIZ at *
        omega
      · rw [if_neg hoff]
        refine ⟨rfl, k, hk, rfl, fun e he => ?_⟩
        rw [List.getElem?_eq_none (by omega)] at he
        cases he

lemma entry_stop {bs : List Byte} {d p : ℕ} {K : Finset ℕ} {t : Disk}
    (h : Logged.Stop sb dp (kernelSrc bs) (j * DESIZE) DESIZE d p K t) :
    p = 0 ∧ (d = DESIZE ∨ d = 0 ∧ blockIn t dp (slot (j * DESIZE / BSIZE)) = 0) := by
  cases h with
  | done all clean slots => exact ⟨clean, Or.inl all⟩
  | full short clean start slots none_left lacks =>
    have hd : d = 0 := by
      unfold DESIZE DIRSIZ BSIZE at *
      omega
    subst hd
    exact ⟨clean, Or.inr ⟨rfl, lacks⟩⟩
  | fault short start slots part unmapped has => cases unmapped

lemma Dir.finish {src : ℕ → Option Byte} {off d p : ℕ} {K : Finset ℕ} {t : Logged.Traced}
    (h : Dir sb dp s) (hw : Logged.Wrote sb dp src off d p K ⟨s, ∅⟩ t)
    (hoff : off ≤ (s.inodes dp).copy.size) (hend : off + d ≤ MAXFILE * BSIZE) :
    Dir sb dp (finish t.disk dp (off + d)) := by
  refine ⟨?_, ?_, ?_, hw.holeFree h.holeFree hoff⟩
  · rw [refs_finish]
    exact hw.filled.acct
  · rw [finish_self]
    exact hw.filled.copy_type.trans h.type
  · rw [finish_self, hw.filled.copy_size]
    exact Nat.max_le.mpr ⟨h.size, hend⟩

/-- **Writing an entry** puts it over another or at the end, or leaves the directory as it is; the
latter only at the end. -/
lemma writei_entry (h : Dir sb dp s) (hw : Whole s dp) {bs : List Byte} (hbs : bs.length = DESIZE)
    (hj : j ≤ (entries s dp).length) :
    wp (writei sb dp (kernelSrc bs) (j * DESIZE) DESIZE) (fun r t => Dir sb dp t ∧ Whole t dp ∧
      (r = DESIZE ∧ entries t dp = overwrite (entries s dp) j [Dirent.ofBytes bs] ∨
        r ≠ DESIZE ∧ entries t dp = entries s dp ∧ j = (entries s dp).length)) E s := by
  have hlen := length_entries s dp
  have hoff : j * DESIZE ≤ (s.inodes dp).copy.size := by
    unfold DESIZE DIRSIZ at *
    omega
  have hin : j < (entries s dp).length → j * DESIZE + DESIZE ≤ (s.inodes dp).copy.size := by
    intro hlt
    unfold DESIZE DIRSIZ at *
    omega
  refine wp_post (writei_cases h.acct h.type_ne (kernelSrc bs) (j * DESIZE) DESIZE_lt) ?_
  rintro r u (⟨rfl, rfl, hr⟩ | ⟨d, p, K, t, rfl, -, hend, hwr, hstop, rfl⟩)
  · refine ⟨h, hw, Or.inr ⟨by decide, rfl, ?_⟩⟩
    by_contra hne
    have h1 := hin (by omega)
    have h2 := h.size
    have h3 := h.size_lt
    unfold Rejected at hr
    omega
  obtain ⟨rfl, hd⟩ := entry_stop hstop
  have hle : j * DESIZE + d ≤ MAXFILE * BSIZE := by
    rcases hd with rfl | ⟨rfl, -⟩
    · exact hend
    · exact hoff.trans h.size
  have hbytes := hwr.fileBytes hoff fun o _ _ => by omega
  have hwhole : (max (s.inodes dp).copy.size (j * DESIZE + d)) % DESIZE = 0 := by
    unfold Whole at hw
    unfold DESIZE DIRSIZ at *
    omega
  refine ⟨h.finish hwr hoff hle, ?_, ?_⟩
  · rw [Whole, finish_self, hwr.filled.copy_size]
    exact hwhole
  · rcases hd with rfl | ⟨rfl, hlacks⟩
    · refine Or.inl ⟨rfl, ?_⟩
      have hsrc : (List.range DESIZE).map (fun k => (kernelSrc bs k).getD 0) = bs := by
        refine List.ext_getElem (by simp [hbs]) fun k h1 h2 => ?_
        rw [List.getElem_map, List.getElem_range]
        exact List.getD_eq_getElem _ _ h2
      rw [entries, hbytes, hsrc, dirents_overwrite hbs (by rwa [length_fileBytes, ← hlen])]
      rfl
    · refine Or.inr ⟨by decide, ?_, ?_⟩
      · rw [entries, hbytes]
        exact congrArg dirents (overwrite_nil _ _)
      · by_contra hne
        have hhole := h.holeFree (j * DESIZE) (by have := hin (by omega); unfold DESIZE at *; omega)
        have hkept : blockIn t.disk dp (slot (j * DESIZE / BSIZE)) =
            blockIn s dp (slot (j * DESIZE / BSIZE)) := hwr.filled.block_kept hhole
        rw [hkept] at hlacks
        exact hhole hlacks

/-! ### A reference that is taken and given back -/

/-- Entry `i` of the table is another one. -/
def putInode (s : Disk) (i : ℕ) (ip : Inode) : Disk :=
  { s with inodes := Function.update s.inodes i ip }

@[simp] lemma putInode_self (s : Disk) (i : ℕ) (ip : Inode) : (putInode s i ip).inodes i = ip :=
  Function.update_self _ _ _

lemma putInode_ne (s : Disk) (ip : Inode) (h : j ≠ i) : (putInode s i ip).inodes j = s.inodes j :=
  Function.update_of_ne h _ _

lemma putInode_disk (s : Disk) (i : ℕ) (ip : Inode) : SameDisk s (putInode s i ip) :=
  ⟨rfl, rfl, rfl⟩

lemma putInode_put (s : Disk) (i : ℕ) (ip jp : Inode) :
    putInode (putInode s i ip) i jp = putInode s i jp := by
  unfold putInode
  dsimp only
  rw [Function.update_idem]

/-- Entry `i` after `iget` has found it. -/
def found (s : Disk) (i : ℕ) : Inode := { s.inodes i with ref := (s.inodes i).ref + 1 }

/-- Entry `i` after `iget` has taken it for another inode. -/
def recycled (s : Disk) (i dev inum : ℕ) : Inode :=
  { s.inodes i with dev := dev, inum := inum, ref := 1, valid := false }

lemma iget_cases {dev inum : ℕ} (hrun : iget dev inum s = .ok (i, t)) :
    0 < (s.inodes i).ref ∧ t = putInode s i (found s i) ∨
    (s.inodes i).ref = 0 ∧ t = putInode s i (recycled s i dev inum) := by
  have hw : wp (iget dev inum) (fun i t => 0 < (s.inodes i).ref ∧ t = putInode s i (found s i) ∨
      (s.inodes i).ref = 0 ∧ t = putInode s i (recycled s i dev inum)) (fun _ => True) s := by
    unfold iget
    simp only [wp_bind, wp_get]
    split
    · rename_i i hf
      have hfound := List.find?_some hf
      rw [decide_eq_true_eq] at hfound
      exact Or.inl ⟨hfound.1, rfl⟩
    · split
      · rename_i i hf
        have hfree := List.find?_some hf
        rw [decide_eq_true_eq] at hfree
        exact Or.inr ⟨hfree, rfl⟩
      · trivial
  rwa [wp_of_run hrun] at hw

/-- Nothing has changed but entries of the table that nobody refers to. -/
structure Untouched (s t : Disk) : Prop where
  disk : SameDisk s t
  ref : ∀ j, (t.inodes j).ref = (s.inodes j).ref
  entry : ∀ j, 0 < (s.inodes j).ref → t.inodes j = s.inodes j

/-- A reference just taken is not the last one to an inode that has been read. -/
lemma iput_iget {dev inum : ℕ} (hrun : iget dev inum s = .ok (i, t)) :
    wp (iput i) (fun _ u => Untouched s u) E t := by
  unfold iput
  simp only [wp_bind, wp_get, setInode]
  rcases iget_cases hrun with ⟨hpos, rfl⟩ | ⟨hzero, rfl⟩
  · rw [putInode_self, if_neg (by simp only [found]; omega), wp_modify]
    have hsame : putInode (putInode s i (found s i)) i (s.inodes i) = s := by
      rw [putInode_put]
      unfold putInode
      rw [Function.update_eq_self]
    change Untouched s (putInode (putInode s i (found s i)) i _)
    rw [putInode_self]
    change Untouched s (putInode (putInode s i (found s i)) i (s.inodes i))
    rw [hsame]
    exact ⟨SameDisk.refl s, fun _ => rfl, fun _ _ => rfl⟩
  · rw [putInode_self, if_neg (by simp [recycled]), wp_modify]
    change Untouched s (putInode (putInode s i (recycled s i dev inum)) i _)
    rw [putInode_put, putInode_self]
    refine ⟨putInode_disk _ _ _, fun j => ?_, fun j hj => putInode_ne _ _ ?_⟩
    · by_cases hji : j = i
      · rw [hji, putInode_self, hzero]
        rfl
      · rw [putInode_ne _ _ hji]
    · rintro rfl
      omega

lemma Dir.congr (h : Dir sb dp s) (hd : SameDisk s t)
    (hi : (t.inodes dp).inum = (s.inodes dp).inum) (hc : (t.inodes dp).copy = (s.inodes dp).copy) :
    Dir sb dp t ∧ entries t dp = entries s dp := by
  have hrefs : refs t dp = refs s dp := by
    unfold refs cur
    rw [hi, hc, hd.dinodes, hd.blocks]
  have hblock : ∀ k, blockIn t dp k = blockIn s dp k := fun k => by rw [blockIn, hrefs, hi]
  refine ⟨⟨?_, ?_, ?_, fun o ho => ?_⟩, ?_⟩
  · rw [hrefs, hd.bits]
    exact h.acct
  · rw [hc, h.type]
  · rw [hc]
    exact h.size
  · rw [hblock]
    rw [hc] at ho
    exact h.holeFree o ho
  · unfold entries fileBytes
    rw [hc]
    refine congrArg dirents (List.map_congr_left fun o _ => ?_)
    rw [content_eq, content_eq, hblock, hd.blocks]

lemma Dir.after_iget {dev inum : ℕ} (h : Dir sb dp s) (hr : 0 < (s.inodes dp).ref)
    (hrun : iget dev inum s = .ok (i, t)) :
    Dir sb dp t ∧ entries t dp = entries s dp ∧ 0 < (t.inodes dp).ref ∧
      (t.inodes dp).copy = (s.inodes dp).copy := by
  have hdp : SameDisk s t ∧ (t.inodes dp).inum = (s.inodes dp).inum ∧
      (t.inodes dp).copy = (s.inodes dp).copy ∧ 0 < (t.inodes dp).ref := by
    rcases iget_cases hrun with ⟨hpos, rfl⟩ | ⟨hzero, rfl⟩
    · by_cases hi : dp = i
      · subst hi
        rw [putInode_self]
        exact ⟨putInode_disk _ _ _, rfl, rfl, Nat.succ_pos _⟩
      · rw [putInode_ne _ _ hi]
        exact ⟨putInode_disk _ _ _, rfl, rfl, hr⟩
    · have hi : dp ≠ i := by
        rintro rfl
        omega
      rw [putInode_ne _ _ hi]
      exact ⟨putInode_disk _ _ _, rfl, rfl, hr⟩
  obtain ⟨h1, h2, h3, h4⟩ := hdp
  exact ⟨(h.congr h1 h2 h3).1, (h.congr h1 h2 h3).2, h4, h3⟩

/-- The new entry of `dirlink`. -/
def newEntry (name : List Byte) (inum : ℕ) : Dirent := ⟨inum % 2 ^ 16, strncpy DIRSIZ name⟩

lemma ofBytes_newEntry (name : List Byte) (inum : ℕ) :
    Dirent.ofBytes (newEntry name inum).toBytes = newEntry name inum :=
  ofBytes_toBytes (Nat.mod_lt _ (by decide))

lemma length_newEntry (name : List Byte) (inum : ℕ) :
    (newEntry name inum).toBytes.length = DESIZE := by
  simp only [newEntry, Dirent.toBytes, List.length_cons, length_strncpy]
  rfl

/-- **dirlink** turns down a name that is there, and otherwise makes an entry, if it can. -/
lemma dirlink_spec (h : Dir sb dp s) (hw : Whole s dp) (name : List Byte)
    (inum : ℕ) : wp (dirlink sb dp name inum) (fun r t =>
      findName name (entries s dp) ≠ none ∧ r = -1 ∧ Untouched s t ∨
      findName name (entries s dp) = none ∧ Dir sb dp t ∧ Whole t dp ∧ tab t = tab s ∧
        (r = 0 ∧ (∃ j ≤ (entries s dp).length, (∀ e, (entries s dp)[j]? = some e → e.inum = 0) ∧
          entries t dp = overwrite (entries s dp) j [newEntry name inum]) ∨
        r = -1 ∧ entries t dp = entries s dp)) (· = .iget) s := by
  have hstop : ∀ e, SearchStop s dp e → e = .iget := by
    rintro e (he | ⟨hn, -⟩)
    · exact he
    · exact absurd hw hn
  unfold dirlink
  rw [wp_bind]
  refine wp_mono (dirlookup_spec h name) ?_ hstop
  intro r t hr
  cases r with
  | some r =>
    obtain ⟨i, off⟩ := r
    obtain ⟨j, e, -, -, hfind, hrun⟩ := hr
    rw [List.drop_zero] at hfind
    simp only [wp_bind, wp_pure]
    refine wp_post (iput_iget hrun) fun _ u hu => Or.inl ⟨?_, trivial, hu⟩
    rw [hfind]
    exact Option.some_ne_none e
  | none =>
    obtain ⟨rfl, hfind⟩ := hr
    rw [List.drop_zero] at hfind
    simp only [wp_bind, wp_get]
    rw [← length_entries]
    have hloop := dirlinkLoop_spec h ((entries t dp).length + 2) 0 (Nat.zero_le _) (by omega)
    rw [Nat.zero_mul] at hloop
    refine wp_mono hloop ?_ hstop
    rintro off u ⟨rfl, j, hj, rfl, hdead⟩
    have hwrite := writei_entry (E := (· = .iget)) h hw (length_newEntry name inum) hj
    have htab : wp (writei sb dp (kernelSrc (newEntry name inum).toBytes) (j * DESIZE) DESIZE)
        (fun _ v => tab v = tab u) (fun _ => True) u := tab_writei dp _ _ _ u
    refine wp_post (wp_join htab hwrite) ?_
    rintro r v ⟨ht, hdir, hwv, hr⟩
    rw [ofBytes_newEntry] at hr
    rcases hr with ⟨rfl, he⟩ | ⟨hr, he, -⟩
    · rw [if_neg (by simp)]
      exact Or.inr ⟨hfind, hdir, hwv, ht, Or.inl ⟨rfl, j, hj, hdead, he⟩⟩
    · rw [if_pos hr]
      exact Or.inr ⟨hfind, hdir, hwv, ht, Or.inr ⟨rfl, he⟩⟩

end Xv6.Fs
