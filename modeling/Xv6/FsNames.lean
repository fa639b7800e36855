import Xv6.FsDir
import Xv6.FsSpace
import Mathlib.Data.List.Induction

/-!
A directory is a finite map from names to inode numbers. `dirlink` and the clearing of an entry in
`sys_unlink` are its updates, `dirlookup` is its application; anything else may happen in between
as long as it does not write to the directory.
-/

namespace Xv6.FsNames

open Xv6.ByteMem Xv6.Wp Xv6.Fs
open Xv6.FsSpace (Locked ordered_boot acct_smallImage noHoles_smallImage)

variable {sb : Superblock} {s t u v s0 : Disk} {i j k dp off inum : ℕ} {E : Panic → Prop}
  {name nm : List Byte} {e d : Dirent} {es : List Dirent}

/-! ### Updates of a map -/

/-- What has been done to a directory. -/
inductive NameOp where
  | link (name : List Byte) (inum : ℕ)
  | clear (name : List Byte)

def NameOp.target : NameOp → List Byte
  | .link name _ | .clear name => name

/-- The map after one operation. -/
def NameOp.apply (m : List Byte → Option ℕ) : NameOp → List Byte → Option ℕ
  | .link name inum => Function.update m (cut name) (some inum)
  | .clear name => Function.update m (cut name) none

/-- The map that operations make of the empty one. -/
def mapOf (ops : List NameOp) : List Byte → Option ℕ := ops.foldl NameOp.apply fun _ => none

/-- The last operation on the name, cut, has linked it to the inode. -/
def LastLinked (ops : List NameOp) (name : List Byte) (inum : ℕ) : Prop :=
  ∃ pre nm post, ops = pre ++ .link nm inum :: post ∧ cut nm = cut name ∧
    ∀ o ∈ post, cut (NameOp.target o) ≠ cut name

lemma mapOf_snoc (ops : List NameOp) (o : NameOp) : mapOf (ops ++ [o]) = o.apply (mapOf ops) := by
  simp [mapOf]

lemma apply_other {m : List Byte → Option ℕ} {o : NameOp} (h : cut name ≠ cut o.target) :
    o.apply m (cut name) = m (cut name) := by
  cases o with
  | link nm inum => exact Function.update_of_ne h _ _
  | clear nm => exact Function.update_of_ne h _ _

lemma lastLinked_nil : ¬LastLinked [] name inum := by
  rintro ⟨pre, nm, post, h, -⟩
  cases pre <;> cases h

lemma lastLinked_snoc {ops : List NameOp} {o : NameOp} : LastLinked (ops ++ [o]) name inum ↔
    cut o.target = cut name ∧ (∃ nm, o = .link nm inum) ∨
      cut o.target ≠ cut name ∧ LastLinked ops name inum := by
  constructor
  · rintro ⟨pre, nm, post, h, hnm, hpost⟩
    rcases List.eq_nil_or_concat post with rfl | ⟨post, o', rfl⟩
    · have hlast := List.append_inj_right' h rfl
      rw [List.cons.injEq] at hlast
      rw [hlast.1]
      exact Or.inl ⟨hnm, nm, rfl⟩
    · rw [List.concat_eq_append, ← List.cons_append, ← List.append_assoc] at h
      have hlast := List.append_inj_right' h rfl
      rw [List.cons.injEq] at hlast
      rw [hlast.1]
      refine Or.inr ⟨hpost o' (by simp), pre, nm, post, List.append_inj_left' h rfl, hnm,
        fun q hq => hpost q (by simp [hq])⟩
  · rintro (⟨ho, nm, rfl⟩ | ⟨ho, pre, nm, post, rfl, hnm, hpost⟩)
    · exact ⟨ops, nm, [], rfl, ho, by simp⟩
    · refine ⟨pre, nm, post ++ [o], by simp, hnm, fun q hq => ?_⟩
      rcases List.mem_append.mp hq with hq | hq
      · exact hpost q hq
      · rwa [List.mem_singleton.mp hq]

/-- **The map knows the last operation on a name.** -/
lemma mapOf_eq_some (ops : List NameOp) (name : List Byte) (inum : ℕ) :
    mapOf ops (cut name) = some inum ↔ LastLinked ops name inum := by
  induction ops using List.reverseRecOn with
  | nil => exact ⟨(nomatch ·), fun h => absurd h lastLinked_nil⟩
  | append_singleton ops o ih =>
    rw [mapOf_snoc, lastLinked_snoc]
    by_cases ho : cut o.target = cut name
    · rw [and_iff_right ho, or_iff_left fun h => h.1 ho]
      cases o with
      | link nm m =>
        have ho : cut nm = cut name := ho
        rw [NameOp.apply, ho, Function.update_self]
        simp
      | clear nm =>
        have ho : cut nm = cut name := ho
        rw [NameOp.apply, ho, Function.update_self]
        simp
    · rw [apply_other (Ne.symm ho), ih, and_iff_right ho, or_iff_right fun h => ho h.1]

/-! ### Entries of a name -/

/-- No two live entries have the same name. -/
def Distinct (es : List Dirent) : Prop :=
  ∀ (j k : ℕ) (e d : Dirent), es[j]? = some e → es[k]? = some d → e.inum ≠ 0 → d.inum ≠ 0 →
    cut e.name = cut d.name → j = k

/-- The inode a directory has under a name. -/
def inumOf (es : List Dirent) (name : List Byte) : Option ℕ := (findName name es).map Dirent.inum

lemma findName_eq_none : findName name es = none ↔
    ∀ (k : ℕ) (e : Dirent), es[k]? = some e → ¬e.Names name := by
  unfold findName
  rw [List.find?_eq_none]
  constructor
  · intro h k e he
    simpa using h e (List.mem_of_getElem? he)
  · intro h e he
    obtain ⟨k, hk⟩ := List.mem_iff_getElem?.mp he
    simpa using h k e hk

lemma findName_append (es ds : List Dirent) : findName name (es ++ ds) =
    (findName name es).or (findName name ds) := List.find?_append

lemma findName_split : findName name (overwrite es j [e]) =
    ((findName name (es.take j)).or (findName name [e])).or (findName name (es.drop (j + 1))) := by
  unfold overwrite
  rw [findName_append, findName_append]
  rfl

lemma findName_overwrite (hj : j ≤ es.length) (hold : ∀ d, es[j]? = some d → ¬d.Names name)
    (hnew : ¬e.Names name) : findName name (overwrite es j [e]) = findName name es := by
  have hone : findName name [e] = none := findName_cons_of_not hnew
  rw [findName_split, hone, Option.or_none]
  conv_rhs => rw [← List.take_append_drop j es, findName_append]
  congr 1
  by_cases hlt : j < es.length
  · rw [List.drop_eq_getElem_cons hlt,
      findName_cons_of_not (hold _ (List.getElem?_eq_getElem hlt))]
  · rw [List.drop_eq_nil_of_le (by omega), List.drop_eq_nil_of_le (by omega)]

lemma findName_linked (hnone : findName name es = none)
    (hnew : e.Names name) : findName name (overwrite es j [e]) = some e := by
  have htake : findName name (es.take j) = none := by
    refine findName_eq_none.mpr fun k d hk => findName_eq_none.mp hnone k d ?_
    rw [List.getElem?_take] at hk
    split_ifs at hk
    exact hk
  rw [findName_split, htake, findName_cons_of_names hnew]
  rfl

lemma distinct_nil : Distinct [] := by
  intro j k e d he
  simp at he

lemma Distinct.overwrite (h : Distinct es) (hj : j ≤ es.length)
    (hnew : e.inum = 0 ∨ findName e.name es = none) : Distinct (overwrite es j [e]) := by
  intro a b c d hc hd hc0 hd0 hcd
  rw [getElem?_overwrite _ hj, List.length_singleton] at hc hd
  have hself : ∀ {k : ℕ} {d : Dirent}, j ≤ k ∧ k < j + 1 → [e][k - j]? = some d → k = j ∧ e = d := by
    intro k d hk hd
    obtain rfl : k = j := by omega
    rw [Nat.sub_self] at hd
    exact ⟨rfl, Option.some.inj hd⟩
  have hother : ∀ {k : ℕ} {d : Dirent}, es[k]? = some d → d.inum ≠ 0 → e.inum ≠ 0 →
      cut d.name ≠ cut e.name := by
    intro k d hk hd he hde
    rcases hnew with hnew | hnew
    · exact he hnew
    · exact findName_eq_none.mp hnew k d hk ⟨hd, hde⟩
  split_ifs at hc hd with h1 h2 h2
  · omega
  · obtain ⟨rfl, rfl⟩ := hself h1 hc
    exact absurd hcd.symm (hother hd hd0 hc0)
  · obtain ⟨rfl, rfl⟩ := hself h2 hd
    exact absurd hcd (hother hc hc0 hd0)
  · exact h a b c d hc hd hc0 hd0 hcd

lemma findName_cleared (h : Distinct es) (hd : es[j]? = some d) (hnames : d.Names name)
    (he : e.inum = 0) : findName name (overwrite es j [e]) = none := by
  obtain ⟨hj, -⟩ := List.getElem?_eq_some_iff.mp hd
  refine findName_eq_none.mpr fun k c hc hcn => ?_
  rw [getElem?_overwrite _ hj.le, List.length_singleton] at hc
  split_ifs at hc with hk
  · obtain rfl : k = j := by omega
    rw [Nat.sub_self] at hc
    exact hcn.1 (Option.some.inj hc ▸ he)
  · have := h k j c d hc hd hcn.1 hnames.1 (hcn.2.trans hnames.2.symm)
    omega

/-! ### Histories -/

/-- The kernel has done something else: the directory is still held, and not a byte of it has
changed. -/
structure Elsewhere (sb : Superblock) (dp : ℕ) (s t : Disk) : Prop where
  dir : Dir sb dp t
  bytes : fileBytes t dp = fileBytes s dp
  ref : 0 < (t.inodes dp).ref

/-- What `sys_unlink` writes over an entry. -/
def cleared : List Byte := List.replicate DESIZE 0

/-- The operations that have taken effect have led from `s0` to `s`. -/
inductive History (sb : Superblock) (dp : ℕ) (s0 : Disk) : List NameOp → Disk → Prop where
  | start : History sb dp s0 [] s0
  | link {ops s t} (name : List Byte) (inum : ℕ) : History sb dp s0 ops s → 1 ≤ inum →
      inum ≤ 65535 → dirlink sb dp name inum s = .ok (0, t) →
      History sb dp s0 (ops ++ [.link name inum]) t
  | refused {ops s t r} (name : List Byte) (inum : ℕ) : History sb dp s0 ops s →
      dirlink sb dp name inum s = .ok (r, t) → r ≠ 0 → History sb dp s0 ops t
  -- between the two calls `sys_unlink` looks at the inode that the entry names
  | clear {ops s t u v i off} (name : List Byte) : History sb dp s0 ops s →
      dirlookup sb dp name s = .ok (some (i, off), u) → v = u ∨ Elsewhere sb dp u v →
      writei sb dp (kernelSrc cleared) off DESIZE v = .ok ((DESIZE : ℤ), t) →
      History sb dp s0 (ops ++ [.clear name]) t
  | other {ops s t} : History sb dp s0 ops s → Elsewhere sb dp s t → History sb dp s0 ops t

/-- The directory is in order, and the map it stands for is `m`. -/
structure Maps (sb : Superblock) (dp : ℕ) (s : Disk) (m : List Byte → Option ℕ) : Prop where
  dir : Dir sb dp s
  whole : Whole s dp
  ref : 0 < (s.inodes dp).ref
  distinct : Distinct (entries s dp)
  map : ∀ name, inumOf (entries s dp) name = m (cut name)

variable {m : List Byte → Option ℕ}

lemma Elsewhere.entries_eq (h : Elsewhere sb dp s t) : entries t dp = entries s dp :=
  congrArg dirents h.bytes

lemma Elsewhere.whole (h : Elsewhere sb dp s t) (hs : Whole s dp) : Whole t dp := by
  have hsize := congrArg List.length h.bytes
  rw [length_fileBytes, length_fileBytes] at hsize
  rw [Whole, hsize]
  exact hs

lemma Maps.same (h : Maps sb dp s m) (he : Elsewhere sb dp s t) : Maps sb dp t m :=
  ⟨he.dir, he.whole h.whole, he.ref, he.entries_eq ▸ h.distinct, he.entries_eq ▸ h.map⟩

/-- **dirlookup is the application of the map.** -/
lemma Maps.dirlookup (h : Maps sb dp s m) (name : List Byte) :
    wp (dirlookup sb dp name) (fun r t =>
      r.map (fun p => (t.inodes p.1).inum) = m (cut name)) (· = .iget) s := by
  refine wp_mono (dirlookup_spec h.dir name) ?_ ?_
  · intro r t hr
    rw [← h.map]
    cases r with
    | none =>
      rw [inumOf, ← List.drop_zero (l := entries s dp), hr.2]
      rfl
    | some r =>
      obtain ⟨i, off⟩ := r
      obtain ⟨j, e, -, -, hfind, hrun⟩ := hr
      have hi := iget_panic (s := s) (s.inodes dp).dev e.inum
      rw [wp_of_run hrun] at hi
      rw [List.drop_zero] at hfind
      rw [inumOf, hfind]
      exact congrArg some hi.2.1
  · rintro e (he | ⟨hn, -⟩)
    · exact he
    · exact absurd h.whole hn

lemma tab_ref (h : tab t = tab s) (i : ℕ) : (t.inodes i).ref = (s.inodes i).ref :=
  (tab_eq_iff.mp h i).2.2.1

lemma Maps.untouched (h : Maps sb dp s m) (ht : Untouched s t) : Maps sb dp t m := by
  have hdp := ht.entry dp h.ref
  obtain ⟨h1, h2⟩ := h.dir.congr ht.disk (by rw [hdp]) (by rw [hdp])
  refine ⟨h1, ?_, ?_, h2 ▸ h.distinct, h2 ▸ h.map⟩
  · rw [Whole, hdp]
    exact h.whole
  · rw [hdp]
    exact h.ref

/-- **dirlink** is an update of the map, if the name is new. -/
lemma Maps.dirlink (h : Maps sb dp s m) (name : List Byte) (inum : ℕ) :
    wp (dirlink sb dp name inum) (fun r t =>
      m (cut name) ≠ none ∧ r = -1 ∧ Untouched s t ∨
      m (cut name) = none ∧ (r = 0 ∧ (1 ≤ inum → inum ≤ 65535 →
          Maps sb dp t (NameOp.apply m (.link name inum))) ∨
        r = -1 ∧ Maps sb dp t m)) (· = .iget) s := by
  have hnone : findName name (entries s dp) = none ↔ m (cut name) = none := by
    rw [← h.map, inumOf, Option.map_eq_none_iff]
  refine wp_post (dirlink_spec h.dir h.whole name inum) ?_
  rintro r t (⟨hf, rfl, hu⟩ | ⟨hf, hdir, hwhole, htab, hr⟩)
  · exact Or.inl ⟨fun hc => hf (hnone.mpr hc), rfl, hu⟩
  · refine Or.inr ⟨hnone.mp hf, ?_⟩
    have href : 0 < (t.inodes dp).ref := by
      rw [tab_ref htab]
      exact h.ref
    rcases hr with ⟨rfl, j, hj, hdead, he⟩ | ⟨rfl, he⟩
    · refine Or.inl ⟨rfl, fun h1 h2 => ⟨hdir, hwhole, href, ?_, fun nm => ?_⟩⟩
      · rw [he]
        refine h.distinct.overwrite hj (Or.inr ?_)
        rw [findName_eq_none] at hf ⊢
        intro k e hk hc
        exact hf k e hk ⟨hc.1, hc.2.trans (cut_strncpy name)⟩
      · have hinum : (newEntry name inum).inum = inum := Nat.mod_eq_of_lt (by omega)
        rw [he, NameOp.apply, inumOf]
        by_cases hnm : cut nm = cut name
        · rw [hnm, Function.update_self, findName_linked]
          · exact congrArg some hinum
          · rw [findName_eq_none] at hf ⊢
            intro k e hk hc
            exact hf k e hk ⟨hc.1, hc.2.trans hnm⟩
          · exact ⟨by rw [hinum]; omega, (cut_strncpy name).trans hnm.symm⟩
        · rw [Function.update_of_ne hnm, ← h.map, findName_overwrite hj]
          · rfl
          · exact fun d hd hc => hc.1 (hdead d hd)
          · exact fun hc => hnm (hc.2.symm.trans (cut_strncpy name))
    · exact Or.inr ⟨rfl, hdir, hwhole, href, he ▸ h.distinct, he ▸ h.map⟩

lemma ofBytes_cleared : (Dirent.ofBytes cleared).inum = 0 := by decide

/-- The entry that `dirlookup` found is cleared; there is always room for that. -/
lemma Maps.clear (h : Maps sb dp s m) (hrun : Fs.dirlookup sb dp name s = .ok (some (i, off), u))
    (hv : v = u ∨ Elsewhere sb dp u v) :
    wp (writei sb dp (kernelSrc cleared) off DESIZE) (fun r t =>
      r = DESIZE ∧ Maps sb dp t (NameOp.apply m (.clear name))) E v := by
  have hs := dirlookup_spec h.dir name
  rw [wp_of_run hrun] at hs
  obtain ⟨j, e, hj, rfl, hfind, hget⟩ := hs
  obtain ⟨hdiru, hentu, hrefu, hcopy⟩ := h.dir.after_iget h.ref hget
  have hnames : e.Names name := by simpa using List.find?_some hfind
  obtain ⟨hlt, -⟩ := List.getElem?_eq_some_iff.mp hj
  have hwholeu : Whole u dp := by
    rw [Whole, hcopy]
    exact h.whole
  obtain ⟨hdir, hent, href, hwhole⟩ : Dir sb dp v ∧ entries v dp = entries s dp ∧
      0 < (v.inodes dp).ref ∧ Whole v dp := by
    rcases hv with rfl | he
    · exact ⟨hdiru, hentu, hrefu, hwholeu⟩
    · exact ⟨he.dir, he.entries_eq.trans hentu, he.ref, he.whole hwholeu⟩
  have htab : wp (writei sb dp (kernelSrc cleared) (j * DESIZE) DESIZE)
      (fun _ t => tab t = tab v) (fun _ => True) v := tab_writei dp _ _ _ v
  refine wp_post (wp_join htab (writei_entry hdir hwhole (List.length_replicate)
    (by rw [hent]; exact hlt.le))) ?_
  rintro r t ⟨ht, hdt, hwt, ⟨rfl, he⟩ | ⟨-, -, hend⟩⟩
  swap
  · rw [hent] at hend
    omega
  rw [hent] at he
  refine ⟨rfl, hdt, hwt, ?_, ?_, fun nm => ?_⟩
  · rw [tab_ref ht]
    exact href
  · rw [he]
    exact h.distinct.overwrite hlt.le (Or.inl ofBytes_cleared)
  · rw [he, NameOp.apply, inumOf]
    by_cases hnm : cut nm = cut name
    · rw [hnm, Function.update_self, findName_cleared h.distinct hj ⟨hnames.1, ?_⟩ ofBytes_cleared]
      · rfl
      · exact hnames.2.trans hnm.symm
    · rw [Function.update_of_ne hnm, ← h.map, findName_overwrite hlt.le]
      · rfl
      · intro d hd hc
        rw [hj] at hd
        cases hd
        exact hnm (hc.2.symm.trans hnames.2)
      · exact fun hc => hc.1 ofBytes_cleared

lemma maps_empty (h : Dir sb dp s) (h0 : (s.inodes dp).copy.size = 0)
    (hr : 0 < (s.inodes dp).ref) : Maps sb dp s fun _ => none := by
  have he : entries s dp = [] := by
    rw [← List.length_eq_zero_iff, length_entries, h0]
    rfl
  refine ⟨h, ?_, hr, he ▸ distinct_nil, fun name => ?_⟩
  · rw [Whole, h0]
    rfl
  · rw [he]
    rfl

lemma History.maps {ops : List NameOp} (h0 : Maps sb dp s0 fun _ => none)
    (h : History sb dp s0 ops s) : Maps sb dp s (mapOf ops) := by
  induction h with
  | start => exact h0
  | link name inum _ h1 h2 hrun ih =>
    have hl := ih.dirlink name inum
    rw [wp_of_run hrun] at hl
    rw [mapOf_snoc]
    rcases hl with ⟨-, hr, -⟩ | ⟨-, ⟨-, hm⟩ | ⟨hr, -⟩⟩
    · omega
    · exact hm h1 h2
    · omega
  | refused name inum _ hrun hr ih =>
    have hl := ih.dirlink name inum
    rw [wp_of_run hrun] at hl
    rcases hl with ⟨-, -, hu⟩ | ⟨-, ⟨hr0, -⟩ | ⟨-, hm⟩⟩
    · exact ih.untouched hu
    · exact absurd hr0 hr
    · exact hm
  | clear name _ hrun hv hw ih =>
    have hc := ih.clear (E := fun _ => True) hrun hv
    rw [wp_of_run hw] at hc
    rw [mapOf_snoc]
    exact hc.2
  | other _ he ih => exact ih.same he

/-- **A directory is a finite map** from names, cut to `DIRSIZ` bytes, to inode numbers, whatever
`dirlink` and the clearing of entries have made of an empty one. -/
theorem directory_is_map {ops : List NameOp} (h0 : Dir sb dp s0)
    (hempty : (s0.inodes dp).copy.size = 0) (hr : 0 < (s0.inodes dp).ref)
    (h : History sb dp s0 ops s) :
    Distinct (entries s dp) ∧
    (∀ name, wp (dirlookup sb dp name) (fun r t => ∀ inum,
      (∃ i off, r = some (i, off) ∧ (t.inodes i).inum = inum) ↔ LastLinked ops name inum)
      (· = .iget) s) ∧
    (∀ name inum, (∃ n, LastLinked ops name n) → wp (dirlink sb dp name inum)
      (fun r t => r = -1 ∧ Untouched s t) (· = .iget) s) ∧
    (∀ name inum, 1 ≤ inum → inum ≤ 65535 → wp (dirlink sb dp name inum)
      (fun _ t => ∀ other, cut other ≠ cut name →
        inumOf (entries t dp) other = inumOf (entries s dp) other) (· = .iget) s) ∧
    ∀ name i off u v, dirlookup sb dp name s = .ok (some (i, off), u) →
      v = u ∨ Elsewhere sb dp u v →
      wp (writei sb dp (kernelSrc cleared) off DESIZE) (fun r t => r = DESIZE ∧
        ∀ other, cut other ≠ cut name →
          inumOf (entries t dp) other = inumOf (entries s dp) other) (fun _ => False) v := by
  have hm := h.maps (maps_empty h0 hempty hr)
  refine ⟨hm.distinct, fun name => ?_, fun name inum hlast => ?_, fun name inum h1 h2 => ?_,
    fun name i off u v hrun hv => ?_⟩
  · refine wp_post (hm.dirlookup name) fun r t hrt inum => ?_
    rw [← mapOf_eq_some, ← hrt]
    cases r with
    | none => simp
    | some p =>
      obtain ⟨i, off⟩ := p
      simp
  · refine wp_post (hm.dirlink name inum) ?_
    obtain ⟨n, hn⟩ := hlast
    rintro r t (⟨-, h1, h2⟩ | ⟨hnone, -⟩)
    · exact ⟨h1, h2⟩
    · rw [(mapOf_eq_some ops name n).mpr hn] at hnone
      cases hnone
  · refine wp_post (hm.dirlink name inum) ?_
    rintro r t hcase other hother
    rw [hm.map]
    rcases hcase with ⟨-, -, hu⟩ | ⟨-, ⟨-, hlinked⟩ | ⟨-, hsame⟩⟩
    · exact (hm.untouched hu).map other
    · rw [(hlinked h1 h2).map]
      exact apply_other hother
    · exact hsame.map other
  · refine wp_post (hm.clear hrun hv) ?_
    rintro r t ⟨hr, hmt⟩
    refine ⟨hr, fun other hother => ?_⟩
    rw [hm.map, hmt.map]
    exact apply_other hother

/-- The root directory of the small image gets an entry with a name of 16 bytes, which is found
under the first 14 of them. -/
theorem directory_is_map_long : ∃ s, wp (dirlookup smallDisk 0 (List.replicate 14 97))
    (fun r t => ∃ i off, r = some (i, off) ∧ (t.inodes i).inum = ROOTINO) (· = .iget) s := by
  have hrun : ∃ s0, FsSpace.Run smallDisk FsSpace.smallImage s0 ∧ Locked s0 0 ∧
      (s0.inodes 0).copy.type = .dir ∧ (s0.inodes 0).copy.size = 0 ∧
      ∃ s, dirlink smallDisk 0 (List.replicate 16 97) ROOTINO s0 = .ok (0, s) :=
    ⟨_, .call (.ilock 0) (.call (.iget ROOTINO) .start trivial rfl) (by exact Nat.one_pos) rfl,
      ⟨Nat.one_pos, rfl⟩, rfl, rfl, _, rfl⟩
  obtain ⟨s0, hrun, hlock, htype, hsize, s, hlink⟩ := hrun
  obtain ⟨hρ, hc⟩ := hrun.ordered
    (ordered_boot acct_smallImage noHoles_smallImage fun _ => rfl)
  have hdir := hc.dir hρ hlock.1 hlock.2 htype
  obtain ⟨-, hlookup, -⟩ := directory_is_map hdir hsize hlock.1
    (.link _ ROOTINO .start (by decide) (by decide) hlink)
  refine ⟨s, wp_post (hlookup (List.replicate 14 97)) fun r t hr => (hr ROOTINO).mpr ?_⟩
  exact ⟨[], List.replicate 16 97, [], rfl, by decide, by simp⟩

end Xv6.FsNames
