import Xv6.FsCalls
import Mathlib.Algebra.BigOperators.Group.Finset.Basic
import Mathlib.Algebra.BigOperators.Group.Finset.Piecewise
import Mathlib.Algebra.Group.Pi.Basic
import Mathlib.Algebra.Order.BigOperators.Group.Finset
import Mathlib.Data.List.Count
import Mathlib.Tactic.Abel

/-!
Who points at what: descriptors at files, files and current directories at inodes, files at the two
ends of a pipe. Every call leaves each count equal to the number of pointers, and a page is in the
free list, with the rest of the kernel, or the page of a pipe with an end still open.
-/

namespace Xv6.Fs

open Xv6.ByteMem Xv6.Wp

/-! ### Counting over a table -/

section Count

variable {α : Type} {n k : ℕ}

lemma sum_update (hk : k < n) (g : ℕ → α) (x : α) (w : α → ℕ) :
    ∑ j ∈ Finset.range n, w (Function.update g k x j) + w (g k) =
      ∑ j ∈ Finset.range n, w (g j) + w x := by
  have hmem : k ∈ Finset.range n := Finset.mem_range.mpr hk
  rw [← Finset.add_sum_erase _ _ hmem, ← Finset.add_sum_erase _ (fun j => w (g j)) hmem,
    Function.update_self]
  have hrest : ∑ j ∈ (Finset.range n).erase k, w (Function.update g k x j) =
      ∑ j ∈ (Finset.range n).erase k, w (g j) :=
    Finset.sum_congr rfl fun j hj => by rw [Function.update_of_ne (Finset.ne_of_mem_erase hj)]
  rw [hrest]
  omega

lemma le_sum (hk : k < n) (g : ℕ → α) (w : α → ℕ) :
    w (g k) ≤ ∑ j ∈ Finset.range n, w (g j) :=
  Finset.single_le_sum (f := fun j => w (g j)) (fun _ _ => Nat.zero_le _) (Finset.mem_range.mpr hk)

end Count

variable {sb : Superblock}

/-- The descriptors of a process that point at file `f`. -/
def procSlots (f : ℕ) (p : Proc) : ℕ :=
  ∑ fd ∈ Finset.range NOFILE, if p.ofile fd = some f then 1 else 0

/-- The `ofile` slots over all processes that point at file `f`. -/
def slots (s : Sys) (f : ℕ) : ℕ := ∑ p ∈ Finset.range NPROC, procSlots f (s.procs p)

/-- An open file that points at inode `i`. -/
def fileUse (i : ℕ) (x : File) : ℕ :=
  if 0 < x.ref ∧ (x.type = .inode ∨ x.type = .device) ∧ x.ip = i then 1 else 0

def cwdUse (i : ℕ) (p : Proc) : ℕ := if p.cwd = some i then 1 else 0

/-- The open files and current directories that point at inode `i`. -/
def uses (s : Sys) (i : ℕ) : ℕ :=
  ∑ f ∈ Finset.range NFILE, fileUse i (s.files f) + ∑ p ∈ Finset.range NPROC, cwdUse i (s.procs p)

/-- An open file that is an end of the pipe in page `pa`. -/
def endUse (pa : ℕ) (w : Bool) (x : File) : ℕ :=
  if 0 < x.ref ∧ x.type = .pipe ∧ x.pipe = pa ∧ x.writable = w then 1 else 0

/-- The open files that are the writing or the reading end of the pipe in page `pa`. -/
def ends (s : Sys) (pa : ℕ) (w : Bool) : ℕ := ∑ f ∈ Finset.range NFILE, endUse pa w (s.files f)

/-- Page `pa` is a pipe of which an end is open. -/
def live (s : Sys) (pa : ℕ) : Prop := 0 < ends s pa false + ends s pa true

instance (s : Sys) (pa : ℕ) : Decidable (live s pa) := inferInstanceAs (Decidable (0 < _))

/-- The end of a pipe is open. -/
def PipeEnds.isOpen (e : PipeEnds) (w : Bool) : Bool := if w then e.writeopen else e.readopen

/-- Files, pipes and pages in order, but for `δ f` references to file `f` that are in hand. -/
structure Sound (pages : List ℕ) (δ : ℕ → ℤ) (s : Sys) : Prop where
  fref : ∀ f, ((s.files f).ref : ℤ) = slots s f + δ f
  lt : ∀ f, 0 < (s.files f).ref → f < NFILE
  idle : ∀ f, (s.files f).ref = 0 → (s.files f).type = .none
  opn : ∀ pa w, live s pa → ends s pa w = if (s.pipes pa).isOpen w then 1 else 0
  page : ∀ pa, s.freelist.count pa + (if pa ∈ s.taken then 1 else 0) +
    (if live s pa then 1 else 0) = if pa ∈ pages then 1 else 0
  temp : ∀ pa, s.temp pa = s.taken.count pa + if live s pa then 1 else 0

/-- A live process has a current directory, another one has nothing. -/
structure Procs (s : Sys) : Prop where
  cwd : ∀ p, (s.procs p).state = .alive → ∃ i, (s.procs p).cwd = some i
  dead : ∀ p, (s.procs p).state ≠ .alive →
    (∀ fd, fd < NOFILE → (s.procs p).ofile fd = none) ∧ (s.procs p).cwd = none

variable {pages : List ℕ} {δ : ℕ → ℤ} {s t : Sys} {f : ℕ}

/-! ### One file changes -/

lemma ends_setFile (hf : f < NFILE) (x : File) (pa : ℕ) (w : Bool) :
    ends { s with files := Function.update s.files f x } pa w + endUse pa w (s.files f) =
      ends s pa w + endUse pa w x :=
  sum_update hf s.files x (endUse pa w)

lemma uses_setFile (hf : f < NFILE) (x : File) (i : ℕ) :
    uses { s with files := Function.update s.files f x } i + fileUse i (s.files f) =
      uses s i + fileUse i x := by
  have := sum_update hf s.files x (fileUse i)
  unfold uses
  dsimp only
  omega

lemma uses_setFile_same (hf : f < NFILE) {x : File} {i : ℕ}
    (hx : fileUse i x = fileUse i (s.files f)) :
    uses { s with files := Function.update s.files f x } i = uses s i := by
  have := uses_setFile (s := s) hf x i
  rw [hx] at this
  omega

/-- A change of a file that is no change to a pipe. -/
lemma Sound.setFile (h : Sound pages δ s) (hf : f < NFILE) {x : File}
    (hend : ∀ pa w, endUse pa w x = endUse pa w (s.files f))
    (hidle : x.ref = 0 → x.type = .none) :
    Sound pages (δ + Pi.single f ((x.ref : ℤ) - (s.files f).ref))
      { s with files := Function.update s.files f x } := by
  have hends : ∀ pa w, ends { s with files := Function.update s.files f x } pa w = ends s pa w := by
    intro pa w
    have := ends_setFile (s := s) hf x pa w
    rw [hend pa w] at this
    omega
  have hlive : ∀ pa, live { s with files := Function.update s.files f x } pa ↔ live s pa := by
    intro pa
    unfold live
    rw [hends, hends]
  refine ⟨fun g => ?_, fun g hg => ?_, fun g hg => ?_, fun pa w hpa => ?_,
    fun pa => ?_, fun pa => ?_⟩
  · have hfr := h.fref g
    change ((Function.update s.files f x g).ref : ℤ) = slots s g + _
    by_cases hgf : g = f
    · subst hgf
      rw [Function.update_self, Pi.add_apply, Pi.single_eq_same]
      omega
    · rw [Function.update_of_ne hgf, Pi.add_apply, Pi.single_eq_of_ne hgf]
      omega
  · by_cases hgf : g = f
    · exact hgf ▸ hf
    · dsimp only at hg
      rw [Function.update_of_ne hgf] at hg
      exact h.lt g hg
  · dsimp only at hg ⊢
    by_cases hgf : g = f
    · subst hgf
      rw [Function.update_self] at hg ⊢
      exact hidle hg
    · rw [Function.update_of_ne hgf] at hg ⊢
      exact h.idle g hg
  · rw [hends]
    exact h.opn pa w ((hlive pa).mp hpa)
  · simp only [hlive]
    exact h.page pa
  · simp only [hlive]
    exact h.temp pa

lemma endUse_of_type {x : File} (hx : x.type ≠ .pipe) (pa : ℕ) (w : Bool) : endUse pa w x = 0 :=
  if_neg fun hc => hx hc.2.1

lemma fileUse_of_type {x : File} (hx : ¬(x.type = .inode ∨ x.type = .device)) (i : ℕ) :
    fileUse i x = 0 := if_neg fun hc => hx hc.2.1

/-! ### One process changes -/

/-- One reference to the file, if there is one. -/
def hand : Option ℕ → ℕ → ℤ
  | some f => Pi.single f 1
  | none => 0

lemma hand_apply (o : Option ℕ) (g : ℕ) : hand o g = if o = some g then 1 else 0 := by
  cases o with
  | none => rfl
  | some f =>
    by_cases h : f = g
    · subst h
      simp [hand]
    · simp [hand, h]

lemma procSlots_set {fd : ℕ} (hfd : fd < NOFILE) (pr : Proc) (o : Option ℕ) (g : ℕ) :
    procSlots g { pr with ofile := Function.update pr.ofile fd o } +
      (if pr.ofile fd = some g then 1 else 0) =
      procSlots g pr + if o = some g then 1 else 0 :=
  sum_update hfd pr.ofile o fun q => if q = some g then 1 else 0

lemma slots_setProc {p : ℕ} (hp : p < NPROC) (x : Proc) (g : ℕ) :
    slots { s with procs := Function.update s.procs p x } g + procSlots g (s.procs p) =
      slots s g + procSlots g x :=
  sum_update hp s.procs x (procSlots g)

lemma uses_setProc {p : ℕ} (hp : p < NPROC) (x : Proc) (i : ℕ) :
    uses { s with procs := Function.update s.procs p x } i + cwdUse i (s.procs p) =
      uses s i + cwdUse i x := by
  have := sum_update hp s.procs x (cwdUse i)
  unfold uses
  dsimp only
  omega

lemma Sound.setProc {p : ℕ} (h : Sound pages δ s) (hp : p < NPROC) {x : Proc} {ε : ℕ → ℤ}
    (hx : ∀ g, (procSlots g x : ℤ) + ε g = procSlots g (s.procs p) + δ g) :
    Sound pages ε { s with procs := Function.update s.procs p x } := by
  refine ⟨fun g => ?_, h.lt, h.idle, h.opn, h.page, h.temp⟩
  have hfr := h.fref g
  have hsl := slots_setProc (s := s) hp x g
  have hg := hx g
  change ((s.files g).ref : ℤ) = _
  omega

lemma Sound.setOfile {p fd : ℕ} (h : Sound pages δ s) (hp : p < NPROC) (hfd : fd < NOFILE)
    (o : Option ℕ) : Sound pages (δ + hand ((s.procs p).ofile fd) - hand o)
      { s with procs := Function.update s.procs p { s.procs p with
        ofile := Function.update (s.procs p).ofile fd o } } := by
  refine h.setProc hp fun g => ?_
  have hset := procSlots_set hfd (s.procs p) o g
  rw [Pi.sub_apply, Pi.add_apply, hand_apply, hand_apply]
  dsimp only at hset ⊢
  split_ifs at hset ⊢ <;> omega

lemma Sound.disk (h : Sound pages δ s) (d : Disk) : Sound pages δ { s with disk := d } :=
  ⟨h.fref, h.lt, h.idle, h.opn, h.page, h.temp⟩

/-! ### Functions of file.c and pipe.c -/

variable {p : ℕ}

lemma filealloc_spec (h : Sound pages δ s) :
    wp filealloc (fun r t =>
      match r with
      | none => t = s
      | some f => f < NFILE ∧ (s.files f).ref = 0 ∧
        t = { s with files := Function.update s.files f { s.files f with ref := 1 } } ∧
        Sound pages (δ + hand (some f)) t) (fun _ => True) s := by
  unfold filealloc
  simp only [wp_bind, wp_get]
  cases hf : (List.range NFILE).find? fun f => decide ((s.files f).ref = 0) with
  | none => rfl
  | some f =>
    have hlt := List.mem_range.mp (List.mem_of_find?_eq_some hf)
    have hz := List.find?_some hf
    rw [decide_eq_true_eq] at hz
    simp only [wp_bind, setFile, wp_modify, wp_pure]
    refine ⟨hlt, hz, trivial, ?_⟩
    have hs := h.setFile hlt (x := { s.files f with ref := 1 }) (fun pa w => ?_)
      fun hc => absurd hc Nat.one_ne_zero
    · dsimp only at hs
      rw [hz] at hs
      exact hs
    · rw [endUse_of_type (by rw [h.idle f hz]; decide)]
      rw [endUse_of_type (by rw [h.idle f hz]; decide)]

lemma filedup_spec (h : Sound pages δ s) :
    wp (filedup f) (fun g t => g = f ∧
      t = { s with
        files := Function.update s.files f { s.files f with ref := (s.files f).ref + 1 } } ∧
      (∀ i, uses t i = uses s i) ∧ Sound pages (δ + hand (some f)) t) (fun _ => True) s := by
  unfold filedup
  simp only [wp_bind, wp_get]
  split
  · trivial
  rename_i hr
  have hpos : 0 < (s.files f).ref := by omega
  simp only [wp_bind, setFile, wp_modify, wp_pure]
  refine ⟨trivial, trivial, fun i => ?_, ?_⟩
  · refine uses_setFile_same (h.lt f hpos) ?_
    simp only [fileUse, hpos, Nat.succ_pos]
  · have hs := h.setFile (h.lt f hpos) (x := { s.files f with ref := (s.files f).ref + 1 })
      (fun pa w => ?_) fun hc => absurd hc (Nat.succ_ne_zero _)
    · dsimp only at hs
      have : ((s.files f).ref + 1 : ℕ) - ((s.files f).ref : ℤ) = 1 := by omega
      rw [this] at hs
      exact hs
    · simp only [endUse, hpos, Nat.succ_pos]

lemma kfree_last {pa : ℕ} (h1 : s.temp pa = 1) :
    wp (kfree pa) (fun _ t => t = { s with
      temp := Function.update s.temp pa 0
      freelist := pa :: s.freelist }) (fun _ => True) s := by
  unfold kfree
  simp only [wp_bind, wp_get, h1]
  rfl

lemma live_of_end (h : Sound pages δ s) (hpos : 0 < (s.files f).ref)
    (hpipe : (s.files f).type = .pipe) : live s (s.files f).pipe := by
  have hle := le_sum (h.lt f hpos) s.files (endUse (s.files f).pipe (s.files f).writable)
  have hone : endUse (s.files f).pipe (s.files f).writable (s.files f) = 1 :=
    if_pos ⟨hpos, hpipe, rfl, rfl⟩
  rw [hone] at hle
  have hends : 1 ≤ ends s (s.files f).pipe (s.files f).writable := hle
  unfold live
  cases hw : (s.files f).writable with
  | false =>
    rw [hw] at hends
    omega
  | true =>
    rw [hw] at hends
    omega

lemma Sound.temp_live (h : Sound pages δ s) {pa : ℕ} (hl : live s pa) :
    s.temp pa = 1 ∧ pa ∉ s.taken ∧ s.freelist.count pa = 0 := by
  have hpage := h.page pa
  have htemp := h.temp pa
  rw [if_pos hl] at hpage htemp
  have hin : pa ∉ s.taken := by
    intro hc
    rw [if_pos hc] at hpage
    split_ifs at hpage
    omega
  rw [List.count_eq_zero_of_not_mem hin] at htemp
  rw [if_neg hin] at hpage
  refine ⟨by omega, hin, ?_⟩
  split_ifs at hpage
  omega

/-- The page of the pipe is freed with the second of its ends. -/
lemma Sound.shut (h : Sound pages δ s) (hone : (s.files f).ref = 1)
    (hpipe : (s.files f).type = .pipe) {pa : ℕ} {w : Bool} (hpa : (s.files f).pipe = pa)
    (hw : (s.files f).writable = w) (hprocs : t.procs = s.procs)
    (hfiles : t.files = Function.update s.files f { s.files f with ref := 0, type := .none })
    (hpipes : ∀ qa, qa ≠ pa → t.pipes qa = s.pipes qa)
    (hself : ∀ v, (t.pipes pa).isOpen v = if v = w then false else (s.pipes pa).isOpen v)
    (htaken : t.taken = s.taken)
    (hfree : ∀ qa, t.freelist.count qa =
      s.freelist.count qa + if qa = pa ∧ (s.pipes pa).isOpen (!w) = false then 1 else 0)
    (htemp : ∀ qa, t.temp qa =
      s.temp qa - if qa = pa ∧ (s.pipes pa).isOpen (!w) = false then 1 else 0) :
    Sound pages (δ - hand (some f)) t := by
  have hf : f < NFILE := h.lt f (by omega)
  have hl : live s pa := hpa ▸ live_of_end h (by omega) hpipe
  have hold : ∀ qa v, endUse qa v (s.files f) = if qa = pa ∧ v = w then 1 else 0 := by
    intro qa v
    unfold endUse
    rw [hpa, hw]
    refine if_congr ⟨fun hc => ⟨hc.2.2.1.symm, hc.2.2.2.symm⟩, fun hc => ⟨by omega, hpipe, ?_, ?_⟩⟩
      rfl rfl
    · exact hc.1.symm
    · exact hc.2.symm
  have hends : ∀ qa v, ends t qa v + (if qa = pa ∧ v = w then 1 else 0) = ends s qa v := by
    intro qa v
    have hset := ends_setFile (s := s) hf { s.files f with ref := 0, type := .none } qa v
    rw [hold, endUse_of_type (fun hc => by cases hc), Nat.add_zero] at hset
    have heq : ends t qa v = ends { s with
        files := Function.update s.files f { s.files f with ref := 0, type := .none } } qa v := by
      unfold ends
      rw [hfiles]
    rw [heq, hset]
  have hsum : ∀ (r : Sys) qa, (live r qa ↔ 0 < ends r qa w + ends r qa (!w)) := by
    intro r qa
    unfold live
    cases w with
    | false => rfl
    | true =>
      rw [Nat.add_comm]
      rfl
  have hopen : ∀ v, ends s pa v = if (s.pipes pa).isOpen v then 1 else 0 := fun v => h.opn pa v hl
  have hlive : ∀ qa, live t qa ↔ live s qa ∧ ¬(qa = pa ∧ (s.pipes pa).isOpen (!w) = false) := by
    intro qa
    rw [hsum t, hsum s]
    have h1 := hends qa w
    have h2 := hends qa (!w)
    have hne : ¬(!w) = w := by cases w <;> decide
    rw [if_neg fun hc => hne hc.2] at h2
    by_cases hq : qa = pa
    · subst hq
      rw [if_pos ⟨rfl, rfl⟩] at h1
      have h3 := hopen w
      have h4 := hopen (!w)
      cases ho : (s.pipes qa).isOpen (!w) with
      | false =>
        rw [ho] at h4
        simp only [Bool.false_eq_true, if_false] at h4
        simp only [and_self, not_true_eq_false, and_false, iff_false]
        split_ifs at h3 <;> omega
      | true =>
        rw [ho] at h4
        simp only [if_true] at h4
        simp only [Bool.true_eq_false, and_false, not_false_eq_true, and_true]
        omega
    · rw [if_neg fun hc => hq hc.1] at h1
      simp only [hq, false_and, not_false_eq_true, and_true]
      omega
  refine ⟨fun g => ?_, fun g hg => ?_, fun g hg => ?_, fun qa v hqa => ?_, fun qa => ?_,
    fun qa => ?_⟩
  · have hfr := h.fref g
    have hsl : slots t g = slots s g := by
      unfold slots
      rw [hprocs]
    rw [hfiles, hsl, Pi.sub_apply, hand_apply]
    by_cases hgf : g = f
    · subst hgf
      rw [Function.update_self, if_pos rfl]
      dsimp only
      omega
    · rw [Function.update_of_ne hgf, if_neg fun hc => hgf (Option.some.inj hc).symm]
      omega
  · rw [hfiles] at hg
    by_cases hgf : g = f
    · exact hgf ▸ hf
    · rw [Function.update_of_ne hgf] at hg
      exact h.lt g hg
  · rw [hfiles] at hg ⊢
    by_cases hgf : g = f
    · subst hgf
      rw [Function.update_self]
    · rw [Function.update_of_ne hgf] at hg ⊢
      exact h.idle g hg
  · have hs := ((hlive qa).mp hqa).1
    have he := hends qa v
    by_cases hq : qa = pa
    · subst hq
      rw [hself v]
      have h3 := hopen v
      by_cases hv : v = w
      · rw [if_pos ⟨rfl, hv⟩] at he
        rw [if_pos hv]
        simp only [Bool.false_eq_true, if_false]
        split_ifs at h3 <;> omega
      · rw [if_neg fun hc => hv hc.2] at he
        rw [if_neg hv]
        omega
    · rw [if_neg fun hc => hq hc.1] at he
      have h3 := h.opn qa v hs
      rw [hpipes qa hq]
      omega
  · have h1 := h.page qa
    rw [hfree qa, htaken]
    by_cases hq : qa = pa ∧ (s.pipes pa).isOpen (!w) = false
    · have h2 : live s qa := by rw [hq.1]; exact hl
      have h3 : ¬live t qa := fun hc => ((hlive qa).mp hc).2 hq
      rw [if_pos hq, if_neg h3]
      rw [if_pos h2] at h1
      omega
    · have h2 : live t qa ↔ live s qa := by
        rw [hlive qa]
        exact and_iff_left hq
      rw [if_neg hq]
      simp only [h2]
      omega
  · have h1 := h.temp qa
    rw [htemp qa, htaken]
    by_cases hq : qa = pa ∧ (s.pipes pa).isOpen (!w) = false
    · have h2 : live s qa := by rw [hq.1]; exact hl
      have h3 : ¬live t qa := fun hc => ((hlive qa).mp hc).2 hq
      rw [if_pos hq, if_neg h3]
      rw [if_pos h2] at h1
      omega
    · have h2 : live t qa ↔ live s qa := by
        rw [hlive qa]
        exact and_iff_left hq
      rw [if_neg hq]
      simp only [h2]
      omega

/-- The last descriptor of an end of a pipe is closed. -/
lemma pipeclose_spec (h : Sound pages δ s) (hone : (s.files f).ref = 1)
    (hpipe : (s.files f).type = .pipe) :
    wp (pipeclose (s.files f).pipe (s.files f).writable) (fun _ t =>
      t.procs = s.procs ∧ t.disk = s.disk ∧
      t.files = Function.update s.files f { s.files f with ref := 0, type := .none } ∧
      Sound pages (δ - hand (some f)) t) (fun _ => True)
      { s with
        files := Function.update s.files f { s.files f with ref := 0, type := .none } } := by
  obtain ⟨htemp, -, -⟩ := h.temp_live (live_of_end h (by omega) hpipe)
  generalize hpa : (s.files f).pipe = pa at htemp
  generalize hw : (s.files f).writable = w
  unfold pipeclose
  simp only [wp_bind, wp_modify, wp_get]
  set e : PipeEnds := if w = true then { s.pipes pa with writeopen := false }
    else { s.pipes pa with readopen := false } with he
  have hpipes : ∀ qa, qa ≠ pa → Function.update s.pipes pa e qa = s.pipes qa :=
    fun qa hq => Function.update_of_ne hq _ _
  have hself : ∀ v, (Function.update s.pipes pa e pa).isOpen v =
      if v = w then false else (s.pipes pa).isOpen v := by
    intro v
    rw [Function.update_self, he]
    cases w <;> cases v <;> rfl
  have hboth : ((Function.update s.pipes pa e pa).readopen = false ∧
      (Function.update s.pipes pa e pa).writeopen = false) ↔ (s.pipes pa).isOpen (!w) = false := by
    rw [Function.update_self, he]
    cases w with
    | false => exact ⟨fun hc => hc.2, fun hc => ⟨rfl, hc⟩⟩
    | true => exact ⟨fun hc => hc.1, fun hc => ⟨hc, rfl⟩⟩
  split
  · rename_i hc
    have hshut := hboth.mp hc
    refine wp_post (kfree_last htemp) ?_
    rintro _ t rfl
    refine ⟨rfl, rfl, rfl, h.shut hone hpipe hpa hw rfl rfl hpipes hself rfl (fun qa => ?_)
      fun qa => ?_⟩
    · simp only [hshut, and_true, List.count_cons, beq_iff_eq]
      exact congrArg _ (if_congr eq_comm rfl rfl)
    · simp only [hshut, and_true]
      by_cases hq : qa = pa
      · rw [hq, Function.update_self, htemp, if_pos rfl]
        rfl
      · rw [Function.update_of_ne hq, if_neg hq, Int.sub_zero]
  · rename_i hc
    have hnot : ∀ qa, ¬(qa = pa ∧ (s.pipes pa).isOpen (!w) = false) :=
      fun qa hq => hc (hboth.mpr hq.2)
    refine ⟨rfl, rfl, rfl, h.shut hone hpipe hpa hw rfl rfl hpipes hself rfl (fun qa => ?_)
      fun qa => ?_⟩
    · rw [if_neg (hnot qa), Nat.add_zero]
    · rw [if_neg (hnot qa), Int.sub_zero]

/-- The system in order, but for `δ f` references to file `f` and `π i` to inode `i` in hand. -/
structure Tidy (pages : List ℕ) (δ : ℕ → ℤ) (π : ℕ → ℕ) (s : Sys) : Prop where
  sound : Sound pages δ s
  held : Held (fun i => uses s i + π i) s.disk

variable {π : ℕ → ℕ} {i : ℕ}

lemma take_add (u π : ℕ → ℕ) (i : ℕ) :
    take (fun j => u j + π j) i = fun j => u j + take π i j := by
  funext j
  by_cases hj : j = i
  · subst hj
    simp only [take_self]
    omega
  · simp only [take_ne _ hj]

lemma drop_add (u v π : ℕ → ℕ) (i : ℕ) (hv : ∀ j, v j + (if i = j then 1 else 0) = u j) :
    drop (fun j => u j + π j) i = fun j => v j + π j := by
  funext j
  have := hv j
  by_cases hj : j = i
  · subst hj
    rw [if_pos rfl] at this
    simp only [drop_self]
    omega
  · rw [if_neg (Ne.symm hj)] at this
    simp only [drop_ne _ hj]
    omega

lemma fileUse_eq {x : File} (hpos : 0 < x.ref) (ht : x.type = .inode ∨ x.type = .device) (j : ℕ) :
    fileUse j x = if x.ip = j then 1 else 0 := by
  unfold fileUse
  exact if_congr ⟨fun hc => hc.2.2, fun hc => ⟨hpos, ht, hc⟩⟩ rfl rfl

lemma Tidy.setFile (h : Tidy pages δ π s) (hf : f < NFILE) {x : File}
    (hend : ∀ pa w, endUse pa w x = endUse pa w (s.files f))
    (huse : ∀ i, fileUse i x = fileUse i (s.files f)) (hidle : x.ref = 0 → x.type = .none) :
    Tidy pages (δ + Pi.single f ((x.ref : ℤ) - (s.files f).ref)) π
      { s with files := Function.update s.files f x } := by
  refine ⟨h.sound.setFile hf hend hidle, ?_⟩
  have hu : uses { s with files := Function.update s.files f x } = uses s :=
    funext fun i => uses_setFile_same hf (huse i)
  rw [hu]
  exact h.held

lemma hand_down {m : ℤ} (hm : m = -1) : δ + Pi.single f m = δ - hand (some f) := by
  funext g
  rw [hm, Pi.add_apply, Pi.sub_apply, hand_apply]
  by_cases hg : g = f
  · subst hg
    rw [Pi.single_eq_same, if_pos rfl]
    rfl
  · rw [Pi.single_eq_of_ne hg, if_neg fun hc => hg (Option.some.inj hc).symm]
    omega

lemma wp_fs {α : Type} (m : F α) {Q : α → Sys → Prop} {E : Panic → Prop} :
    wp (fs m) Q E s ↔ wp m (fun a d => Q a { s with disk := d }) E s.disk :=
  wp_zoom _ _ _

/-- **fileclose** gives one reference to the file back, and with the last one whatever the file
stands for. -/
lemma fileclose_spec (h : Tidy pages δ π s) :
    wp (fileclose f) (fun _ t => t.procs = s.procs ∧ Tidy pages (δ - hand (some f)) π t)
      (fun _ => True) s := by
  unfold fileclose
  simp only [wp_bind, wp_get]
  split
  · trivial
  rename_i hr
  have hpos : 0 < (s.files f).ref := by omega
  have hf := h.sound.lt f hpos
  split
  · -- others still have the file
    rename_i hmore
    have hset := h.setFile hf (x := { s.files f with ref := (s.files f).ref - 1 })
      (fun pa w => by simp only [endUse, hpos, hmore])
      (fun i => by simp only [fileUse, hpos, hmore]) fun hc => by dsimp only at hc; omega
    rw [hand_down (by dsimp only; omega)] at hset
    exact ⟨rfl, hset⟩
  · have hone : (s.files f).ref = 1 := by omega
    have hzero : ∀ i, fileUse i { s.files f with ref := 0, type := .none } = 0 := fun i =>
      fileUse_of_type (fun hc => by rcases hc with hc | hc <;> cases hc) i
    have huses : ∀ i, uses { s with
        files := Function.update s.files f { s.files f with ref := 0, type := .none } } i +
        fileUse i (s.files f) = uses s i := fun i => by
      have := uses_setFile (s := s) hf { s.files f with ref := 0, type := .none } i
      rwa [hzero, Nat.add_zero] at this
    simp only [wp_bind, Fs.setFile, wp_modify]
    split
    · rename_i hpipe
      refine wp_post (pipeclose_spec h.sound hone hpipe) ?_
      rintro _ t ⟨hprocs, hdisk, hfiles, hsound⟩
      refine ⟨hprocs, hsound, ?_⟩
      have hu : uses t = uses s := by
        funext i
        rw [← huses i, fileUse_of_type (by rw [hpipe]; decide), Nat.add_zero]
        unfold uses
        rw [hprocs, hfiles]
      rw [hdisk, hu]
      exact h.held
    · rename_i hnp
      have hends : ∀ pa w, endUse pa w { s.files f with ref := 0, type := .none } =
          endUse pa w (s.files f) := fun pa w => by
        rw [endUse_of_type hnp, endUse_of_type fun hc => by cases hc]
      have hsound := h.sound.setFile hf hends fun _ => rfl
      rw [hand_down (by dsimp only; omega)] at hsound
      split
      · -- the inode goes with its file
        rename_i ht
        have huse : ∀ j, fileUse j (s.files f) = if (s.files f).ip = j then 1 else 0 :=
          fileUse_eq hpos ht
        have hip : 0 < uses s (s.files f).ip + π (s.files f).ip := by
          have := huses (s.files f).ip
          rw [huse, if_pos rfl] at this
          omega
        rw [wp_fs]
        refine wp_post (iput_held h.held hip) ?_
        rintro _ d ⟨hd, -⟩
        refine ⟨rfl, hsound.disk d, ?_⟩
        rw [drop_add (uses s) _ π _ fun j => by rw [← huse j]; exact huses j] at hd
        exact hd
      · rename_i hnt
        refine ⟨rfl, hsound, ?_⟩
        have hu : uses { s with
            files := Function.update s.files f { s.files f with ref := 0, type := .none } } =
            uses s := by
          funext i
          rw [← huses i, fileUse_of_type hnt, Nat.add_zero]
        rw [hu]
        exact h.held

/-- No file but `f` has changed, and no process or inode. -/
structure Only (f : ℕ) (s t : Sys) : Prop where
  procs : t.procs = s.procs
  disk : t.disk = s.disk
  files : ∀ g, g ≠ f → t.files g = s.files g

lemma filealloc_tidy (h : Tidy pages δ π s) :
    wp filealloc (fun r t =>
      match r with
      | none => t = s
      | some f => Only f s t ∧ (s.files f).ref = 0 ∧ (t.files f).ref = 1 ∧
        (t.files f).type = .none ∧ Tidy pages (δ + hand (some f)) π t) (fun _ => True) s := by
  refine wp_post (filealloc_spec h.sound) fun r t hr => ?_
  cases r with
  | none => exact hr
  | some f =>
    obtain ⟨hlt, hz, rfl, hs⟩ := hr
    have hty := h.sound.idle f hz
    have hnone : ¬((s.files f).type = .inode ∨ (s.files f).type = .device) := by
      rw [hty]
      decide
    refine ⟨⟨rfl, rfl, fun g hg => Function.update_of_ne hg _ _⟩, hz, ?_, ?_, hs, ?_⟩
    · simp only [Function.update_self]
    · simp only [Function.update_self, hty]
    · have hu : uses { s with files := Function.update s.files f { s.files f with ref := 1 } } =
          uses s := by
        funext i
        exact uses_setFile_same hlt
          ((fileUse_of_type (x := { s.files f with ref := 1 }) hnone i).trans
            (fileUse_of_type hnone i).symm)
      rw [hu]
      exact h.held

/-- A free page becomes a pipe with two open ends. -/
lemma Tidy.newPipe {f0 f1 pa : ℕ} {rest : List ℕ} (h : Tidy pages δ π s) (h01 : f0 ≠ f1)
    (h0 : (s.files f0).ref = 1 ∧ (s.files f0).type = .none)
    (h1 : (s.files f1).ref = 1 ∧ (s.files f1).type = .none) (hfree : s.freelist = pa :: rest)
    {x0 x1 : File} (hx0 : x0.ref = 1 ∧ x0.type = .pipe ∧ x0.pipe = pa ∧ x0.writable = false)
    (hx1 : x1.ref = 1 ∧ x1.type = .pipe ∧ x1.pipe = pa ∧ x1.writable = true) :
    Tidy pages δ π { s with
      files := Function.update (Function.update s.files f0 x0) f1 x1
      pipes := Function.update s.pipes pa ⟨true, true⟩
      freelist := rest
      temp := Function.update s.temp pa (s.temp pa + 1) } := by
  set t : Sys := { s with
      files := Function.update (Function.update s.files f0 x0) f1 x1
      pipes := Function.update s.pipes pa ⟨true, true⟩
      freelist := rest
      temp := Function.update s.temp pa (s.temp pa + 1) } with ht
  have hlt0 : f0 < NFILE := h.sound.lt f0 (by omega)
  have hlt1 : f1 < NFILE := h.sound.lt f1 (by omega)
  have hstep0 := fun qa w => ends_setFile (s := s) hlt0 x0 qa w
  have hstep1 := fun qa w =>
    ends_setFile (s := { s with files := Function.update s.files f0 x0 }) hlt1 x1 qa w
  have hnew : ∀ x : File, x.ref = 1 → x.type = .pipe → x.pipe = pa → ∀ qa w,
      endUse qa w x = if pa = qa ∧ x.writable = w then 1 else 0 := by
    intro x hr hty hp qa w
    unfold endUse
    rw [hp]
    exact if_congr ⟨fun hc => hc.2.2, fun hc => ⟨by omega, hty, hc⟩⟩ rfl rfl
  have hends : ∀ qa w, ends t qa w = ends s qa w + if pa = qa then 1 else 0 := by
    intro qa w
    have e0 := hstep0 qa w
    have e1 := hstep1 qa w
    rw [endUse_of_type (by rw [h0.2]; decide), hnew x0 hx0.1 hx0.2.1 hx0.2.2.1, hx0.2.2.2] at e0
    dsimp only at e1
    rw [Function.update_of_ne h01.symm, endUse_of_type (by rw [h1.2]; decide),
      hnew x1 hx1.1 hx1.2.1 hx1.2.2.1, hx1.2.2.2] at e1
    have e2 : ends t qa w = ends { s with
      files := Function.update (Function.update s.files f0 x0) f1 x1 } qa w := rfl
    cases w with
    | false =>
      simp only [and_true, Bool.true_eq_false, and_false, if_false] at e0 e1
      omega
    | true =>
      simp only [and_true, Bool.false_eq_true, and_false, if_false] at e0 e1
      omega
  -- the page was free, so that it was no pipe
  have hcount : ∀ qa, s.freelist.count qa = rest.count qa + if pa = qa then 1 else 0 := by
    intro qa
    rw [hfree, List.count_cons]
    simp only [beq_iff_eq]
  have hpage := h.sound.page pa
  rw [hcount pa, if_pos rfl] at hpage
  have hnl : ¬live s pa := by
    intro hc
    rw [if_pos hc] at hpage
    split_ifs at hpage <;> omega
  have hlive : ∀ qa, live t qa ↔ live s qa ∨ pa = qa := by
    intro qa
    unfold live
    rw [hends, hends]
    by_cases hq : pa = qa
    · rw [if_pos hq]
      simp only [hq, or_true, iff_true]
      omega
    · rw [if_neg hq]
      simp only [hq, or_false, Nat.add_zero]
  refine ⟨⟨fun g => ?_, fun g hg => ?_, fun g hg => ?_, fun qa w hqa => ?_, fun qa => ?_,
    fun qa => ?_⟩, ?_⟩
  · have hfr := h.sound.fref g
    change ((Function.update (Function.update s.files f0 x0) f1 x1 g).ref : ℤ) = slots s g + δ g
    by_cases hg1 : g = f1
    · rw [hg1, Function.update_self, hx1.1]
      rw [hg1, h1.1] at hfr
      exact hfr
    · rw [Function.update_of_ne hg1]
      by_cases hg0 : g = f0
      · rw [hg0, Function.update_self, hx0.1]
        rw [hg0, h0.1] at hfr
        exact hfr
      · rw [Function.update_of_ne hg0]
        exact hfr
  · by_cases hg1 : g = f1
    · exact hg1 ▸ hlt1
    · by_cases hg0 : g = f0
      · exact hg0 ▸ hlt0
      · refine h.sound.lt g ?_
        simpa only [ht, Function.update_of_ne hg1, Function.update_of_ne hg0] using hg
  · simp only [ht] at hg ⊢
    by_cases hg1 : g = f1
    · rw [hg1, Function.update_self, hx1.1] at hg
      exact absurd hg Nat.one_ne_zero
    · rw [Function.update_of_ne hg1] at hg ⊢
      by_cases hg0 : g = f0
      · rw [hg0, Function.update_self, hx0.1] at hg
        exact absurd hg Nat.one_ne_zero
      · rw [Function.update_of_ne hg0] at hg ⊢
        exact h.sound.idle g hg
  · rw [hends]
    by_cases hq : pa = qa
    · have hz : ends s qa w = 0 := by
        rw [hq] at hnl
        unfold live at hnl
        cases w <;> omega
      subst hq
      rw [hz, if_pos rfl]
      simp only [ht, Function.update_self]
      cases w <;> rfl
    · have hs := ((hlive qa).mp hqa).resolve_right hq
      rw [if_neg hq, h.sound.opn qa w hs]
      simp only [ht, Function.update_of_ne (Ne.symm hq), Nat.add_zero]
  · have hp := h.sound.page qa
    rw [hcount qa] at hp
    change rest.count qa + (if qa ∈ s.taken then 1 else 0) + _ = _
    by_cases hq : pa = qa
    · rw [if_pos ((hlive qa).mpr (Or.inr hq))]
      have hnq : ¬live s qa := hq ▸ hnl
      rw [if_pos hq, if_neg hnq] at hp
      omega
    · have hiff : live t qa ↔ live s qa := by
        rw [hlive qa]
        exact or_iff_left hq
      rw [if_neg hq] at hp
      simp only [hiff]
      exact hp
  · have hp := h.sound.temp qa
    change Function.update s.temp pa (s.temp pa + 1) qa = s.taken.count qa + _
    by_cases hq : pa = qa
    · rw [if_pos ((hlive qa).mpr (Or.inr hq)), ← hq, Function.update_self]
      have hnq : ¬live s qa := hq ▸ hnl
      rw [if_neg hnq, ← hq] at hp
      omega
    · have hiff : live t qa ↔ live s qa := by
        rw [hlive qa]
        exact or_iff_left hq
      rw [Function.update_of_ne (Ne.symm hq), hp]
      simp only [hiff]
  · have hu : uses t = uses s := by
      funext i
      have u0 := uses_setFile (s := s) hlt0 x0 i
      have u1 := uses_setFile (s := { s with files := Function.update s.files f0 x0 }) hlt1 x1 i
      dsimp only at u1
      rw [Function.update_of_ne h01.symm, fileUse_of_type (by rw [h1.2]; decide),
        fileUse_of_type (by rw [hx1.2.1]; decide)] at u1
      rw [fileUse_of_type (by rw [h0.2]; decide), fileUse_of_type (by rw [hx0.2.1]; decide)] at u0
      have u2 : uses t i = uses { s with
        files := Function.update (Function.update s.files f0 x0) f1 x1 } i := rfl
      omega
    rw [hu]
    exact h.held

/-- The file has its inode. -/
lemma Tidy.openFile {ip : ℕ} (h : Tidy pages δ (take π ip) s) (hone : (s.files f).ref = 1)
    (hnone : (s.files f).type = .none) {x : File} (href : x.ref = 1)
    (hty : x.type = .inode ∨ x.type = .device) (hip : x.ip = ip) :
    Tidy pages δ π { s with files := Function.update s.files f x } := by
  have hf := h.sound.lt f (by omega)
  refine ⟨?_, ?_⟩
  · have hs := h.sound.setFile hf (x := x) (fun pa w => ?_) fun hc => by omega
    · rw [href, hone, sub_self, Pi.single_zero, add_zero] at hs
      exact hs
    · have hx : x.type ≠ .pipe := by
        rcases hty with hc | hc
        · rw [hc]
          decide
        · rw [hc]
          decide
      rw [endUse_of_type hx, endUse_of_type (by rw [hnone]; decide)]
  · have hu : (fun i => uses s i + take π ip i) = fun i =>
        uses { s with files := Function.update s.files f x } i + π i := by
      funext i
      have hset := uses_setFile (s := s) hf x i
      rw [fileUse_of_type (by rw [hnone]; decide), fileUse_eq (by omega) hty, hip] at hset
      by_cases hi : i = ip
      · subst hi
        rw [if_pos rfl] at hset
        rw [take_self]
        omega
      · rw [if_neg (Ne.symm hi)] at hset
        rw [take_ne π hi]
        omega
    have hh := h.held
    rw [hu] at hh
    exact hh

lemma Tidy.setOfile {fd : ℕ} (h : Tidy pages δ π s) (hp : p < NPROC) (hfd : fd < NOFILE)
    (o : Option ℕ) : Tidy pages (δ + hand ((s.procs p).ofile fd) - hand o) π
      { s with procs := Function.update s.procs p { s.procs p with
        ofile := Function.update (s.procs p).ofile fd o } } := by
  refine ⟨h.sound.setOfile hp hfd o, ?_⟩
  have hu : uses { s with procs := Function.update s.procs p { s.procs p with
      ofile := Function.update (s.procs p).ofile fd o } } = uses s := by
    funext i
    have hset := uses_setProc (s := s) hp { s.procs p with
      ofile := Function.update (s.procs p).ofile fd o } i
    have hcwd : cwdUse i { s.procs p with ofile := Function.update (s.procs p).ofile fd o } =
      cwdUse i (s.procs p) := rfl
    rw [hcwd] at hset
    exact Nat.add_right_cancel hset
  rw [hu]
  exact h.held

/-- Nothing but the descriptors of live processes differs. -/
def SameProcs (s t : Sys) : Prop :=
  ∀ q, (t.procs q).state = (s.procs q).state ∧ (t.procs q).cwd = (s.procs q).cwd ∧
    ((s.procs q).state ≠ .alive → t.procs q = s.procs q)

lemma SameProcs.of_eq (h : t.procs = s.procs) : SameProcs s t := fun q => by
  rw [h]
  exact ⟨rfl, rfl, fun _ => rfl⟩

lemma SameProcs.trans {u : Sys} (h1 : SameProcs s t) (h2 : SameProcs t u) : SameProcs s u :=
  fun q => ⟨(h2 q).1.trans (h1 q).1, (h2 q).2.1.trans (h1 q).2.1, fun hq =>
    ((h2 q).2.2 (by rw [(h1 q).1]; exact hq)).trans ((h1 q).2.2 hq)⟩

lemma SameProcs.setOfile {fd : ℕ} {o : Option ℕ} (hp : (s.procs p).state = .alive) :
    SameProcs s { s with procs := Function.update s.procs p { s.procs p with
        ofile := Function.update (s.procs p).ofile fd o } } := by
  intro q
  by_cases hq : q = p
  · subst hq
    simp only [Function.update_self, true_and]
    exact fun hc => absurd hp hc
  · simp only [Function.update_of_ne hq, true_and, implies_true]

lemma Procs.same (h : Procs s) (hst : SameProcs s t) : Procs t where
  cwd q hq := by
    rw [(hst q).2.1]
    exact h.cwd q (by rw [← (hst q).1]; exact hq)
  dead q hq := by
    have hsq : (s.procs q).state ≠ .alive := by rw [← (hst q).1]; exact hq
    rw [(hst q).2.2 hsq]
    exact h.dead q hsq

lemma fdalloc_tidy (h : Tidy pages δ π s) (hp : p < NPROC) (ha : (s.procs p).state = .alive) :
    wp (fdalloc p f) (fun r t =>
      match r with
      | none => t = s
      | some fd => fd < NOFILE ∧ t.files = s.files ∧ t.disk = s.disk ∧ SameProcs s t ∧
        (s.procs p).ofile fd = none ∧ (t.procs p).ofile = Function.update (s.procs p).ofile fd (some f) ∧
        Tidy pages (δ - hand (some f)) π t) (fun _ => True) s := by
  unfold fdalloc
  simp only [wp_bind, wp_get]
  cases hf : (List.range NOFILE).find? fun fd => decide ((s.procs p).ofile fd = none) with
  | none => rfl
  | some fd =>
    have hlt := List.mem_range.mp (List.mem_of_find?_eq_some hf)
    have hz := List.find?_some hf
    rw [decide_eq_true_eq] at hz
    simp only [wp_bind, Fs.setOfile, Fs.setProc, wp_modify, wp_pure]
    refine ⟨hlt, trivial, trivial, SameProcs.setOfile ha, hz, by simp only [Function.update_self], ?_⟩
    have hs := h.setOfile hp hlt (some f)
    rw [hz] at hs
    simpa only [hand, add_zero] using hs

lemma setOfile_tidy {fd : ℕ} {o q : Option ℕ} (h : Tidy pages δ π s) (hp : p < NPROC)
    (ha : (s.procs p).state = .alive) (hfd : fd < NOFILE) (ho : (s.procs p).ofile fd = o) :
    wp (setOfile p fd q) (fun _ t => SameProcs s t ∧
      (t.procs p).ofile = Function.update (s.procs p).ofile fd q ∧
      Tidy pages (δ + hand o - hand q) π t) (fun _ => True) s := by
  rw [Fs.setOfile, Fs.setProc, wp_modify]
  refine ⟨SameProcs.setOfile ha, ?_, ho ▸ h.setOfile hp hfd q⟩
  simp only [Function.update_self]

lemma filedup_tidy (h : Tidy pages δ π s) :
    wp (filedup f) (fun g t => g = f ∧ t.procs = s.procs ∧
      Tidy pages (δ + hand (some f)) π t) (fun _ => True) s := by
  refine wp_post (filedup_spec h.sound) ?_
  rintro g t ⟨rfl, rfl, hu, hs⟩
  refine ⟨rfl, rfl, hs, ?_⟩
  simp only [hu]
  exact h.held

/-- **pipealloc** returns the two ends, or leaves everything as it was. -/
lemma pipealloc_tidy (h : Tidy pages δ π s) :
    wp pipealloc (fun r t => t.procs = s.procs ∧
      match r with
      | none => Tidy pages δ π t
      | some (f0, f1) => Tidy pages (δ + hand (some f0) + hand (some f1)) π t)
      (fun _ => True) s := by
  unfold pipealloc
  rw [wp_bind]
  refine wp_post (filealloc_tidy h) fun r s1 hr => ?_
  cases r with
  | none =>
    subst hr
    exact ⟨rfl, h⟩
  | some f0 =>
    obtain ⟨ho1, -, hr0, ht0, h1⟩ := hr
    simp only [wp_bind]
    refine wp_post (filealloc_tidy h1) fun r s2 hr => ?_
    cases r with
    | none =>
      subst hr
      simp only [pipeallocBad, wp_bind, wp_pure]
      refine wp_post (fileclose_spec h1) ?_
      rintro _ t ⟨hpr, ht⟩
      rw [add_sub_cancel_right] at ht
      exact ⟨hpr.trans ho1.procs, ht⟩
    | some f1 =>
      obtain ⟨ho2, hz1, hr1, ht1, h2⟩ := hr
      have hprocs := ho2.procs.trans ho1.procs
      have h01 : f0 ≠ f1 := by
        rintro rfl
        omega
      simp only [kalloc, wp_bind, wp_get]
      cases hfree : s2.freelist with
      | nil =>
        simp only [wp_pure, pipeallocBad, wp_bind]
        refine wp_post (fileclose_spec h2) ?_
        rintro _ t1 ⟨hpr1, ht1⟩
        refine wp_post (fileclose_spec ht1) ?_
        rintro _ t2 ⟨hpr2, ht2⟩
        have hδ : δ + hand (some f0) + hand (some f1) - hand (some f0) - hand (some f1) = δ := by
          abel
        rw [hδ] at ht2
        exact ⟨(hpr2.trans hpr1).trans hprocs, ht2⟩
      | cons pa rest =>
        simp only [wp_bind, wp_set, check_and_increment, wp_get]
        split
        · trivial
        · simp only [wp_set, wp_pure, wp_bind, wp_modify, Fs.setFile]
          refine ⟨hprocs, h2.newPipe h01 ⟨?_, ?_⟩ ⟨hr1, ht1⟩ hfree ⟨?_, rfl, rfl, rfl⟩
            ⟨?_, rfl, rfl, rfl⟩⟩
          · rw [ho2.files f0 h01, hr0]
          · rw [ho2.files f0 h01, ht0]
          · dsimp only
            rw [ho2.files f0 h01, hr0]
          · simp only [Function.update_of_ne h01.symm, hr1]

end Xv6.Fs
