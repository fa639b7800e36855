import Xv6.Bcache
import Mathlib.Algebra.BigOperators.Group.Finset.Basic
import Mathlib.Algebra.BigOperators.Fin

/-!
What holds between the buffers, the processes, the log and the disk, and that each operation of
`bio.c` keeps it.

The count of a buffer is that of its users and of the log, if it is pinned. A buffer that is not
being changed has the block as the operations last logged it, and so has the disk, except for the
blocks that are still to be installed: these are in a buffer that is in use and so is not recycled.
-/

namespace Xv6.Bio

open Log (Block Layout MAXOPBLOCKS LOGSIZE writeHeader Home)
open Dlist (Links Cycle seek insertAfter unlink)

variable {N P : ℕ} {D : LogDev} {s t : St N P} {p : Fin P} {i : Fin N} {dev b : ℕ}

/-! ### Users of a buffer -/

/-- How often the call uses the buffer. -/
def callRef (c : Option (Call N)) (i : Fin N) : ℕ :=
  match c with
  | some (.lock j _ _) | some (.fill j _ _) | some (.drop j) => if j = i then 1 else 0
  | none => 0

def refs (s : St N P) (p : Fin P) (i : Fin N) : ℕ := (s.held p).count i + callRef (s.call p) i

/-- The process holds the sleeplock of the buffer. -/
def Has (s : St N P) (p : Fin P) (i : Fin N) : Prop :=
  i ∈ s.held p ∨ ∃ dev b, s.call p = some (.fill i dev b)

/-- The buffer is one the log has not unpinned. -/
def Pinned (D : LogDev) (s : St N P) (i : Fin N) : Prop :=
  s.dev i = D.dev ∧ s.blockno i ∈ s.lh.drop s.unpinned

instance (D : LogDev) (s : St N P) (i : Fin N) : Decidable (Pinned D s i) := by
  unfold Pinned; infer_instance

/-- What a block should hold: what was last logged, or for the blocks of the log what was last
written. -/
def content (D : LogDev) (s : St N P) (b : ℕ) : Block :=
  if Home D.toLayout b then s.mem b else s.disk b

structure Inv (D : LogDev) (s : St N P) : Prop where
  cycle : ∃ l : List (Fin N), l.Perm (List.finRange N) ∧ Cycle s.links none (l.map some)
  devs : ∀ i, s.dev i = 0 ∨ s.dev i = D.dev
  unique : ∀ i j, s.dev i = D.dev → s.dev j = D.dev → s.blockno i = s.blockno j → i = j
  count : ∀ i, s.refcnt i = ∑ p, refs s p i + if Pinned D s i then 1 else 0
  used : ∀ p i, 0 < refs s p i → s.dev i = D.dev
  locked : ∀ i p, s.locked i = some p ↔ Has s p i
  nodup : ∀ p, (s.held p).Nodup
  once : ∀ p i dev b, s.call p = some (.fill i dev b) → i ∉ s.held p
  asked : ∀ p i dev b, s.call p = some (.lock i dev b) ∨ s.call p = some (.fill i dev b) →
    dev = D.dev ∧ s.blockno i = b
  home : ∀ p i, (s.job p).free = true → 0 < refs s p i → Home D.toLayout (s.blockno i)
  valid : ∀ p, ∀ i ∈ s.held p, s.valid i = true
  dirty : ∀ i ∈ s.dirty, ∃ p, i ∈ s.held p ∧ s.job p ≠ .idle
  data : ∀ i, s.dev i = D.dev → s.valid i = true → i ∉ s.dirty →
    s.data i = content D s (s.blockno i)
  disk : ∀ b, Home D.toLayout b → b ∉ s.lh.drop s.installed → s.disk b = s.mem b
  pinned : ∀ b ∈ s.lh.drop s.unpinned, ∃ i, s.dev i = D.dev ∧ s.blockno i = b ∧ s.valid i = true
  lhNodup : s.lh.Nodup
  lhHome : ∀ b ∈ s.lh, Home D.toLayout b
  fits : s.lh.length ≤ D.size - 1
  order : s.unpinned ≤ s.installed

lemma sum_refs (hq : ∀ q, q ≠ p → t.call q = s.call q ∧ t.held q = s.held q) (i : Fin N) :
    ∑ q, refs t q i + refs s p i = ∑ q, refs s q i + refs t p i := by
  have hrest : ∑ q ∈ Finset.univ.erase p, refs t q i = ∑ q ∈ Finset.univ.erase p, refs s q i := by
    refine Finset.sum_congr rfl fun q hm => ?_
    have hne := Finset.ne_of_mem_erase hm
    unfold refs
    rw [(hq q hne).1, (hq q hne).2]
  rw [← Finset.add_sum_erase _ (refs t · i) (Finset.mem_univ p),
    ← Finset.add_sum_erase _ (refs s · i) (Finset.mem_univ p), hrest]
  omega

lemma refs_le_sum (s : St N P) (p : Fin P) (i : Fin N) : refs s p i ≤ ∑ q, refs s q i :=
  Finset.single_le_sum (f := fun q => refs s q i) (fun _ _ => Nat.zero_le _) (Finset.mem_univ p)

lemma refs_pos_of_held (h : i ∈ s.held p) : 0 < refs s p i := by
  have := List.count_pos_iff.mpr h
  unfold refs
  omega

lemma refs_pos_of_call (h : 0 < callRef (s.call p) i) : 0 < refs s p i := by
  unfold refs
  omega

lemma Inv.refs_le (h : Inv D s) (p : Fin P) (i : Fin N) : refs s p i ≤ s.refcnt i := by
  have := refs_le_sum s p i
  have := h.count i
  omega

lemma Inv.refs_eq_zero (h : Inv D s) (hz : s.refcnt i = 0) (p : Fin P) : refs s p i = 0 := by
  have := h.refs_le p i
  omega

lemma Inv.not_pinned (h : Inv D s) (hz : s.refcnt i = 0) : ¬Pinned D s i := by
  intro hp
  have := h.count i
  rw [if_pos hp] at this
  omega

/-! ### bget -/

lemma Inv.cached_none (h : Inv D s) (hn : cached s dev b = none) (i : Fin N) :
    ¬(s.dev i = dev ∧ s.blockno i = b) := by
  obtain ⟨l, hperm, hc⟩ := h.cycle
  have hlen : l.length = N := by rw [hperm.length_eq, List.length_finRange]
  have hf := Dlist.seek_eq_find
    (fun x : Option (Fin N) => x.any fun i => decide (s.dev i = dev ∧ s.blockno i = b))
    hc.next (List.nodup_cons.mp hc.nodup).1
  rw [List.length_map, hlen] at hf
  unfold cached at hn
  rw [hf] at hn
  have hi : some i ∈ l.map some := List.mem_map_of_mem (hperm.mem_iff.mpr (List.mem_finRange i))
  simpa using List.find?_eq_none.mp hn _ hi

/-- What `bget` does: it counts a buffer that has the block, or takes one that is not in use for a
block that is in none, or panics. -/
lemma Inv.bget_cases (h : Inv D s) (p : Fin P) (dev b : ℕ) :
    (∃ i, s.dev i = dev ∧ s.blockno i = b ∧ bget s p dev b =
      { s with
        refcnt := Function.update s.refcnt i (s.refcnt i + 1)
        call := Function.update s.call p (some (.lock i dev b)) }) ∨
    (∃ i, (∀ j, ¬(s.dev j = dev ∧ s.blockno j = b)) ∧ s.refcnt i = 0 ∧ bget s p dev b =
      { s with
        dev := Function.update s.dev i dev
        blockno := Function.update s.blockno i b
        valid := Function.update s.valid i false
        refcnt := Function.update s.refcnt i 1
        call := Function.update s.call p (some (.lock i dev b)) }) ∨
    bget s p dev b = panic s := by
  rcases hc : cached s dev b with _ | _ | i
  · rcases hu : unused s with _ | _ | i
    · exact Or.inr (Or.inr (by simp [bget, hc, hu]))
    · exact Or.inr (Or.inr (by simp [bget, hc, hu]))
    · refine Or.inr (Or.inl ⟨i, h.cached_none hc, ?_, by simp [bget, hc, hu]⟩)
      simpa using Dlist.seek_some hu
  · have := Dlist.seek_some hc
    simp at this
  · have hi := Dlist.seek_some hc
    simp only [Option.any_some, decide_eq_true_eq] at hi
    exact Or.inl ⟨i, hi.1, hi.2, by simp [bget, hc]⟩

lemma Inv.panic (h : Inv D s) : Inv D (panic s) :=
  ⟨h.cycle, h.devs, h.unique, h.count, h.used, h.locked, h.nodup, h.once, h.asked, h.home, h.valid,
    h.dirty, h.data, h.disk, h.pinned, h.lhNodup, h.lhHome, h.fits, h.order⟩

lemma refs_lock (hcall : s.call p = none) (ht : t.call = Function.update s.call p
    (some (.lock i dev b))) (hh : t.held = s.held) (q : Fin P) (j : Fin N) :
    refs t q j = refs s q j + if q = p ∧ i = j then 1 else 0 := by
  unfold refs
  rw [ht, hh]
  by_cases hq : q = p
  · subst hq
    simp [hcall, callRef]
  · simp [hq]

lemma sum_refs_lock (hcall : s.call p = none) (ht : t.call = Function.update s.call p
    (some (.lock i dev b))) (hh : t.held = s.held) (j : Fin N) :
    ∑ q, refs t q j = ∑ q, refs s q j + if i = j then 1 else 0 := by
  have hsum := sum_refs (s := s) (t := t) (p := p) (fun q hq => by
    rw [ht, hh, Function.update_of_ne hq]
    exact ⟨rfl, rfl⟩) j
  have hp := refs_lock hcall ht hh p j
  simp only [true_and] at hp
  omega

lemma has_lock (hcall : s.call p = none) (ht : t.call = Function.update s.call p
    (some (.lock i dev b))) (hh : t.held = s.held) (q : Fin P) (j : Fin N) :
    Has t q j ↔ Has s q j := by
  unfold Has
  rw [ht, hh]
  by_cases hq : q = p
  · subst hq
    simp [hcall]
  · rw [Function.update_of_ne hq]

/-- One more use of a buffer that has the block. -/
lemma Inv.hit (h : Inv D s) (hcall : s.call p = none) (hdi : s.dev i = D.dev)
    (hbi : s.blockno i = b) (hb : (s.job p).free = true → Home D.toLayout b) :
    Inv D { s with
      refcnt := Function.update s.refcnt i (s.refcnt i + 1)
      call := Function.update s.call p (some (.lock i D.dev b)) } := by
  set t : St N P := { s with
    refcnt := Function.update s.refcnt i (s.refcnt i + 1)
    call := Function.update s.call p (some (.lock i D.dev b)) } with ht
  have hused : ∀ q j, 0 < refs t q j → 0 < refs s q j ∨ q = p ∧ i = j := by
    intro q j hq
    rw [refs_lock (t := t) hcall rfl rfl] at hq
    split_ifs at hq with hc
    · exact Or.inr hc
    · exact Or.inl hq
  refine ⟨h.cycle, h.devs, h.unique, fun j => ?_, fun q j hq => ?_, fun j q => ?_, h.nodup,
    fun q j d c hc => ?_, fun q j d c hc => ?_, fun q j hf hq => ?_, h.valid, h.dirty, h.data,
    h.disk, h.pinned, h.lhNodup, h.lhHome, h.fits, h.order⟩
  · have hsum := sum_refs_lock (t := t) hcall rfl rfl j
    have hcount := h.count j
    rw [hsum]
    change Function.update s.refcnt i (s.refcnt i + 1) j =
      _ + if Pinned D s j then 1 else 0
    by_cases hij : i = j
    · subst hij
      rw [Function.update_self, if_pos rfl]
      omega
    · rw [Function.update_of_ne (Ne.symm hij), if_neg hij]
      omega
  · rcases hused q j hq with hq | ⟨-, rfl⟩
    · exact h.used q j hq
    · exact hdi
  · exact (h.locked j q).trans (has_lock (t := t) hcall rfl rfl q j).symm
  · by_cases hq : q = p
    · subst hq
      simp [t] at hc
    · exact h.once q j d c (by simpa [t, Function.update_of_ne hq] using hc)
  · by_cases hq : q = p
    · subst hq
      simp only [t, Function.update_self, Option.some.injEq, Call.lock.injEq, reduceCtorEq,
        or_false] at hc
      obtain ⟨rfl, rfl, rfl⟩ := hc
      exact ⟨rfl, hbi⟩
    · exact h.asked q j d c (by simpa [t, Function.update_of_ne hq] using hc)
  · rcases hused q j hq with hq | ⟨rfl, rfl⟩
    · exact h.home q j hf hq
    · exact hbi ▸ hb hf

/-- A buffer that is not in use is taken for a block that is in none. -/
lemma Inv.recycle (h : Inv D s) (hcall : s.call p = none)
    (hno : ∀ j, ¬(s.dev j = D.dev ∧ s.blockno j = b)) (hz : s.refcnt i = 0)
    (hb : (s.job p).free = true → Home D.toLayout b) :
    Inv D { s with
      dev := Function.update s.dev i D.dev
      blockno := Function.update s.blockno i b
      valid := Function.update s.valid i false
      refcnt := Function.update s.refcnt i 1
      call := Function.update s.call p (some (.lock i D.dev b)) } := by
  set t : St N P := { s with
    dev := Function.update s.dev i D.dev
    blockno := Function.update s.blockno i b
    valid := Function.update s.valid i false
    refcnt := Function.update s.refcnt i 1
    call := Function.update s.call p (some (.lock i D.dev b)) } with ht
  have hzero := h.refs_eq_zero hz
  have hpin := h.not_pinned hz
  have hmem : b ∉ s.lh.drop s.unpinned := by
    intro hm
    obtain ⟨j, hdj, hbj, -⟩ := h.pinned b hm
    exact hno j ⟨hdj, hbj⟩
  have hdev : ∀ j, j ≠ i → t.dev j = s.dev j := fun j hj => Function.update_of_ne hj _ _
  have hblk : ∀ j, j ≠ i → t.blockno j = s.blockno j := fun j hj => Function.update_of_ne hj _ _
  have hval : ∀ j, j ≠ i → t.valid j = s.valid j := fun j hj => Function.update_of_ne hj _ _
  have hdi : t.dev i = D.dev := Function.update_self _ _ _
  have hbi : t.blockno i = b := Function.update_self _ _ _
  have hnot : ∀ q, i ∉ s.held q := fun q hm => by
    have := refs_pos_of_held hm
    have := hzero q
    omega
  have hused : ∀ q j, 0 < refs t q j → j ≠ i ∧ 0 < refs s q j ∨ q = p ∧ i = j := by
    intro q j hq
    rw [refs_lock (t := t) hcall rfl rfl] at hq
    split_ifs at hq with hc
    · exact Or.inr hc
    · refine Or.inl ⟨?_, hq⟩
      rintro rfl
      rw [hzero q] at hq
      omega
  refine ⟨h.cycle, fun j => ?_, fun j k hj hk hjk => ?_, fun j => ?_, fun q j hq => ?_,
    fun j q => ?_, h.nodup, fun q j d c hc => ?_, fun q j d c hc => ?_, fun q j hf hq => ?_,
    fun q j hj => ?_, h.dirty, fun j hj hv hn => ?_, h.disk, fun c hc => ?_, h.lhNodup, h.lhHome,
    h.fits, h.order⟩
  · by_cases hj : j = i
    · subst hj
      exact Or.inr hdi
    · rw [hdev j hj]
      exact h.devs j
  · by_cases hji : j = i
    · by_cases hki : k = i
      · rw [hji, hki]
      · subst hji
        rw [hdev k hki] at hk
        rw [hbi, hblk k hki] at hjk
        exact absurd ⟨hk, hjk.symm⟩ (hno k)
    · by_cases hki : k = i
      · subst hki
        rw [hdev j hji] at hj
        rw [hbi, hblk j hji] at hjk
        exact absurd ⟨hj, hjk⟩ (hno j)
      · rw [hdev j hji] at hj
        rw [hdev k hki] at hk
        rw [hblk j hji, hblk k hki] at hjk
        exact h.unique j k hj hk hjk
  · rw [sum_refs_lock (t := t) hcall rfl rfl j]
    have hcount := h.count j
    by_cases hj : j = i
    · subst hj
      have hnp : ¬Pinned D t j := fun hp => hmem (by
        have := hp.2
        rwa [hbi] at this)
      rw [if_neg hpin, hz] at hcount
      rw [if_pos rfl, if_neg hnp]
      change Function.update s.refcnt j 1 j = _
      rw [Function.update_self]
      omega
    · have hiff : Pinned D t j ↔ Pinned D s j := by
        unfold Pinned
        rw [hdev j hj, hblk j hj]
      rw [if_neg (Ne.symm hj), Nat.add_zero]
      change Function.update s.refcnt i 1 j = _
      rw [Function.update_of_ne hj, hcount]
      simp only [hiff]
  · rcases hused q j hq with ⟨hj, hq⟩ | ⟨-, rfl⟩
    · rw [hdev j hj]
      exact h.used q j hq
    · exact hdi
  · exact (h.locked j q).trans (has_lock (t := t) hcall rfl rfl q j).symm
  · by_cases hq : q = p
    · subst hq
      simp [t] at hc
    · exact h.once q j d c (by simpa [t, Function.update_of_ne hq] using hc)
  · by_cases hq : q = p
    · subst hq
      simp only [t, Function.update_self, Option.some.injEq, Call.lock.injEq, reduceCtorEq,
        or_false] at hc
      obtain ⟨rfl, rfl, rfl⟩ := hc
      exact ⟨rfl, hbi⟩
    · have hc' : s.call q = some (.lock j d c) ∨ s.call q = some (.fill j d c) := by
        simpa [t, Function.update_of_ne hq] using hc
      have hji : j ≠ i := by
        rintro rfl
        have := hzero q
        have hpos : 0 < refs s q j := refs_pos_of_call (by
          rcases hc' with hc' | hc' <;> simp [hc', callRef])
        omega
      rw [hblk j hji]
      exact h.asked q j d c hc'
  · rcases hused q j hq with ⟨hj, hq⟩ | ⟨rfl, rfl⟩
    · rw [hblk j hj]
      exact h.home q j hf hq
    · rw [hbi]
      exact hb hf
  · rw [hval j fun hji => hnot q (hji ▸ hj)]
    exact h.valid q j hj
  · by_cases hji : j = i
    · subst hji
      simp [t] at hv
    · rw [hdev j hji] at hj
      rw [hval j hji] at hv
      rw [hblk j hji]
      exact h.data j hj hv hn
  · obtain ⟨j, hdj, hbj, hvj⟩ := h.pinned c hc
    have hji : j ≠ i := by
      rintro rfl
      exact hpin ⟨hdj, hbj ▸ hc⟩
    exact ⟨j, by rw [hdev j hji, hdj], by rw [hblk j hji, hbj], by rw [hval j hji, hvj]⟩

lemma Inv.bget (h : Inv D s) (hcall : s.call p = none)
    (hb : (s.job p).free = true → Home D.toLayout b) : Inv D (bget s p D.dev b) := by
  rcases h.bget_cases p D.dev b with ⟨i, hi, hbi, he⟩ | ⟨i, hno, hz, he⟩ | he
  · rw [he]
    exact h.hit hcall hi hbi hb
  · rw [he]
    exact h.recycle hcall hno hz hb
  · rw [he]
    exact h.panic

/-! ### The rest of bread -/

lemma Inv.acquiresleep (h : Inv D s) (hcall : s.call p = some (.lock i dev b)) :
    Inv D (acquiresleep s p i dev b) := by
  unfold Bio.acquiresleep
  split_ifs with hl
  swap
  · exact h
  set t : St N P := { s with
    locked := Function.update s.locked i (some p)
    call := Function.update s.call p (some (.fill i dev b)) } with ht
  have hfree : ∀ q, ¬Has s q i := fun q hq => by
    have := (h.locked i q).mpr hq
    rw [hl] at this
    cases this
  have hcq : ∀ q, q ≠ p → t.call q = s.call q := fun q hq => Function.update_of_ne hq _ _
  have hcp : t.call p = some (.fill i dev b) := Function.update_self _ _ _
  have hrefs : ∀ q j, refs t q j = refs s q j := by
    intro q j
    unfold refs
    by_cases hq : q = p
    · subst hq
      simp [hcall, callRef, t]
    · rw [hcq q hq]
  have hhas : ∀ q j, Has t q j ↔ Has s q j ∨ q = p ∧ j = i := by
    intro q j
    unfold Has
    by_cases hq : q = p
    · subst hq
      simp [hcall, t, eq_comm]
    · rw [hcq q hq]
      simp [t, hq]
  refine ⟨h.cycle, h.devs, h.unique, fun j => ?_, fun q j hq => h.used q j (hrefs q j ▸ hq),
    fun j q => ?_, h.nodup, fun q j d c hc => ?_, fun q j d c hc => ?_,
    fun q j hf hq => h.home q j hf (hrefs q j ▸ hq), h.valid, h.dirty, h.data, h.disk, h.pinned,
    h.lhNodup, h.lhHome, h.fits, h.order⟩
  · simp only [hrefs]
    exact h.count j
  · rw [hhas]
    by_cases hj : j = i
    · subst hj
      simp [t, hfree q, eq_comm]
    · simp [t, h.locked, hj]
  · by_cases hq : q = p
    · subst hq
      rw [hcp] at hc
      simp only [Option.some.injEq, Call.fill.injEq] at hc
      obtain ⟨rfl, -, -⟩ := hc
      exact fun hm => hfree q (Or.inl hm)
    · exact h.once q j d c (by rwa [hcq q hq] at hc)
  · by_cases hq : q = p
    · subst hq
      rw [hcp] at hc
      simp only [Option.some.injEq, Call.fill.injEq, reduceCtorEq, false_or] at hc
      obtain ⟨rfl, rfl, rfl⟩ := hc
      exact h.asked q _ _ _ (Or.inl hcall)
    · exact h.asked q j d c (by rwa [hcq q hq] at hc)

lemma Inv.disk_content (h : Inv D s) (hd : s.dev i = D.dev) (hv : s.valid i = false) :
    s.disk (s.blockno i) = content D s (s.blockno i) := by
  unfold content
  split_ifs with hh
  · refine h.disk _ hh fun hm => ?_
    obtain ⟨j, hdj, hbj, hvj⟩ :=
      h.pinned _ (List.drop_subset_drop_left _ h.order hm)
    rw [h.unique j i hdj hd hbj, hv] at hvj
    cases hvj
  · rfl

lemma Inv.fill (h : Inv D s) (hcall : s.call p = some (.fill i dev b)) : Inv D (fill s p i) := by
  set t := Bio.fill s p i with ht
  have hpos : 0 < refs s p i := refs_pos_of_call (by simp [hcall, callRef])
  have hdi := h.used p i hpos
  have hnh := h.once p i dev b hcall
  have hcq : ∀ q, q ≠ p → t.call q = s.call q := fun q hq => Function.update_of_ne hq _ _
  have hhq : ∀ q, q ≠ p → t.held q = s.held q := fun q hq => Function.update_of_ne hq _ _
  have hcp : t.call p = none := Function.update_self _ _ _
  have hhp : t.held p = i :: s.held p := Function.update_self _ _ _
  have hvj : ∀ j, j ≠ i → t.valid j = s.valid j := fun j hj => Function.update_of_ne hj _ _
  have hvi : t.valid i = true := Function.update_self _ _ _
  have hdj : ∀ j, j ≠ i → t.data j = s.data j := fun j hj => by
    simp only [ht, Bio.fill]
    split_ifs
    · rfl
    · exact Function.update_of_ne hj _ _
  have hrefs : ∀ q j, refs t q j = refs s q j := by
    intro q j
    unfold refs
    by_cases hq : q = p
    · subst hq
      rw [hcp, hhp, hcall, List.count_cons]
      simp [callRef]
    · rw [hcq q hq, hhq q hq]
  have hhas : ∀ q j, Has t q j ↔ Has s q j := by
    intro q j
    unfold Has
    by_cases hq : q = p
    · subst hq
      simp [hcp, hhp, hcall, or_comm, eq_comm]
    · rw [hcq q hq, hhq q hq]
  have hnd : i ∉ s.dirty := fun hm => by
    obtain ⟨q, hq, -⟩ := h.dirty i hm
    have h1 := (h.locked i q).mpr (Or.inl hq)
    have h2 := (h.locked i p).mpr (Or.inr ⟨dev, b, hcall⟩)
    rw [h1] at h2
    cases h2
    exact hnh hq
  refine ⟨h.cycle, h.devs, h.unique, fun j => ?_, fun q j hq => h.used q j (hrefs q j ▸ hq),
    fun j q => (h.locked j q).trans (hhas q j).symm, fun q => ?_, fun q j d c hc => ?_,
    fun q j d c hc => ?_, fun q j hf hq => h.home q j hf (hrefs q j ▸ hq), fun q j hj => ?_,
    fun j hj => ?_, fun j hj hv hn => ?_, h.disk, fun c hc => ?_, h.lhNodup, h.lhHome, h.fits,
    h.order⟩
  · simp only [hrefs]
    exact h.count j
  · by_cases hq : q = p
    · subst hq
      rw [hhp]
      exact List.nodup_cons.mpr ⟨hnh, h.nodup q⟩
    · rw [hhq q hq]
      exact h.nodup q
  · by_cases hq : q = p
    · subst hq
      rw [hcp] at hc
      cases hc
    · rw [hcq q hq] at hc
      rw [hhq q hq]
      exact h.once q j d c hc
  · by_cases hq : q = p
    · subst hq
      simp [hcp] at hc
    · rw [hcq q hq] at hc
      exact h.asked q j d c hc
  · by_cases hji : j = i
    · rw [hji]
      exact hvi
    · rw [hvj j hji]
      by_cases hq : q = p
      · subst hq
        rw [hhp] at hj
        exact h.valid q j ((List.mem_cons.mp hj).resolve_left hji)
      · rw [hhq q hq] at hj
        exact h.valid q j hj
  · obtain ⟨q, hq, hjob⟩ := h.dirty j hj
    refine ⟨q, ?_, hjob⟩
    by_cases hqp : q = p
    · subst hqp
      rw [hhp]
      exact List.mem_cons_of_mem i hq
    · rw [hhq q hqp]
      exact hq
  · by_cases hji : j = i
    · subst hji
      change t.data j = content D s (s.blockno j)
      cases hvs : s.valid j with
      | true => simpa [ht, Bio.fill, hvs] using h.data j hj hvs hnd
      | false => simpa [ht, Bio.fill, hvs] using h.disk_content hj hvs
    · rw [hdj j hji]
      exact h.data j hj (by rwa [hvj j hji] at hv) hn
  · obtain ⟨j, hj1, hj2, hj3⟩ := h.pinned c hc
    refine ⟨j, hj1, hj2, ?_⟩
    by_cases hji : j = i
    · rw [hji]
      exact hvi
    · rw [hvj j hji, hj3]

/-! ### brelse -/

lemma Inv.lock_of_held (h : Inv D s) (hi : i ∈ s.held p) : s.locked i = some p :=
  (h.locked i p).mpr (Or.inl hi)

lemma Inv.brelse (h : Inv D s) (hcall : s.call p = none) (hi : i ∈ s.held p) (hn : i ∉ s.dirty) :
    Inv D (brelse s p i) := by
  unfold Bio.brelse
  rw [if_pos (h.lock_of_held hi)]
  set t : St N P := { s with
    locked := Function.update s.locked i none
    held := Function.update s.held p ((s.held p).erase i)
    call := Function.update s.call p (some (.drop i)) } with ht
  have hcq : ∀ q, q ≠ p → t.call q = s.call q := fun q hq => Function.update_of_ne hq _ _
  have hhq : ∀ q, q ≠ p → t.held q = s.held q := fun q hq => Function.update_of_ne hq _ _
  have hcp : t.call p = some (.drop i) := Function.update_self _ _ _
  have hhp : t.held p = (s.held p).erase i := Function.update_self _ _ _
  have hsub : ∀ q j, j ∈ t.held q → j ∈ s.held q := by
    intro q j hj
    by_cases hq : q = p
    · subst hq
      rw [hhp] at hj
      exact List.mem_of_mem_erase hj
    · rwa [hhq q hq] at hj
  have hrefs : ∀ q j, refs t q j = refs s q j := by
    intro q j
    unfold refs
    by_cases hq : q = p
    · subst hq
      rw [hcp, hhp, hcall]
      by_cases hj : i = j
      · subst hj
        have := List.count_pos_iff.mpr hi
        simp only [List.count_erase_self, callRef, if_true]
        omega
      · simp [List.count_erase_of_ne (Ne.symm hj), callRef, hj]
    · rw [hcq q hq, hhq q hq]
  have hhas : ∀ q j, Has t q j ↔ Has s q j ∧ j ≠ i := by
    intro q j
    unfold Has
    by_cases hq : q = p
    · subst hq
      rw [hhp, hcp, hcall, (h.nodup q).mem_erase_iff]
      simp [and_comm]
    · rw [hcq q hq, hhq q hq]
      refine ⟨fun hj => ⟨hj, ?_⟩, fun hj => hj.1⟩
      rintro rfl
      have h1 := (h.locked j q).mpr hj
      rw [h.lock_of_held hi] at h1
      exact hq (Option.some.inj h1).symm
  refine ⟨h.cycle, h.devs, h.unique, fun j => ?_, fun q j hq => h.used q j (hrefs q j ▸ hq),
    fun j q => ?_, fun q => ?_, fun q j d c hc => ?_, fun q j d c hc => ?_,
    fun q j hf hq => h.home q j hf (hrefs q j ▸ hq), fun q j hj => h.valid q j (hsub q j hj),
    fun j hj => ?_, h.data, h.disk, h.pinned, h.lhNodup, h.lhHome, h.fits, h.order⟩
  · simp only [hrefs]
    exact h.count j
  · rw [hhas]
    by_cases hj : j = i
    · subst hj
      simp [t]
    · simp [t, h.locked, hj]
  · by_cases hq : q = p
    · subst hq
      rw [hhp]
      exact (h.nodup q).erase i
    · rw [hhq q hq]
      exact h.nodup q
  · by_cases hq : q = p
    · subst hq
      rw [hcp] at hc
      cases hc
    · rw [hcq q hq] at hc
      exact fun hm => h.once q j d c hc (hsub q j hm)
  · by_cases hq : q = p
    · subst hq
      simp [hcp] at hc
    · rw [hcq q hq] at hc
      exact h.asked q j d c hc
  · obtain ⟨q, hq, hjob⟩ := h.dirty j hj
    refine ⟨q, ?_, hjob⟩
    by_cases hqp : q = p
    · subst hqp
      rw [hhp]
      exact (List.mem_erase_of_ne (by rintro rfl; exact hn hj)).mpr hq
    · rw [hhq q hqp]
      exact hq

lemma cycle_front {k : Links (Option (Fin N))}
    (hc : ∃ l : List (Fin N), l.Perm (List.finRange N) ∧ Cycle k none (l.map some)) (i : Fin N) :
    ∃ l : List (Fin N), l.Perm (List.finRange N) ∧
      Cycle (insertAfter (unlink k (some i)) none (some i)) none (l.map some) := by
  obtain ⟨l, hperm, hcyc⟩ := hc
  obtain ⟨l1, l2, rfl⟩ := List.append_of_mem (hperm.mem_iff.mpr (List.mem_finRange i))
  have hnd := hperm.nodup_iff.mpr (List.nodup_finRange N)
  rw [List.map_append, List.map_cons] at hcyc
  refine ⟨i :: (l1 ++ l2), List.perm_middle.symm.trans hperm, ?_⟩
  rw [List.map_cons, List.map_append]
  refine hcyc.unlink.insertAfter (by simp) ?_
  have hni : i ∉ l1 ++ l2 := (List.nodup_middle.mp hnd).notMem
  rw [← List.map_append]
  simpa using hni

lemma Inv.drop (h : Inv D s) (hcall : s.call p = some (.drop i)) : Inv D (drop s p i) := by
  set t := Bio.drop s p i with ht
  have hpos : 0 < refs s p i := refs_pos_of_call (by simp [hcall, callRef])
  have hle := h.refs_le p i
  have hcq : ∀ q, q ≠ p → t.call q = s.call q := fun q hq => Function.update_of_ne hq _ _
  have hcp : t.call p = none := Function.update_self _ _ _
  have hrefs : ∀ q j, refs t q j ≤ refs s q j := by
    intro q j
    unfold refs
    by_cases hq : q = p
    · subst hq
      rw [hcp]
      exact Nat.add_le_add_left (Nat.zero_le _) _
    · rw [hcq q hq]
      exact le_rfl
  have hhas : ∀ q j, Has t q j ↔ Has s q j := by
    intro q j
    unfold Has
    by_cases hq : q = p
    · subst hq
      rw [hcp, hcall]
      simp [ht, Bio.drop]
    · rw [hcq q hq]
      rfl
  refine ⟨?_, h.devs, h.unique, fun j => ?_, fun q j hq => h.used q j (hq.trans_le (hrefs q j)),
    fun j q => (h.locked j q).trans (hhas q j).symm, h.nodup, fun q j d c hc => ?_,
    fun q j d c hc => ?_, fun q j hf hq => h.home q j hf (hq.trans_le (hrefs q j)), h.valid,
    h.dirty, h.data, h.disk, h.pinned, h.lhNodup, h.lhHome, h.fits, h.order⟩
  · simp only [ht, Bio.drop]
    split_ifs
    · exact cycle_front h.cycle i
    · exact h.cycle
  · have hsum := sum_refs (s := s) (t := t) (p := p) (fun q hq => ⟨hcq q hq, rfl⟩) j
    have hcount := h.count j
    have hp : refs s p j = refs t p j + if i = j then 1 else 0 := by
      unfold refs
      rw [hcp, hcall]
      rfl
    change Function.update s.refcnt i (s.refcnt i - 1) j = _ + if Pinned D s j then 1 else 0
    by_cases hij : i = j
    · subst hij
      rw [Function.update_self]
      rw [if_pos rfl] at hp
      omega
    · rw [Function.update_of_ne (Ne.symm hij)]
      rw [if_neg hij] at hp
      omega
  · by_cases hq : q = p
    · subst hq
      rw [hcp] at hc
      cases hc
    · rw [hcq q hq] at hc
      exact h.once q j d c hc
  · by_cases hq : q = p
    · subst hq
      simp [hcp] at hc
    · rw [hcq q hq] at hc
      exact h.asked q j d c hc

/-! ### Changes to the data -/

lemma Inv.modify (h : Inv D s) (hi : i ∈ s.held p) (hjob : s.job p ≠ .idle) (d : Block) :
    Inv D (modify s i d) := by
  refine ⟨h.cycle, h.devs, h.unique, h.count, h.used, h.locked, h.nodup, h.once, h.asked, h.home,
    h.valid, fun j hj => ?_, fun j hj hv hn => ?_, h.disk, h.pinned, h.lhNodup, h.lhHome, h.fits,
    h.order⟩
  · rcases Finset.mem_insert.mp hj with rfl | hj
    · exact ⟨p, hi, hjob⟩
    · exact h.dirty j hj
  · have hji : j ≠ i := fun he => hn (Finset.mem_insert.mpr (Or.inl he))
    change Function.update s.data i d j = _
    rw [Function.update_of_ne hji]
    exact h.data j hj hv fun hm => hn (Finset.mem_insert.mpr (Or.inr hm))

/-- A write of the buffer that leaves its block as it should be. -/
lemma Inv.bwrite (h : Inv D s) (hi : i ∈ s.held p)
    (hd : Home D.toLayout (s.blockno i) → s.data i = s.mem (s.blockno i)) :
    Inv D (bwrite s p i) := by
  unfold Bio.bwrite
  rw [if_pos (h.lock_of_held hi)]
  have hdev := h.used p i (refs_pos_of_held hi)
  refine ⟨h.cycle, h.devs, h.unique, h.count, h.used, h.locked, h.nodup, h.once, h.asked, h.home,
    h.valid, fun j hj => h.dirty j (Finset.mem_of_mem_erase hj), fun j hj hv hn => ?_,
    fun c hc hm => ?_, h.pinned, h.lhNodup, h.lhHome, h.fits, h.order⟩
  · simp only [content]
    by_cases hji : j = i
    · subst hji
      split_ifs with hh
      · exact hd hh
      · rw [Function.update_self]
    · have hne : s.blockno j ≠ s.blockno i := fun he => hji (h.unique j i hj hdev he)
      rw [Function.update_of_ne hne]
      exact h.data j hj hv fun hm => hn (Finset.mem_erase.mpr ⟨hji, hm⟩)
  · simp only
    by_cases hci : c = s.blockno i
    · subst hci
      rw [Function.update_self]
      exact hd hc
    · rw [Function.update_of_ne hci]
      exact h.disk c hc hm

lemma Inv.log_write (h : Inv D s) (hi : i ∈ s.held p) (hjob : s.job p = .op)
    (h1 : s.installed = 0) (h2 : s.unpinned = 0) : Inv D (log_write D s i) := by
  have hpos := refs_pos_of_held hi
  have hdev := h.used p i hpos
  have hhome := h.home p i (by rw [hjob]; rfl) hpos
  have hne : ∀ j, s.dev j = D.dev → j ≠ i → s.blockno j ≠ s.blockno i :=
    fun j hj hji he => hji (h.unique j i hj hdev he)
  -- The block is now as the buffer has it, for the other buffers nothing changes.
  have hdata : ∀ t : St N P, t.mem = Function.update s.mem (s.blockno i) (s.data i) →
      t.disk = s.disk → ∀ j, s.dev j = D.dev → s.valid j = true → j ∉ s.dirty.erase i →
      s.data j = content D t (s.blockno j) := by
    intro t hm hdk j hj hv hn
    unfold content
    rw [hm, hdk]
    by_cases hji : j = i
    · subst hji
      rw [if_pos hhome, Function.update_self]
    · rw [Function.update_of_ne (hne j hj hji)]
      exact h.data j hj hv fun hm => hn (Finset.mem_erase.mpr ⟨hji, hm⟩)
  have hdisk : ∀ c, Home D.toLayout c → c ∉ s.lh → c ≠ s.blockno i →
      s.disk c = Function.update s.mem (s.blockno i) (s.data i) c := by
    intro c hc hm hci
    rw [Function.update_of_ne hci]
    exact h.disk c hc (by rwa [h1, List.drop_zero])
  unfold Bio.log_write
  by_cases hbig : LOGSIZE ≤ s.lh.length ∨ D.size ≤ s.lh.length + 1
  · rw [if_pos hbig]
    exact h.panic
  rw [if_neg hbig]
  by_cases hout : s.outstanding < 1
  · rw [if_pos hout]
    exact h.panic
  rw [if_neg hout]
  dsimp only
  by_cases hin : s.blockno i ∈ s.lh
  · rw [if_pos hin]
    refine ⟨h.cycle, h.devs, h.unique, h.count, h.used, h.locked, h.nodup, h.once, h.asked,
      h.home, h.valid, fun j hj => h.dirty j (Finset.mem_of_mem_erase hj), hdata _ rfl rfl,
      fun c hc hm => ?_, h.pinned, h.lhNodup, h.lhHome, h.fits, h.order⟩
    simp only [h1, List.drop_zero] at hm
    exact hdisk c hc hm fun he => hm (he ▸ hin)
  · rw [if_neg hin]
    refine ⟨h.cycle, h.devs, h.unique, fun j => ?_, h.used, h.locked, h.nodup, h.once, h.asked,
      h.home, h.valid, fun j hj => h.dirty j (Finset.mem_of_mem_erase hj), hdata _ rfl rfl,
      fun c hc hm => ?_, fun c hc => ?_, ?_, fun c hc => ?_, ?_, h.order⟩
    · have hcount := h.count j
      unfold Pinned at hcount ⊢
      simp only [h2, List.drop_zero, List.mem_append, List.mem_singleton] at hcount ⊢
      by_cases hji : j = i
      · subst hji
        rw [Function.update_self, if_pos ⟨hdev, Or.inr rfl⟩]
        rw [if_neg fun hp => hin hp.2] at hcount
        exact congrArg (· + 1) hcount
      · rw [Function.update_of_ne hji, hcount]
        have hiff : (s.dev j = D.dev ∧ (s.blockno j ∈ s.lh ∨ s.blockno j = s.blockno i)) ↔
            s.dev j = D.dev ∧ s.blockno j ∈ s.lh :=
          ⟨fun hp => ⟨hp.1, hp.2.resolve_right (hne j hp.1 hji)⟩, fun hp => ⟨hp.1, Or.inl hp.2⟩⟩
        simp only [hiff]
        rfl
    · simp only [h1, List.drop_zero, List.mem_append, List.mem_singleton, not_or] at hm
      exact hdisk c hc hm.1 hm.2
    · simp only [h2, List.drop_zero, List.mem_append, List.mem_singleton] at hc
      rcases hc with hc | rfl
      · exact h.pinned c (by rwa [h2, List.drop_zero])
      · exact ⟨i, hdev, rfl, h.valid p i hi⟩
    · simp only
      rw [List.nodup_append]
      refine ⟨h.lhNodup, List.nodup_singleton _, fun x hx y hy => ?_⟩
      rw [List.mem_singleton.mp hy]
      rintro rfl
      exact hin hx
    · rcases List.mem_append.mp hc with hc | hc
      · exact h.lhHome c hc
      · rw [List.mem_singleton.mp hc]
        exact hhome
    · simp only [List.length_append, List.length_singleton]
      omega

/-! ### The blocks of the header one after the other -/

lemma mem_drop_iff {l : List ℕ} {n x : ℕ} (hn : n < l.length) :
    x ∈ l.drop n ↔ x = l.getD n 0 ∨ x ∈ l.drop (n + 1) := by
  rw [List.drop_eq_getElem_cons hn, List.mem_cons, List.getD_eq_getElem _ _ hn]

lemma notMem_drop_succ {l : List ℕ} {n : ℕ} (hl : l.Nodup) (hn : n < l.length) :
    l.getD n 0 ∉ l.drop (n + 1) := by
  have hd := hl.sublist (List.drop_sublist n l)
  rw [List.drop_eq_getElem_cons hn] at hd
  rw [List.getD_eq_getElem _ _ hn]
  exact (List.nodup_cons.mp hd).1

lemma Inv.setInstalled (h : Inv D s) {n : ℕ} (h1 : s.installed = n) (hn : n < s.lh.length)
    (hd : s.disk (s.lh.getD n 0) = s.mem (s.lh.getD n 0)) :
    Inv D { s with installed := n + 1 } := by
  refine ⟨h.cycle, h.devs, h.unique, h.count, h.used, h.locked, h.nodup, h.once, h.asked, h.home,
    h.valid, h.dirty, h.data, fun c hc hm => ?_, h.pinned, h.lhNodup, h.lhHome, h.fits,
    h1 ▸ Nat.le_succ_of_le h.order⟩
  by_cases hcn : c = s.lh.getD n 0
  · rw [hcn]
    exact hd
  · refine h.disk c hc ?_
    rw [h1, mem_drop_iff hn, not_or]
    exact ⟨hcn, hm⟩

lemma Inv.bunpin (h : Inv D s) (hi : i ∈ s.held p) {n : ℕ} (h2 : s.unpinned = n)
    (h1 : s.installed = n + 1) (hn : n < s.lh.length) (hb : s.blockno i = s.lh.getD n 0) :
    Inv D { bunpin s i with unpinned := n + 1 } := by
  have hdev := h.used p i (refs_pos_of_held hi)
  refine ⟨h.cycle, h.devs, h.unique, fun j => ?_, h.used, h.locked, h.nodup, h.once, h.asked,
    h.home, h.valid, h.dirty, h.data, h.disk, fun c hc => ?_, h.lhNodup, h.lhHome, h.fits, ?_⟩
  · have hcount := h.count j
    by_cases hji : j = i
    · subst hji
      have hpin : Pinned D s j := ⟨hdev, by rw [h2, mem_drop_iff hn]; exact Or.inl hb⟩
      have hnot : ¬Pinned D { Bio.bunpin s j with unpinned := n + 1 } j := fun hp =>
        notMem_drop_succ h.lhNodup hn (hb ▸ hp.2)
      rw [if_pos hpin] at hcount
      rw [if_neg hnot]
      change Function.update s.refcnt j (s.refcnt j - 1) j = ∑ q, refs s q j
      rw [Function.update_self, hcount]
      rfl
    · have hiff : Pinned D { Bio.bunpin s i with unpinned := n + 1 } j ↔ Pinned D s j := by
        unfold Pinned
        rw [h2, mem_drop_iff hn]
        refine ⟨fun hp => ⟨hp.1, Or.inr hp.2⟩, fun hp => ⟨hp.1, hp.2.resolve_left fun he => ?_⟩⟩
        exact hji (h.unique j i hp.1 hdev (he.trans hb.symm))
      simp only [hiff]
      change Function.update s.refcnt i (s.refcnt i - 1) j = _
      rw [Function.update_of_ne hji, hcount]
      rfl
  · refine h.pinned c ?_
    rw [h2, mem_drop_iff hn]
    exact Or.inr hc
  · exact h1.ge

lemma Inv.clear (h : Inv D s) (h1 : s.installed = s.lh.length) (h2 : s.unpinned = s.lh.length) :
    Inv D { s with lh := [], installed := 0, unpinned := 0 } := by
  refine ⟨h.cycle, h.devs, h.unique, fun j => ?_, h.used, h.locked, h.nodup, h.once, h.asked,
    h.home, h.valid, h.dirty, h.data, fun c hc _ => ?_, by simp, List.nodup_nil, by simp,
    Nat.zero_le _, le_rfl⟩
  · have hcount := h.count j
    rw [if_neg (by simp [Pinned, h2])] at hcount
    rw [if_neg (by simp [Pinned])]
    exact hcount
  · exact h.disk c hc (by simp [h1])

/-- A process takes up another job. -/
lemma Inv.setJob (h : Inv D s) (x : Job)
    (hfree : x.free = true → (s.job p).free = true ∨ ∀ i, refs s p i = 0)
    (hidle : x = .idle → s.held p = []) :
    Inv D { s with job := Function.update s.job p x } := by
  refine ⟨h.cycle, h.devs, h.unique, h.count, h.used, h.locked, h.nodup, h.once, h.asked,
    fun q j hf hq => ?_, h.valid, fun j hj => ?_, h.data, h.disk, h.pinned, h.lhNodup, h.lhHome,
    h.fits, h.order⟩
  · by_cases hqp : q = p
    · subst hqp
      simp only [Function.update_self] at hf
      rcases hfree hf with hfs | hz
      · exact h.home q j hfs hq
      · change 0 < refs s q j at hq
        rw [hz j] at hq
        omega
    · simp only [Function.update_of_ne hqp] at hf
      exact h.home q j hf hq
  · obtain ⟨q, hq, hjob⟩ := h.dirty j hj
    refine ⟨q, hq, ?_⟩
    by_cases hqp : q = p
    · subst hqp
      simp only [Function.update_self]
      intro he
      rw [hidle he] at hq
      simp at hq
    · simpa only [Function.update_of_ne hqp] using hjob

lemma Inv.goto (h : Inv D s) (c : Pc) : Inv D (goto s p c) :=
  h.setJob (.commit c) (fun hf => by simp [Job.free] at hf) (fun hi => by cases hi)

end Xv6.Bio
