import Xv6.StoreFault

/-!
Kernel writes to user memory: `copyout` against the other processes and against read-only pages.

`copyout` looks pages up with `walkaddr`, which asks for `PTE_U` and not for `PTE_W`, and ignores
what `custom_cow` returns. So it writes into read-only pages, which a fork shares without marking
them, and into shared copy-on-write pages when no page is free for the copy. It keeps to the
memory of its own process exactly when it meets neither.
-/

namespace Xv6.Isolation

open Xv6.ByteMem Xv6.Riscv Xv6.Kalloc Xv6.Vm Xv6.Wp Xv6.PageTable Xv6.Walk Xv6.Unmap
open Xv6.AddrSpace Xv6.Grow Xv6.Cow Xv6.Copyout Xv6.Share Xv6.Process Xv6.Invariant Xv6.View
open Xv6.Ops Xv6.Fork Xv6.Exec Xv6.Kernel Xv6.Steps Xv6.Reach Xv6.RefCount Xv6.StoreFault

/-- `copyout` keeps to the memory of process `i`: no byte of a page that another process maps
changes, nor one of a page that `i` maps neither writable nor copy-on-write; and when it returns `0`
the bytes of `src` are in place and the rest of the memory of `i` is as before. -/
structure Isolated (t : Kern) (i : Fin NPROC) (dstva : ℕ) (src : List Byte) (r : ℤ)
    (t' : Kern) : Prop where
  others : ∀ j, j ≠ i → Live (t.proc j) → ∀ v, has ((tabOf t j).leaf v) PTE_V = true →
    (tabOf t' j).leaf v = (tabOf t j).leaf v ∧ ∀ k < PGSIZE,
      t'.k.mem (PTE2PA ((tabOf t j).leaf v) + k) = t.k.mem (PTE2PA ((tabOf t j).leaf v) + k)
  readonly : ∀ v, has ((tabOf t i).leaf v) PTE_V = true → has ((tabOf t i).leaf v) PTE_W = false →
    has ((tabOf t i).leaf v) PTE_COW = false → ∀ k < PGSIZE,
      t'.k.mem (PTE2PA ((tabOf t i).leaf v) + k) = t.k.mem (PTE2PA ((tabOf t i).leaf v) + k)
  copied : r = 0 →
    (∀ va, dstva ≤ va → va < dstva + src.length → va / PGSIZE < pgs (t.proc i).sz) ∧
    ∀ va, va / PGSIZE < pgs (t.proc i).sz → rd (tabOf t' i).leaf t'.k.mem va =
      if dstva ≤ va ∧ va < dstva + src.length then src.getD (va - dstva) 0
      else rd (tabOf t i).leaf t.k.mem va

/-- Another process maps the page. -/
def SharedPage (t : Kern) (i : Fin NPROC) (q : ℕ) : Prop :=
  ∃ j, j ≠ i ∧ Live (t.proc j) ∧ ∃ v, Maps ((tabOf t j).leaf v) q

open Classical in
/-- The pages that `copyout` reaches. -/
noncomputable def reached (t : Kern) (i : Fin NPROC) (dstva : ℕ) (src : List Byte) : List Visit :=
  visits (tabOf t i).leaf (SharedPage t i) (src.length + 1) t.k.freelist.length dstva src

/-- Every page that `copyout` reaches is writable, or copy-on-write with a page left for the copy or
nobody else to see it, or has the bytes already. -/
def Safe (t : Kern) (i : Fin NPROC) (dstva : ℕ) (src : List Byte) : Prop :=
  ∀ w ∈ reached t i dstva src,
    has ((tabOf t i).leaf w.vpn) PTE_W = true ∨
    (has ((tabOf t i).leaf w.vpn) PTE_COW = true ∧
      (0 < w.free ∨ ¬ SharedPage t i (PTE2PA ((tabOf t i).leaf w.vpn)))) ∨
    ∀ k < w.chunk.length,
      t.k.mem (PTE2PA ((tabOf t i).leaf w.vpn) + w.off + k) = w.chunk.getD k 0

variable {L : Layout} {t : Kern} {T : Fin NPROC → PTab} {i j : Fin NPROC} {v q : ℕ}

/-! ### Shared pages -/

lemma visits_shared {f : ℕ → Word} {P Q : ℕ → Prop} [DecidablePred P] [DecidablePred Q]
    (h : ∀ v, UserOk (f v) → (P (PTE2PA (f v)) ↔ Q (PTE2PA (f v)))) (k : ℕ) :
    ∀ {free dstva : ℕ} {src : List Byte},
      visits f P k free dstva src = visits f Q k free dstva src := by
  induction k with
  | zero => intro free dstva src; rfl
  | succ k ih =>
    intro free dstva src
    unfold visits
    dsimp only
    by_cases hc : src.length = 0 ∨ ¬ (PGROUNDDOWN dstva < MAXVA ∧ UserOk (f (dstva / PGSIZE)))
    · rw [if_pos hc, if_pos hc]
    · rw [if_neg hc, if_neg hc, ih]
      rw [not_or, not_not] at hc
      simp only [h _ hc.2.2]

lemma trapframe_pa {f : ℕ → Word} {np tf : ℕ} (h : Space L f np tf) : PTE2PA (f TFV) = tf := by
  rw [h.trapframe, BitVec.or_assoc]
  exact pte2pa_mk h.tf_range.lt h.tf_range.1
    (isFlags_or (isFlags_or isFlags_R isFlags_W) isFlags_V)

lemma trampoline_pa {f : ℕ → Word} {np tf : ℕ} (h : Space L f np tf) :
    PTE2PA (f TRV) = L.trampoline := by
  rw [h.trampoline, BitVec.or_assoc]
  exact pte2pa_mk (trampoline_lt L) L.tramp_aligned
    (isFlags_or (isFlags_or isFlags_R isFlags_X) isFlags_V)

lemma trampoline_outside (L : Layout) : ¬ InRange L L.trampoline := by
  intro hin
  have h1 := hin.2.1
  have h2 := L.tramp_lt
  have h3 := endp_le_lo L
  unfold PGSIZE at h2
  omega

lemma page_cases (h : Inv L t T) (hj : Live (t.proc j)) (hV : has ((T j).leaf v) PTE_V = true) :
    held (T j) (t.proc j) (PTE2PA ((T j).leaf v)) ≠ 0 ∨ PTE2PA ((T j).leaf v) = L.trampoline := by
  have hs := h.slot j hj
  rcases (hs.space.valid_iff v).mp hV with h1 | rfl | rfl
  · exact Or.inl (hs.held_leaf hj h1)
  · left
    rw [trapframe_pa hs.space]
    exact held_trapframe hj
  · exact Or.inr (trampoline_pa hs.space)

/-- A user page of `i` is referenced by others exactly when another process maps it. -/
lemma shared_iff (h : Inv L t T) (hi : Live (t.proc i)) (hv : v < pgs (t.proc i).sz) :
    (rest T t i + ref (t.proc i).trapframe) (PTE2PA ((T i).leaf v)) ≠ 0 ↔
      SharedPage t i (PTE2PA ((T i).leaf v)) := by
  have hs := h.slot i hi
  have hone := Space.leaves_user hs.space hv
  have htot : ∀ q, total T t q = held (T i) (t.proc i) q + rest T t i q := total_eq T t i
  set q := PTE2PA ((T i).leaf v) with hq
  have hheld : held (T i) (t.proc i) q ≠ 0 := hs.held_leaf hi hv
  constructor
  · intro hne
    -- the page is not the trapframe of `i`, so that the others hold it
    have hrest : rest T t i q ≠ 0 := by
      have h1 := (h.single i hi).trapframe
      rw [Pi.add_apply] at hne
      by_cases hqt : q = (t.proc i).trapframe
      · rw [← hqt, htot, held_live hi] at h1
        simp only [Pi.add_apply, hone] at h1
        rw [← hqt, ref_self] at h1
        omega
      · rw [ref_ne hqt] at hne
        omega
    have hown : t.own.count q = 0 := by
      by_contra hc
      have hmem : q ∈ t.own := List.count_pos_iff.mp (by omega)
      have h1 := h.own_one q hmem
      have h2 := own_le_rest T t i hmem
      rw [htot] at h1
      omega
    obtain ⟨j, hj, hjq⟩ : ∃ j ∈ Finset.univ.erase i, held (T j) (t.proc j) q ≠ 0 := by
      by_contra hno
      simp only [not_exists, not_and, not_not] at hno
      apply hrest
      unfold rest
      rw [Finset.sum_eq_zero hno, hown]
    have hji := (Finset.mem_erase.mp hj).1
    have hlive : Live (t.proc j) := by
      by_contra hc
      rw [held_idle hc] at hjq
      exact hjq rfl
    have htwo : total T t q ≠ 1 := by
      have h1 := held_le_rest T t hji q
      rw [htot]
      omega
    -- a table or a trapframe has one owner
    have hleaf : leaves (T j).leaf q ≠ 0 := by
      intro hz
      rw [held_live hlive] at hjq
      simp only [Pi.add_apply, hz] at hjq
      by_cases htab : IsTab (T j) q
      · exact htwo ((h.single j hlive).tab q htab)
      · have h1 : tabs (T j) q = 0 := by
          by_contra hc
          exact htab (isTab_iff.mp hc)
        by_cases hqt : q = (t.proc j).trapframe
        · exact htwo (by rw [hqt]; exact (h.single j hlive).trapframe)
        · rw [h1, ref_ne hqt] at hjq
          omega
    obtain ⟨w, -, hw⟩ := leaves_ne_zero.mp hleaf
    refine ⟨j, hji, hlive, w, ?_⟩
    rw [Inv.tabOf h hlive]
    exact hw
  · rintro ⟨j, hji, hlive, w, hw⟩
    rw [Inv.tabOf h hlive] at hw
    have h1 := held_le_rest T t hji q
    rcases page_cases h hlive hw.1 with h2 | h2
    · rw [hw.2] at h2
      rw [Pi.add_apply]
      omega
    · rw [hw.2] at h2
      have h3 := (hs.space.user v hv).range
      rw [← hq, h2] at h3
      exact absurd h3 (trampoline_outside L)

lemma reached_eq (h : Inv L t T) (hi : Live (t.proc i)) (dstva : ℕ) (src : List Byte) :
    reached t i dstva src = visits (T i).leaf
      (fun q => (rest T t i + ref (t.proc i).trapframe) q ≠ 0) (src.length + 1)
      t.k.freelist.length dstva src := by
  classical
  unfold reached
  rw [Inv.tabOf h hi]
  refine visits_shared (fun v hok => ?_) _
  exact (shared_iff h hi (Space.lt_np (h.slot i hi).space hok.1 (Or.inl hok.2))).symm

/-! ### When `copyout` keeps to its process -/

lemma Copied.byte {root np tf m : ℕ} {R : ℕ → ℕ} {A A' : PTab} {s s' : KState} {ws : List Visit}
    {dstva x : ℕ} {src : List Byte} (h : Copied L root R np tf A s ws dstva src m A' s')
    (hx : Stays R A.leaf np (PGROUNDDOWN x)) :
    s'.mem x = s.mem x ∨ ∃ w ∈ ws, InPlace A.leaf w ∧ PGROUNDDOWN x = PTE2PA (A.leaf w.vpn) ∧
      ∃ k < w.chunk.length, x = PTE2PA (A.leaf w.vpn) + w.off + k ∧
        s'.mem x = w.chunk.getD k 0 := by
  by_cases hw : ∃ w ∈ ws, InPlace A.leaf w ∧ PGROUNDDOWN x = PTE2PA (A.leaf w.vpn) ∧
      PTE2PA (A.leaf w.vpn) + w.off ≤ x ∧ x < PTE2PA (A.leaf w.vpn) + w.off + w.chunk.length
  · obtain ⟨w, hw, hin, hpg, hlo, hhi⟩ := hw
    obtain ⟨k, rfl⟩ := Nat.exists_eq_add_of_le hlo
    exact Or.inr ⟨w, hw, hin, hpg, k, by omega, rfl,
      h.wrote w hw hin (by rw [← hpg]; exact hx) k (by omega)⟩
  · refine Or.inl (h.kept x hx fun w hw' hin hpg hr => hw ⟨w, hw', hin, hpg, hr⟩)

lemma isolated_of_safe {m dstva : ℕ} {src : List Byte} {r : ℤ} {k : KState} {A : PTab}
    (h : Inv L t T) (hi : Live (t.proc i))
    (hc : Copied L (t.proc i).pagetable (rest T t i + ref (t.proc i).trapframe)
      (pgs (t.proc i).sz) (t.proc i).trapframe (T i) t.k (reached t i dstva src) dstva src m A k)
    (hr : r = 0 ∧ m = src.length ∨ r = -1 ∧ m < src.length)
    (h' : Inv L { t with k := k } (Function.update T i A)) (hsafe : Safe t i dstva src) :
    Isolated t i dstva src r { t with k := k } := by
  have hs := h.slot i hi
  have hti := Inv.tabOf h hi
  have hal : ∀ {q : ℕ}, InRange L q → ∀ n < PGSIZE, PGROUNDDOWN (q + n) = q := fun hq n hn =>
    (rounddown_eq hq.1).mpr ⟨by omega, by omega⟩
  -- bytes of the trampoline are never touched
  have htramp : ∀ n < PGSIZE, k.mem (L.trampoline + n) = t.k.mem (L.trampoline + n) := by
    intro n hn
    refine hc.outside _ ?_
    have h1 : PGROUNDDOWN (L.trampoline + n) = L.trampoline :=
      (rounddown_eq L.tramp_aligned).mpr ⟨by omega, by omega⟩
    rw [h1, outside, if_neg (trampoline_outside L)]
    omega
  -- what is written in place is a page of `i`, with the bytes it had or for nobody else
  have hplace : ∀ w ∈ reached t i dstva src, InPlace (T i).leaf w →
      SharedPage t i (PTE2PA ((T i).leaf w.vpn)) ∨
        (has ((T i).leaf w.vpn) PTE_W = false ∧ has ((T i).leaf w.vpn) PTE_COW = false) →
      ∀ n < w.chunk.length,
        t.k.mem (PTE2PA ((T i).leaf w.vpn) + w.off + n) = w.chunk.getD n 0 := by
    intro w hw hin hcase
    have hlt : w.vpn < pgs (t.proc i).sz := by
      rw [reached_eq h hi] at hw
      exact Inv.visit_held h hi hw
    have h1 := hsafe w hw
    rw [hti] at h1
    rcases h1 with h1 | ⟨h1, h2 | h2⟩ | h1
    · rcases hcase with h3 | h3
      · rw [← shared_iff h hi hlt] at h3
        exact absurd (h.priv hi _ hlt h1) h3
      · rw [h3.1] at h1
        cases h1
    · exact absurd ⟨h1, h2⟩ hin
    · rcases hcase with h3 | h3
      · exact absurd h3 h2
      · rw [h3.2] at h1
        cases h1
    · exact h1
  refine ⟨fun j hji hj v hV => ?_, fun v hV hW hC n hn => ?_, fun h0 => ?_⟩
  · have htj := Inv.tabOf h hj
    have htj' : tabOf { t with k := k } j = T j := by
      rw [Inv.tabOf h' hj, Function.update_of_ne hji]
    rw [htj] at hV
    rw [htj, htj']
    refine ⟨rfl, fun n hn => ?_⟩
    rcases page_cases h hj hV with h1 | h1
    · have hrest := held_le_rest T t hji (PTE2PA ((T j).leaf v))
      have hrange : InRange L (PTE2PA ((T j).leaf v)) := by
        refine h.acct.range _ ?_
        rw [total_eq T t j]
        omega
      have hpg := hal hrange n hn
      rcases Copied.byte hc (x := PTE2PA ((T j).leaf v) + n)
        (by rw [hpg]; exact Or.inl (by rw [Pi.add_apply]; omega)) with h2 | ⟨w, hw, hin, hp, l, hl,
          hx, hb⟩
      · exact h2
      · dsimp only
        rw [hb, hx]
        refine (hplace w hw hin (Or.inl ⟨j, hji, hj, v, ?_⟩) l hl).symm
        rw [htj, ← hp, hpg]
        exact ⟨hV, rfl⟩
    · rw [h1]
      exact htramp n hn
  · rw [hti] at hV hW hC ⊢
    rcases (hs.space.valid_iff v).mp hV with h1 | rfl | rfl
    · have hrange := (hs.space.user v h1).range
      have hpg := hal hrange n hn
      rcases Copied.byte hc (x := PTE2PA ((T i).leaf v) + n)
        (by rw [hpg]; exact Or.inr ⟨v, h1, hC, rfl⟩) with h2 | ⟨w, hw, hin, hp, l, hl, hx, hb⟩
      · exact h2
      · have hwv : w.vpn = v := by
          rw [hpg] at hp
          have hlt : w.vpn < pgs (t.proc i).sz := by
            rw [reached_eq h hi] at hw
            exact Inv.visit_held h hi hw
          exact (hs.space.inj v h1 _ hlt hp).symm
        dsimp only
        rw [hb, hx]
        exact (hplace w hw hin (Or.inr (by rw [hwv]; exact ⟨hW, hC⟩)) l hl).symm
    · rw [has_W, Space.trapframe_bit hs.space (by omega)] at hW
      exact absurd hW (by decide)
    · rw [trampoline_pa hs.space]
      exact htramp n hn
  · have hm : m = src.length := by omega
    have hti' : tabOf { t with k := k } i = A := by
      rw [Inv.tabOf h' hi, Function.update_self]
    rw [hti, hti', ← hm]
    exact ⟨hc.within, hc.rd⟩

lemma safe_of_isolated {m dstva : ℕ} {src : List Byte} {r : ℤ} {k : KState} {A : PTab}
    (h : Inv L t T) (hi : Live (t.proc i))
    (hc : Copied L (t.proc i).pagetable (rest T t i + ref (t.proc i).trapframe)
      (pgs (t.proc i).sz) (t.proc i).trapframe (T i) t.k (reached t i dstva src) dstva src m A k)
    (hiso : Isolated t i dstva src r { t with k := k }) : Safe t i dstva src := by
  have hs := h.slot i hi
  have hti := Inv.tabOf h hi
  intro w hw
  have hvis := hw
  rw [reached_eq h hi] at hvis
  have hlt := Inv.visit_held h hi hvis
  obtain ⟨-, -, hok, hoff⟩ := visits_spec _ w hvis
  rw [hti]
  by_cases hW : has ((T i).leaf w.vpn) PTE_W = true
  · exact Or.inl hW
  rw [Bool.not_eq_true] at hW
  by_cases hcow : has ((T i).leaf w.vpn) PTE_COW = true
  · by_cases hfree : 0 < w.free
    · exact Or.inr (Or.inl ⟨hcow, Or.inl hfree⟩)
    · by_cases hsh : SharedPage t i (PTE2PA ((T i).leaf w.vpn))
      · -- the other process sees what was written
        refine Or.inr (Or.inr fun n hn => ?_)
        have hwrote := hc.wrote w hw (fun hcc => hfree hcc.2)
          (Or.inl ((shared_iff h hi hlt).mpr hsh)) n hn
        obtain ⟨j, hji, hj, v, hV, hpa⟩ := hsh
        have h1 := (hiso.others j hji hj v hV).2 (w.off + n) (by omega)
        rw [hpa, ← Nat.add_assoc] at h1
        exact h1.symm.trans hwrote
      · exact Or.inr (Or.inl ⟨hcow, Or.inr hsh⟩)
  · rw [Bool.not_eq_true] at hcow
    refine Or.inr (Or.inr fun n hn => ?_)
    have hwrote := hc.wrote w hw (fun hcc => by rw [hcow] at hcc; cases hcc.1)
      (Or.inr ⟨w.vpn, hlt, hcow, rfl⟩) n hn
    have h1 := hiso.readonly w.vpn (by rw [hti]; exact hok.1) (by rw [hti]; exact hW)
      (by rw [hti]; exact hcow) (w.off + n) (by omega)
    rw [hti, ← Nat.add_assoc] at h1
    exact h1.symm.trans hwrote

lemma copyout_isolated_iff (h : Inv L t T) (hi : Live (t.proc i)) (dstva : ℕ) (src : List Byte) :
    wp (vm (copyout (t.proc i).pagetable dstva src)) (Isolated t i dstva src) (fun _ => False) t ↔
      Safe t i dstva src := by
  have hspec : wp (copyout (t.proc i).pagetable dstva src) _ (fun _ => False) t.k :=
    copyout_spec (h.as hi) (h.priv hi)
  obtain ⟨r, k, hrun, A, m, hc, hr, -⟩ := wp_returns hspec
  have h' := Inv.copied h hi hc
  rw [wp_vm, wp_of_run hrun]
  rw [← reached_eq h hi] at hc
  exact ⟨safe_of_isolated h hi hc, isolated_of_safe h hi hc hr h'⟩

/-- **When kernel writes respect isolation**: in every reachable state, for every live process,
destination and source, `copyout` keeps to the memory of the process and to its writable pages iff
every page it reaches is writable, or copy-on-write with a page left for the copy or mapped by
nobody else, or holds the bytes already. -/
theorem copyout_isolated_iff_safe (L : Layout) (m : Mem) (ops : List Op) :
    wp (system L ops) (fun _ t => ∀ i, Live (t.proc i) → ∀ dstva src,
      (wp (vm (copyout (t.proc i).pagetable dstva src)) (Isolated t i dstva src)
        (fun _ => False) t ↔ Safe t i dstva src)) Reachable (powerOn m) := by
  refine wp_post (system_spec L m ops) ?_
  rintro _ t ⟨T, h⟩ i hi dstva src
  exact copyout_isolated_iff h hi dstva src

/-! ### Memory runs out -/

/-- The slot of the first process. -/
def initSlot : Fin NPROC := ⟨0, NPROC_pos⟩

/-- The first process forks, takes memory page by page until there are three pages at most, and the
kernel takes these, for the buffers of pipes say. -/
def crowdedOps : List Op :=
  .fork initSlot :: (List.replicate 32768 (.growproc initSlot 4096#32) ++
    [.own_alloc, .own_alloc, .own_alloc])

/-- Process `0` may run and has the entry `e` for its first page, process `np` has `e'`. -/
structure Twins (L : Layout) (np : Fin NPROC) (e e' : Word) (T : Fin NPROC → PTab) (t : Kern) :
    Prop where
  inv : Inv L t T
  run : (t.proc initSlot).state = .RUNNABLE
  aligned : (t.proc initSlot).sz % PGSIZE = 0
  pos : 0 < pgs (t.proc initSlot).sz
  ne : np ≠ initSlot
  live : Live (t.proc np)
  parent : (T initSlot).leaf 0 = e
  child : (T np).leaf 0 = e'

variable {np : Fin NPROC} {e e' : Word} {E : Panic → Prop}

lemma growproc_page (h : Inv L t T) (hi : Live (t.proc i)) (hal : (t.proc i).sz % PGSIZE = 0) :
    wp (growproc i 4096) (fun _ t' => t'.k.freelist.length ≤ t.k.freelist.length ∧
      (4 ≤ t.k.freelist.length → t'.k.freelist.length < t.k.freelist.length)) E t := by
  have hs := h.slot i hi
  have hle := hs.le
  have hsz : (t.proc i).sz = pgs (t.proc i).sz * PGSIZE := by
    rw [pgs_eq (by unfold PGSIZE; omega)]
    unfold PGSIZE at *
    omega
  have hnew : u64 ((t.proc i).sz + intU64 4096) = pgs (t.proc i).sz * PGSIZE + PGSIZE := by
    rw [← hsz]
    unfold u64 intU64 PGSIZE
    omega
  unfold growproc
  rw [wp_bind, wp_get]
  dsimp only
  rw [if_pos (by norm_num), wp_bind, wp_vm, hnew]
  have hpage : wp (uvmalloc (t.proc i).pagetable (t.proc i).sz
      (pgs (t.proc i).sz * PGSIZE + PGSIZE) PTE_W) (fun _ s' =>
      s'.freelist.length ≤ t.k.freelist.length ∧
        (4 ≤ t.k.freelist.length → s'.freelist.length < t.k.freelist.length)) E t.k := by
    have h1 := uvmalloc_page (E := E) (h.as hi)
    rw [← hsz] at h1 ⊢
    exact h1 PTE_W
  refine wp_post hpage fun r s1 h1 => ?_
  split_ifs
  · exact h1
  · exact h1

/-- The process takes one more page. -/
lemma Twins.grow (h : Twins L np e e' T t) :
    wp (step L (.growproc initSlot 4096#32)) (fun _ t' => ∃ T', Twins L np e e' T' t' ∧
      t'.k.freelist.length ≤ t.k.freelist.length ∧
      (4 ≤ t.k.freelist.length → t'.k.freelist.length < t.k.freelist.length)) E t := by
  have hi := Inv.live h.inv (i := initSlot) (by rw [h.run]; simp)
  have hle := (h.inv.slot initSlot hi).le
  have hint : (4096#32).toInt = 4096 := by decide
  unfold Kernel.step running
  rw [wp_bind, wp_get, if_pos h.run, wp_bind, hint]
  have hspec := growproc_spec (E := fun _ => False) (n := 4096) h.inv hi (by norm_num)
    (by norm_num)
  have hboth := wp_and hspec (growproc_page (E := E) h.inv hi h.aligned)
  refine wp_mono hboth ?_ fun _ he => he.1.elim
  rintro r t1 ⟨⟨A, h1, hres, hproc, hleaf⟩, hlen⟩
  rw [wp_pure]
  have hself : t1.proc initSlot = { t.proc initSlot with
      sz := if r = 0 then newSize (t.proc initSlot).sz 4096 else (t.proc initSlot).sz } := by
    rw [hproc, Function.update_self]
  have hnew : newSize (t.proc initSlot).sz 4096 = (t.proc initSlot).sz + 4096 := by
    unfold newSize
    rw [if_neg (by omega)]
    omega
  have hsz : (t1.proc initSlot).sz % PGSIZE = 0 ∧ 0 < pgs (t1.proc initSlot).sz := by
    have hal := h.aligned
    have hpos := h.pos
    rw [hself, hnew]
    rw [pgs_eq (by unfold PGSIZE; omega)] at hpos
    split_ifs
    · rw [pgs_eq (by unfold PGSIZE; dsimp only; omega)]
      unfold PGSIZE at *
      exact ⟨by dsimp only; omega, by dsimp only; omega⟩
    · rw [pgs_eq (by unfold PGSIZE; dsimp only; omega)]
      exact ⟨hal, hpos⟩
  refine ⟨_, ⟨h1, ?_, hsz.1, hsz.2, h.ne, ?_, ?_, ?_⟩, hlen⟩
  · rw [hself]; exact h.run
  · rw [hproc, Function.update_of_ne h.ne]; exact h.live
  · rw [Function.update_self, hleaf 0 h.pos hsz.2]; exact h.parent
  · rw [Function.update_of_ne h.ne]; exact h.child

lemma Twins.exhaust {Q : PUnit → Kern → Prop} {ops : List Op} (n : ℕ) :
    ∀ {t : Kern} {T : Fin NPROC → PTab}, Twins L np e e' T t → t.k.freelist.length ≤ n + 3 →
    (∀ T' t', Twins L np e e' T' t' → t'.k.freelist.length ≤ 3 → wp (Kernel.run L ops) Q E t') →
    wp (Kernel.run L (List.replicate n (.growproc initSlot 4096#32) ++ ops)) Q E t := by
  induction n with
  | zero => intro t T h hlen hops; exact hops T t h (by omega)
  | succ n ih =>
    intro t T h hlen hops
    rw [List.replicate_succ, List.cons_append, Kernel.run, wp_bind]
    refine wp_post h.grow ?_
    rintro _ t1 ⟨T1, h1, hle, hlt⟩
    exact ih h1 (by omega) hops

lemma Twins.own_alloc (h : Twins L np e e' T t) :
    wp own_alloc (fun _ t' => Twins L np e e' T t' ∧
      t'.k.freelist.length = t.k.freelist.length - 1) E t := by
  refine wp_post (own_alloc_spec h.inv) ?_
  rintro _ t1 ⟨h1, hlen⟩
  exact ⟨⟨h1.inv, by rw [h1.proc]; exact h.run, by rw [h1.proc]; exact h.aligned,
    by rw [h1.proc]; exact h.pos, h.ne, by rw [h1.proc]; exact h.live, h.parent, h.child⟩, hlen⟩

lemma freelist_length_le (h : Inv L t T) : t.k.freelist.length ≤ 32768 := by
  have hin : ∀ p ∈ t.k.freelist, p % PGSIZE = 0 ∧ KERNBASE ≤ p ∧ p < PHYSTOP := by
    intro p hp
    have h1 := ((h.acct.mem_free p).mp hp).1
    have h2 := L.tramp_ge
    have h3 := L.tramp_lt
    have h4 := endp_le_lo L
    exact ⟨h1.1, by have := h1.2.1; omega, h1.2.2⟩
  have hnd : (t.k.freelist.map fun p => (p - KERNBASE) / PGSIZE).Nodup := by
    refine List.Nodup.map_on (fun p hp q hq hpq => ?_) h.acct.nodup
    have h1 := hin p hp
    have h2 := hin q hq
    unfold KERNBASE PGSIZE at *
    omega
  have hsub : (t.k.freelist.map fun p => (p - KERNBASE) / PGSIZE) ⊆ List.range 32768 := by
    intro n hn
    obtain ⟨p, hp, rfl⟩ := List.mem_map.mp hn
    have h1 := hin p hp
    rw [List.mem_range]
    unfold PHYSTOP KERNBASE PGSIZE at *
    omega
  have hle := (List.subperm_of_subset hnd hsub).length_le
  simpa using hle

/-- Two entries for one page, the first of them copy-on-write and the user's. -/
structure Shares (e e' : Word) : Prop where
  user : UserOk e
  cow : has e PTE_COW = true
  readonly : has e PTE_W = false
  valid : has e' PTE_V = true
  page : PTE2PA e' = PTE2PA e

lemma shares_first {p : ℕ} (hp : InRange L p) :
    Shares (parentEntry (newEntry p firstPerm)) (childEntry (newEntry p firstPerm)) := by
  have he := newEntry_user hp perm_first
  have hbit : ∀ k < 10, (parentEntry (newEntry p firstPerm)).getLsbD k =
      ((((PTE_R ||| PTE_U ||| firstPerm) ||| PTE_V).getLsbD k && decide (k ≠ 2)) ||
        (((PTE_R ||| PTE_U ||| firstPerm) ||| PTE_V).getLsbD 2 && decide (k = 5))) := by
    intro k hk
    rw [parentEntry_bit he hk, shareFlags_bit _ hk, newEntry_bit hp hk, newEntry_bit hp (by omega)]
  obtain ⟨hu, hro⟩ := parentEntry_user he
  refine ⟨⟨hu.valid, ?_⟩, ?_, hro, (childEntry_user he).1.valid, ?_⟩
  · rw [has_U, hbit 4 (by omega)]; decide
  · rw [has_COW, hbit 5 (by omega)]; decide
  · rw [childEntry_pa he, parentEntry_pa he]

/-- With no page free, a kernel write through the shared entry is not safe. -/
lemma Twins.not_safe (h : Twins L np e e' T t) (hsh : Shares e e') (hf : t.k.freelist = [])
    {b : Byte} (hb : b ≠ rd (tabOf t initSlot).leaf t.k.mem 0) : ¬ Safe t initSlot 0 [b] := by
  classical
  have hi := Inv.live h.inv (i := initSlot) (by rw [h.run]; simp)
  have hleaf : (tabOf t initSlot).leaf 0 = e := by rw [Inv.tabOf h.inv hi]; exact h.parent
  have hother : SharedPage t initSlot (PTE2PA e) := by
    refine ⟨np, h.ne, h.live, 0, ?_⟩
    rw [Inv.tabOf h.inv h.live, h.child]
    exact ⟨hsh.valid, hsh.page⟩
  have hmem : (⟨0, 0, [b], 0⟩ : Visit) ∈ reached t initSlot 0 [b] := by
    have hzero : 0 / PGSIZE = 0 ∧ PGROUNDDOWN 0 = 0 := by
      refine ⟨Nat.zero_div _, ?_⟩
      unfold PGROUNDDOWN
      rw [Nat.zero_div, Nat.zero_mul]
    have hmin : min (PGSIZE - (0 - 0)) [b].length = 1 := by
      rw [List.length_singleton]
      unfold PGSIZE
      omega
    unfold reached visits
    dsimp only
    rw [hzero.1, hzero.2, hleaf, if_neg, hf, hmin]
    · exact List.mem_cons_self
    · rw [not_or, not_not]
      exact ⟨by simp, by unfold MAXVA; norm_num, hsh.user⟩
  intro hs
  rcases hs _ hmem with h1 | ⟨-, h1 | h1⟩ | h1
  · dsimp only at h1
    rw [hleaf, hsh.readonly] at h1
    cases h1
  · exact absurd h1 (Nat.lt_irrefl 0)
  · dsimp only at h1
    rw [hleaf] at h1
    exact h1 hother
  · apply hb
    have h2 := h1 0 (by simp)
    unfold rd
    rw [Nat.zero_div, Nat.zero_mod]
    dsimp only [Nat.add_zero] at h2 ⊢
    exact h2.symm

lemma Booted.freeSlot (h : Booted L T initSlot t) : Process.freeSlot t ≠ none := by
  intro hnone
  have hone : (⟨1, by unfold NPROC; norm_num⟩ : Fin NPROC) ≠ initSlot := by
    unfold initSlot
    simp
  have h1 := h.inv.idle _ (h.only _ hone)
  have h2 := List.find?_eq_none.mp hnone ⟨1, by unfold NPROC; norm_num⟩ (List.mem_finRange _)
  rw [h1] at h2
  exact absurd (decide_eq_true rfl) h2

lemma Booted.fork (h : Booted L T i t) (hlen : 9 ≤ t.k.freelist.length) :
    wp (step L (.fork initSlot)) (fun _ t' => ∃ T' np e e', Twins L np e e' T' t' ∧ Shares e e')
      E t := by
  have hslot : i = initSlot := Fin.ext h.slot
  subst hslot
  have hi := Inv.live h.inv (i := initSlot) (by rw [h.state]; simp)
  have hpgs : pgs (t.proc initSlot).sz = 1 := by rw [h.sz, pgs_pgsize]
  unfold Kernel.step running
  rw [wp_bind, wp_get, if_pos h.state, wp_bind]
  refine wp_post (fork_spec h.inv hi) ?_
  rintro _ t1 ⟨T1, h1, ⟨-, -, -, hlow | hnone⟩ | ⟨np, -, -, hne, hnp, -, hproc, -, -, -, -, hleaf⟩⟩
  · omega
  · exact absurd hnone (Booted.freeSlot h)
  · obtain ⟨p, hp, h0⟩ := h.leaf
    obtain ⟨hpar, hchild⟩ := hleaf 0 (by omega)
    rw [wp_pure]
    refine ⟨T1, np, _, _, ⟨h1, by rw [hproc]; exact h.state, ?_, ?_, hne, hnp, hpar, hchild⟩, ?_⟩
    · rw [hproc, h.sz, Nat.mod_self]
    · rw [hproc, hpgs]; omega
    · rw [h0]; exact shares_first hp

/-- The first process forks and memory runs out: the kernel writes what it copies to the first page
of the process into the page of the child. -/
theorem copyout_breaks_isolation :
    wp (system sampleLayout crowdedOps) (fun _ t => (t.proc initSlot).state = .RUNNABLE ∧
      ∀ b, b ≠ rd (tabOf t initSlot).leaf t.k.mem 0 →
        ¬ wp (vm (copyout (t.proc initSlot).pagetable 0 [b])) (Isolated t initSlot 0 [b])
          (fun _ => False) t) (fun _ => False) (powerOn fun _ => 0) := by
  have hroom : PGROUNDUP sampleLayout.endp + (sampleLayout.nkern + 100) * PGSIZE ≤ PHYSTOP := by
    unfold sampleLayout PHYSTOP KERNBASE PGROUNDUP u64 PGSIZE
    norm_num
  unfold system crowdedOps
  rw [wp_bind]
  refine wp_post (boot_spec _ (by omega) hroom) ?_
  rintro _ t ⟨T, i, hb, hlen⟩
  rw [Kernel.run, wp_bind]
  refine wp_post (Booted.fork hb (by omega)) ?_
  rintro _ t1 ⟨T1, np, e, e', htw, hsh⟩
  refine Twins.exhaust _ htw ((freelist_length_le htw.inv).trans (by omega)) ?_
  rintro T2 t2 h2 hle
  rw [Kernel.run, wp_bind]
  refine wp_post h2.own_alloc ?_
  rintro _ t3 ⟨h3, hl3⟩
  rw [Kernel.run, wp_bind]
  refine wp_post h3.own_alloc ?_
  rintro _ t4 ⟨h4, hl4⟩
  rw [Kernel.run, wp_bind]
  refine wp_post h4.own_alloc ?_
  rintro _ t5 ⟨h5, hl5⟩
  refine ⟨h5.run, fun b hb hwp => ?_⟩
  have hi := Inv.live h5.inv (i := initSlot) (by rw [h5.run]; simp)
  exact h5.not_safe hsh (List.length_eq_zero_iff.mp (by omega)) hb
    ((copyout_isolated_iff h5.inv hi 0 [b]).mp hwp)

end Xv6.Isolation
