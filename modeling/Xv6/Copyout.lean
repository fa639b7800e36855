import Xv6.Cow

/-!
What `copyout` does.

`visits` lists the pages the loop reaches, from the entries and the number of free pages before
the call: for each its bytes and how many pages are free when the loop gets there. A visited
page is written in place unless it is copy-on-write and a page is free for the copy; writing in
place does not ask who else maps the page or whether it is writable.
-/

namespace Xv6.Copyout

open Xv6.ByteMem Xv6.Riscv Xv6.Kalloc Xv6.Vm Xv6.Wp Xv6.PageTable Xv6.Walk Xv6.Unmap
open Xv6.AddrSpace Xv6.Grow Xv6.Cow

/-- The byte at a virtual address. -/
def rd (f : ℕ → Word) (m : Mem) (va : ℕ) : Byte := m (PTE2PA (f (va / PGSIZE)) + va % PGSIZE)

structure Visit where
  vpn : ℕ
  off : ℕ
  chunk : List Byte
  free : ℕ

/-- The pages `copyout` reaches; `shared` tells which pages others reference too. -/
def visits (f : ℕ → Word) (shared : ℕ → Prop) [DecidablePred shared] :
    ℕ → ℕ → ℕ → List Byte → List Visit
  | 0, _, _, _ => []
  | k + 1, free, dstva, src =>
    let va0 := PGROUNDDOWN dstva
    let e := f (dstva / PGSIZE)
    if src.length = 0 ∨ ¬ (va0 < MAXVA ∧ UserOk e) then []
    else
      let n := min (PGSIZE - (dstva - va0)) src.length
      ⟨dstva / PGSIZE, dstva - va0, src.take n, free⟩ ::
        visits f shared k (if has e PTE_COW = true ∧ shared (PTE2PA e) then free - 1 else free)
          (va0 + PGSIZE) (src.drop n)

/-- The visited page is written where it is. -/
def InPlace (f : ℕ → Word) (w : Visit) : Prop := ¬ (has (f w.vpn) PTE_COW = true ∧ 0 < w.free)

variable {L : Layout} {root : ℕ} {A : PTab} {s s' : KState} {R U : ℕ → ℕ} {E : Panic → Prop}
  {f g : ℕ → Word} {np tf : ℕ} {v va p : ℕ} {m : Mem} {off : ℕ} {bs : List Byte}

/-! ### Writing into a user page -/

lemma put_other (hp : p % PGSIZE = 0) (hoff : off + bs.length ≤ PGSIZE) {x : ℕ}
    (hx : PGROUNDDOWN x ≠ p) : put m (p + off) bs x = m x := by
  rw [Ne, rounddown_eq hp] at hx
  exact put_out (by omega)

lemma rd_page (hsp : Space L f np tf) (hva : va / PGSIZE < np) :
    PGROUNDDOWN (PTE2PA (f (va / PGSIZE)) + va % PGSIZE) = PTE2PA (f (va / PGSIZE)) := by
  have hmod : va % PGSIZE < PGSIZE := Nat.mod_lt _ (by unfold PGSIZE; omega)
  exact (rounddown_eq (hsp.user _ hva).range.1).mpr ⟨by omega, by omega⟩

lemma put_outside (hp : InRange L p) (hoff : off + bs.length ≤ PGSIZE) :
    Keeps (outside L) s { s with mem := put s.mem (p + off) bs } := by
  intro x hx
  exact put_other hp.1 hoff (by rintro rfl; exact hx (outside_inRange hp))

lemma rd_put (hsp : Space L f np tf) (hv : v < np) (hoff : off + bs.length ≤ PGSIZE)
    (hva : va / PGSIZE < np) :
    rd f (put m (PTE2PA (f v) + off) bs) va =
      if va / PGSIZE = v ∧ off ≤ va % PGSIZE ∧ va % PGSIZE < off + bs.length then
        bs.getD (va % PGSIZE - off) 0
      else rd f m va := by
  unfold rd
  by_cases hvv : va / PGSIZE = v
  · rw [hvv]
    by_cases hin : off ≤ va % PGSIZE ∧ va % PGSIZE < off + bs.length
    · rw [if_pos ⟨rfl, hin⟩, put_in (by omega) (by omega)]
      congr 1
      omega
    · rw [if_neg fun hc => hin hc.2, put_out (by omega)]
  · rw [if_neg fun hc => hvv hc.1]
    refine put_other (hsp.user v hv).range.1 hoff ?_
    rw [rd_page hsp hva]
    exact fun hc => hvv (hsp.inj _ hva _ hv hc)

lemma AS.put (h : AS L s root A R np tf) (hv : v < np) (hoff : off + bs.length ≤ PGSIZE) :
    AS L { s with mem := put s.mem (PTE2PA (A.leaf v) + off) bs } root A R np tf := by
  refine ⟨⟨h.owns.wf, h.owns.rep.congr h.owns.wf fun x hx => ?_, h.owns.acct.of_mem rfl rfl,
    h.owns.excl⟩, h.space⟩
  refine put_other (h.space.user v hv).range.1 hoff fun hc => ?_
  have h1 := h.owns.excl _ hx
  have h2 := Space.leaves_user h.space hv
  rw [hc, Pi.add_apply] at h1
  omega

lemma Resolved.rd (h : Resolved L root R np tf A v p s s') (hsp : Space L A.leaf np tf)
    (hva : va / PGSIZE < np) :
    rd (setLeaf A v (cowEntry p (A.leaf v))).leaf s'.mem va = rd A.leaf s.mem va := by
  have hmod : va % PGSIZE < PGSIZE := Nat.mod_lt _ (by unfold PGSIZE; omega)
  unfold Copyout.rd
  simp only [setLeaf]
  by_cases hvv : va / PGSIZE = v
  · rw [hvv, Function.update_self, cowEntry_pa h.range]
    exact h.copy _ hmod
  · rw [Function.update_of_ne hvv]
    refine h.keeps _ ?_
    rw [rd_page hsp hva]
    have hpos := leaves_pos (f := Function.update A.leaf v 0) (v := va / PGSIZE)
      (by have := hsp.lt_tfv le_rfl; omega)
      (by rw [Function.update_of_ne hvv]; exact (hsp.user _ hva).valid)
    rw [Function.update_of_ne hvv] at hpos
    rw [Pi.add_apply]
    omega

/-! ### The visited pages -/

/-- What holds of every visited page. -/
lemma visits_spec {shared : ℕ → Prop} [DecidablePred shared] (k : ℕ) :
    ∀ {free dstva : ℕ} {src : List Byte}, ∀ w ∈ visits f shared k free dstva src,
      dstva / PGSIZE ≤ w.vpn ∧ w.vpn * PGSIZE < MAXVA ∧ UserOk (f w.vpn) ∧
        w.off + w.chunk.length ≤ PGSIZE := by
  induction k with
  | zero => intro free dstva src w hw; cases hw
  | succ k ih =>
      intro free dstva src w hw
      unfold visits at hw
      dsimp only at hw
      by_cases hc : src.length = 0 ∨ ¬ (PGROUNDDOWN dstva < MAXVA ∧ UserOk (f (dstva / PGSIZE)))
      · rw [if_pos hc] at hw; cases hw
      · rw [if_neg hc, List.mem_cons] at hw
        rw [not_or, not_not] at hc
        rcases hw with rfl | hw
        · refine ⟨le_rfl, ?_, hc.2.2, ?_⟩
          · have := hc.2.1
            unfold PGROUNDDOWN at this
            exact this
          · simp only [List.length_take]
            unfold PGROUNDDOWN PGSIZE; omega
        · obtain ⟨h1, h2⟩ := ih w hw
          refine ⟨?_, h2⟩
          unfold PGROUNDDOWN PGSIZE at *
          omega

lemma visits_congr {shared : ℕ → Prop} [DecidablePred shared] (k : ℕ) :
    ∀ {free dstva : ℕ} {src : List Byte}, (∀ v, dstva / PGSIZE ≤ v → g v = f v) →
      visits g shared k free dstva src = visits f shared k free dstva src := by
  induction k with
  | zero => intro free dstva src _; rfl
  | succ k ih =>
      intro free dstva src h
      unfold visits
      dsimp only
      rw [h _ le_rfl]
      have hrec : ∀ free' src', visits g shared k free' (PGROUNDDOWN dstva + PGSIZE) src' =
          visits f shared k free' (PGROUNDDOWN dstva + PGSIZE) src' := by
        intro free' src'
        refine ih fun v hv => h v ?_
        unfold PGROUNDDOWN PGSIZE at *
        omega
      simp only [hrec]

/-! ### The bytes reached -/

/-- How many of the `n` bytes from `va` on lie before the first page that the user may not access. -/
def mappedLen (f : ℕ → Word) : ℕ → ℕ → ℕ
  | _, 0 => 0
  | va, n + 1 => if va < MAXVA ∧ UserOk (f (va / PGSIZE)) then mappedLen f (va + 1) n + 1 else 0

lemma mappedLen_le (n : ℕ) : ∀ va, mappedLen f va n ≤ n := by
  induction n with
  | zero => intro va; exact le_rfl
  | succ n ih =>
    intro va
    unfold mappedLen
    split_ifs
    · exact Nat.succ_le_succ (ih _)
    · exact Nat.zero_le _

lemma mappedLen_congr (h : ∀ v, UserOk (g v) ↔ UserOk (f v)) (n : ℕ) :
    ∀ va, mappedLen g va n = mappedLen f va n := by
  induction n with
  | zero => intro va; rfl
  | succ n ih =>
    intro va
    unfold mappedLen
    simp only [h, ih]

lemma mappedLen_stop {n : ℕ} (h : ¬ (PGROUNDDOWN va < MAXVA ∧ UserOk (f (va / PGSIZE)))) :
    mappedLen f va n = 0 := by
  cases n with
  | zero => rfl
  | succ n =>
    unfold mappedLen
    refine if_neg fun hc => h ⟨?_, hc.2⟩
    have := hc.1
    unfold PGROUNDDOWN PGSIZE MAXVA at *
    omega

lemma mappedLen_page (k : ℕ) : ∀ {va n : ℕ}, PGROUNDDOWN va < MAXVA →
    UserOk (f (va / PGSIZE)) → va % PGSIZE + k ≤ PGSIZE → k ≤ n →
    mappedLen f va n = k + mappedLen f (va + k) (n - k) := by
  induction k with
  | zero => intro va n _ _ _ _; simp
  | succ k ih =>
    intro va n hva hok hk hn
    obtain ⟨n, rfl⟩ : ∃ m, n = m + 1 := ⟨n - 1, by omega⟩
    rw [mappedLen, if_pos ⟨by unfold PGROUNDDOWN PGSIZE MAXVA at *; omega, hok⟩]
    by_cases h0 : k = 0
    · subst h0
      simp only [Nat.zero_add, Nat.add_sub_cancel]
      omega
    · have hpage : (va + 1) / PGSIZE = va / PGSIZE := by unfold PGSIZE at *; omega
      rw [@ih (va + 1) n ?_ (by rw [hpage]; exact hok) ?_ (by omega)]
      · rw [show va + 1 + k = va + (k + 1) by omega, show n + 1 - (k + 1) = n - k by omega]
        omega
      · unfold PGROUNDDOWN at *
        rw [hpage]
        exact hva
      · unfold PGSIZE at *
        omega

/-! ### The loop -/

/-- Pages that stay in use whatever `copyout` resolves: those others reference and the pages
that are not copy-on-write. -/
def Stays (R : ℕ → ℕ) (f : ℕ → Word) (np q : ℕ) : Prop :=
  R q ≠ 0 ∨ ∃ v < np, has (f v) PTE_COW = false ∧ PTE2PA (f v) = q

/-- What copying `src` to `dstva` over the visited pages `ws` has done when `m` bytes are
written. -/
structure Copied (L : Layout) (root : ℕ) (R : ℕ → ℕ) (np tf : ℕ) (A : PTab) (s : KState)
    (ws : List Visit) (dstva : ℕ) (src : List Byte) (m : ℕ) (A' : PTab) (s' : KState) :
    Prop where
  as : AS L s' root A' R np tf
  priv : Priv R A'.leaf np
  noNew : NoNew R A.leaf A'.leaf
  le : m ≤ src.length
  within : ∀ va, dstva ≤ va → va < dstva + m → va / PGSIZE < np
  rd : ∀ va, va / PGSIZE < np → rd A'.leaf s'.mem va =
    if dstva ≤ va ∧ va < dstva + m then src.getD (va - dstva) 0 else rd A.leaf s.mem va
  kept : ∀ x, Stays R A.leaf np (PGROUNDDOWN x) →
    (∀ w ∈ ws, InPlace A.leaf w → PGROUNDDOWN x = PTE2PA (A.leaf w.vpn) →
      ¬ (PTE2PA (A.leaf w.vpn) + w.off ≤ x ∧ x < PTE2PA (A.leaf w.vpn) + w.off + w.chunk.length)) →
    s'.mem x = s.mem x
  wrote : ∀ w ∈ ws, InPlace A.leaf w → Stays R A.leaf np (PTE2PA (A.leaf w.vpn)) →
    ∀ k < w.chunk.length,
      s'.mem (PTE2PA (A.leaf w.vpn) + w.off + k) = w.chunk.getD k 0
  outside : Keeps (outside L) s s'

lemma Copied.nil (h : AS L s root A R np tf) (hp : Priv R A.leaf np) (dstva : ℕ)
    (src : List Byte) : Copied L root R np tf A s [] dstva src 0 A s := by
  refine ⟨h, hp, NoNew.refl, Nat.zero_le _, fun va _ _ => by omega, fun va _ => ?_,
    fun _ _ _ => rfl, by simp, Keeps.refl⟩
  rw [if_neg (by omega)]

/-- Writing the chunk of the visited page in place. -/
lemma copied_inPlace (h : AS L s root A R np tf) (hp : Priv R A.leaf np) {w : Visit}
    {dstva : ℕ} {src : List Byte} {n : ℕ} (hlt : w.vpn < np)
    (hoff : w.off + w.chunk.length ≤ PGSIZE) (hdst : dstva = w.vpn * PGSIZE + w.off)
    (hn : n ≤ src.length) (hch : w.chunk = src.take n) (hin : InPlace A.leaf w) :
    Copied L root R np tf A s [w] dstva src n A
      { s with mem := put s.mem (PTE2PA (A.leaf w.vpn) + w.off) w.chunk } := by
  have hlen : w.chunk.length = n := by rw [hch, List.length_take]; omega
  have hal := (h.space.user _ hlt).range.1
  refine ⟨AS.put h hlt hoff, hp, NoNew.refl, hn, fun va h1 h2 => ?_, fun va hva => ?_,
    fun x _ hx => ?_, ?_, put_outside (h.space.user _ hlt).range hoff⟩
  · have hva : va / PGSIZE = w.vpn := by unfold PGSIZE at *; omega
    omega
  · rw [rd_put h.space hlt hoff hva]
    by_cases hc : dstva ≤ va ∧ va < dstva + n
    · have hva' : va / PGSIZE = w.vpn ∧ va % PGSIZE = va - w.vpn * PGSIZE := by
        unfold PGSIZE at *; omega
      rw [if_pos hc, if_pos (by omega), hch, List.getD_eq_getElem?_getD,
        List.getD_eq_getElem?_getD, List.getElem?_take_of_lt (by omega)]
      congr 2
      omega
    · rw [if_neg hc, if_neg]
      unfold PGSIZE at *; omega
  · by_cases hpg : PGROUNDDOWN x = PTE2PA (A.leaf w.vpn)
    · have := hx w (List.mem_singleton.mpr rfl) hin hpg
      exact put_out (by omega)
    · exact put_other hal hoff hpg
  · intro w' hw' _ _ k hk
    rw [List.mem_singleton] at hw'
    subst hw'
    simp only
    rw [put_in (by omega) (by omega)]
    congr 1
    omega

/-- Writing the chunk into the private copy of the visited page. -/
lemma copied_resolved (h : AS L s root A R np tf) (hp : Priv R A.leaf np) {w : Visit}
    {dstva : ℕ} {src : List Byte} {n : ℕ} (hr : Resolved L root R np tf A w.vpn p s s')
    (hcow : has (A.leaf w.vpn) PTE_COW = true) (hfree : 0 < w.free)
    (hoff : w.off + w.chunk.length ≤ PGSIZE) (hdst : dstva = w.vpn * PGSIZE + w.off)
    (hn : n ≤ src.length) (hch : w.chunk = src.take n) :
    Copied L root R np tf A s [w] dstva src n (setLeaf A w.vpn (cowEntry p (A.leaf w.vpn)))
      { s' with mem := put s'.mem (p + w.off) w.chunk } := by
  have hpa : PTE2PA ((setLeaf A w.vpn (cowEntry p (A.leaf w.vpn))).leaf w.vpn) = p := by
    simp only [setLeaf]
    rw [Function.update_self, cowEntry_pa hr.range]
  have hnot : ¬ InPlace A.leaf w := fun hc => hc ⟨hcow, hfree⟩
  -- the copy is written in place, in the address space `custom_cow` leaves
  have hw : InPlace (setLeaf A w.vpn (cowEntry p (A.leaf w.vpn))).leaf w := by
    unfold InPlace setLeaf
    dsimp only
    rw [Function.update_self, has_COW, cowEntry_bit hr.range _ (by omega)]
    simp
  have h1 := copied_inPlace hr.as (hr.priv hp) hr.lt hoff hdst hn hch hw
  rw [hpa] at h1
  refine ⟨h1.as, h1.priv, hr.noNew.trans h1.noNew, hn, h1.within, fun va hva => ?_,
    fun x hx _ => ?_, ?_,
    hr.outside.trans h1.outside fun _ => id⟩
  · rw [h1.rd va hva, Resolved.rd hr h.space hva]
  · have hfresh := hr.fresh
    rw [Pi.add_apply] at hfresh
    have hne : R (PGROUNDDOWN x) + leaves (Function.update A.leaf w.vpn 0) (PGROUNDDOWN x) ≠ 0 := by
      rcases hx with hx | ⟨v, hv, hc, he⟩
      · omega
      · have hvw : v ≠ w.vpn := by
          rintro rfl
          rw [hcow] at hc; cases hc
        have := leaves_pos (f := Function.update A.leaf w.vpn 0) (v := v)
          (by have := h.space.lt_tfv le_rfl; omega)
          (by rw [Function.update_of_ne hvw]; exact (h.space.user v hv).valid)
        rw [Function.update_of_ne hvw, he] at this
        omega
    have hxp : PGROUNDDOWN x ≠ p := by
      rintro rfl
      have := leaves_update (f := A.leaf) (v := w.vpn) (h.space.lt_tfv hr.lt.le) 0 (PGROUNDDOWN x)
      simp only [not_maps_zero, if_false] at this
      omega
    simp only
    rw [put_other hr.range.1 hoff hxp]
    exact hr.keeps x hne
  · intro w' hw' hin
    rw [List.mem_singleton] at hw'
    subst hw'
    exact absurd hin hnot

/-- One visited page, then the rest. -/
lemma Copied.cons {A1 A2 : PTab} {s1 s2 : KState} {w : Visit} {ws : List Visit}
    {dstva n m : ℕ} {src : List Byte} (hsp : Space L A.leaf np tf)
    (h1 : Copied L root R np tf A s [w] dstva src n A1 s1)
    (hleaf : ∀ v, v ≠ w.vpn → A1.leaf v = A.leaf v)
    (hself : InPlace A.leaf w → A1.leaf w.vpn = A.leaf w.vpn)
    (hlt : w.vpn < np) (hoff : w.off + w.chunk.length ≤ PGSIZE)
    (hws : ∀ w' ∈ ws, w.vpn < w'.vpn ∧ w'.vpn < np)
    (hend : n < src.length → w.vpn * PGSIZE + PGSIZE = dstva + n)
    (h2 : Copied L root R np tf A1 s1 ws (w.vpn * PGSIZE + PGSIZE) (src.drop n) m A2 s2) :
    Copied L root R np tf A s (w :: ws) dstva src (n + m) A2 s2 := by
  have hmn := h2.le
  have hn := h1.le
  rw [List.length_drop] at hmn
  have hsame : ∀ w' ∈ ws, A1.leaf w'.vpn = A.leaf w'.vpn := fun w' hw' =>
    hleaf _ (hws w' hw').1.ne'
  have hinp : ∀ w' ∈ ws, InPlace A1.leaf w' ↔ InPlace A.leaf w' := fun w' hw' => by
    unfold InPlace; rw [hsame w' hw']
  have hstep : ∀ q, Stays R A.leaf np q → Stays R A1.leaf np q := by
    rintro q (hq | ⟨v, hv, hc, he⟩)
    · exact Or.inl hq
    · by_cases hvw : v = w.vpn
      · have hin : InPlace A.leaf w := fun hcc => by rw [← hvw, hc] at hcc; exact absurd hcc.1 (by simp)
        subst hvw
        exact Or.inr ⟨_, hv, by rw [hself hin]; exact hc, by rw [hself hin]; exact he⟩
      · exact Or.inr ⟨v, hv, by rw [hleaf v hvw]; exact hc, by rw [hleaf v hvw]; exact he⟩
  refine ⟨h2.as, h2.priv, h1.noNew.trans h2.noNew, by omega, fun va hlo hhi => ?_,
    fun va hva => ?_, ?_, ?_, h1.outside.trans h2.outside fun _ => id⟩
  · by_cases hc : va < dstva + n
    · exact h1.within va hlo hc
    · have he := hend (by omega)
      exact h2.within va (by omega) (by omega)
  · rw [h2.rd va hva, h1.rd va hva]
    by_cases hm : m = 0
    · subst hm
      rw [if_neg (by omega), Nat.add_zero]
    · have he := hend (by omega)
      rw [he]
      by_cases hc2 : dstva + n ≤ va ∧ va < dstva + n + m
      · rw [if_pos hc2, if_pos (by omega), List.getD_eq_getElem?_getD, List.getElem?_drop,
          List.getD_eq_getElem?_getD]
        congr 2
        omega
      · rw [if_neg hc2]
        by_cases hc1 : dstva ≤ va ∧ va < dstva + n
        · rw [if_pos hc1, if_pos (by omega)]
        · rw [if_neg hc1, if_neg (by omega)]
  · intro x hx hno
    rw [h2.kept x (hstep _ hx) fun w' hw' hin hpg => ?_, h1.kept x hx fun w' hw' hin hpg => ?_]
    · rw [List.mem_singleton] at hw'
      subst hw'
      exact hno _ List.mem_cons_self hin hpg
    · rw [hsame w' hw'] at hpg ⊢
      exact hno w' (List.mem_cons_of_mem _ hw') ((hinp w' hw').mp hin) hpg
  · intro w' hw' hin hst k hk
    rw [List.mem_cons] at hw'
    rcases hw' with rfl | hw'
    · -- later pages are other pages
      have hpg : PGROUNDDOWN (PTE2PA (A.leaf w'.vpn) + w'.off + k) = PTE2PA (A.leaf w'.vpn) :=
        (rounddown_eq (hsp.user _ hlt).range.1).mpr ⟨by omega, by omega⟩
      rw [h2.kept _ (by rw [hpg]; exact hstep _ hst) fun w'' hw'' _ hc => ?_]
      · exact h1.wrote w' (List.mem_singleton.mpr rfl) hin hst k hk
      · rw [hpg, hsame w'' hw''] at hc
        have := hsp.inj _ hlt _ (hws w'' hw'').2 hc
        have := (hws w'' hw'').1
        omega
    · rw [← hsame w' hw']
      exact h2.wrote w' hw' ((hinp w' hw').mpr hin) (by rw [hsame w' hw']; exact hstep _ hst) k hk

/-- One iteration of the loop whose page is mapped: the page is copied first when it is
copy-on-write and a page is free, then the chunk is written. -/
lemma copyoutPage_spec {E : Panic → Prop} (h : AS L s root A R np tf) (hp : Priv R A.leaf np)
    {dstva n : ℕ} {src : List Byte} (hva : PGROUNDDOWN dstva < MAXVA)
    (hok : UserOk (A.leaf (dstva / PGSIZE)))
    (hn : n = min (PGSIZE - (dstva - PGROUNDDOWN dstva)) src.length) :
    wp (copyoutPage root dstva (PTE2PA (A.leaf (dstva / PGSIZE))) (src.take n))
      (fun _ s' => ∃ A', Copied L root R np tf A s
          [⟨dstva / PGSIZE, dstva - PGROUNDDOWN dstva, src.take n, s.freelist.length⟩]
          dstva src n A' s' ∧
        (∀ v, v ≠ dstva / PGSIZE → A'.leaf v = A.leaf v) ∧
        (InPlace A.leaf ⟨dstva / PGSIZE, dstva - PGROUNDDOWN dstva, src.take n,
          s.freelist.length⟩ → A'.leaf (dstva / PGSIZE) = A.leaf (dstva / PGSIZE)) ∧
        s'.freelist.length = (if has (A.leaf (dstva / PGSIZE)) PTE_COW = true ∧
          R (PTE2PA (A.leaf (dstva / PGSIZE))) ≠ 0 then s.freelist.length - 1
          else s.freelist.length) ∧
        ∀ v, UserOk (A'.leaf v) ↔ UserOk (A.leaf v)) E s := by
  have hlt := Space.lt_np h.space hok.1 (Or.inl hok.2)
  have hvpn := rounddown_vpn dstva
  have hne : pteAddr A (PGROUNDDOWN dstva) ≠ 0 := pteAddr_ne_zero h.owns.wf
    (by rw [hvpn]; exact valid_ne_zero hok.1)
  have hoff : dstva - PGROUNDDOWN dstva + (src.take n).length ≤ PGSIZE := by
    rw [List.length_take]
    have := rounddown_mod dstva
    have : dstva % PGSIZE < PGSIZE := Nat.mod_lt _ (by unfold PGSIZE; omega)
    omega
  have hdst : dstva = dstva / PGSIZE * PGSIZE + (dstva - PGROUNDDOWN dstva) := by
    have := rounddown_le dstva
    unfold PGROUNDDOWN at *; omega
  have hns : n ≤ src.length := by omega
  unfold copyoutPage
  dsimp only
  rw [wp_bind, wp_of_run (walk_read h.owns.wf h.owns.rep hva), wp_bind, wp_ld,
    ld_pteAddr h.owns.rep hne, hvpn]
  set e := A.leaf (dstva / PGSIZE) with he
  by_cases hcow : has e PTE_COW = true
  · rw [if_pos hcow, wp_bind]
    by_cases hf : s.freelist = []
    · -- no page for the copy: the shared page itself is written
      rw [wp_of_run (custom_cow_refuses h hva (by rw [hvpn]; exact hok.1) (Or.inr hf)),
        wp_bind, wp_of_run (walkaddr_read h.owns.wf h.owns.rep _), wp_modify]
      unfold userPa
      rw [if_pos ⟨hva, by rw [hvpn]; exact hok⟩, hvpn]
      refine ⟨A, copied_inPlace h hp hlt hoff hdst hns rfl ?_, fun _ _ => rfl, fun _ => rfl, ?_,
        fun _ => Iff.rfl⟩
      · unfold InPlace
        simp [hf]
      · rw [hf]; split_ifs <;> rfl
    · refine wp_post (custom_cow_copies h hva (by rw [hvpn]; exact hok.1)
        (by rw [hvpn]; exact hcow) hf) ?_
      rintro _ s1 ⟨-, p, hr⟩
      rw [hvpn] at hr
      have hpa : PTE2PA (cowEntry p e) = p := cowEntry_pa hr.range e
      have hok' : UserOk (cowEntry p e) := by
        have hU := hok.2
        rw [has_U] at hU
        refine ⟨(cowEntry_user (h.space.user _ hlt) hr.range).valid, ?_⟩
        rw [has_U, cowEntry_bit hr.range e (by omega), hU]; rfl
      have hself : (setLeaf A (dstva / PGSIZE) (cowEntry p e)).leaf (dstva / PGSIZE) =
          cowEntry p e := Function.update_self ..
      rw [wp_bind, wp_of_run (walkaddr_read hr.as.owns.wf hr.as.owns.rep _), wp_modify]
      unfold userPa
      rw [hvpn, hself, if_pos ⟨hva, hok'⟩, hpa]
      have hpos : 0 < s.freelist.length := List.length_pos_iff.mpr hf
      refine ⟨_, copied_resolved h hp hr hcow hpos hoff hdst hns rfl,
        fun v hv => Function.update_of_ne hv _ _, fun hin => absurd ⟨hcow, hpos⟩ hin, ?_,
        fun v => ?_⟩
      · have := hr.free
        rw [← he] at this
        simp only
        by_cases hR : R (PTE2PA e) = 0
        · rw [if_pos hR] at this; rw [if_neg fun hc => hc.2 hR]; omega
        · rw [if_neg hR] at this; rw [if_pos ⟨hcow, hR⟩]; omega
      · by_cases hv : v = dstva / PGSIZE
        · subst hv
          rw [hself]
          exact iff_of_true hok' hok
        · simp only [setLeaf, Function.update_of_ne hv]
  · rw [if_neg hcow, wp_modify]
    refine ⟨A, copied_inPlace h hp hlt hoff hdst hns rfl fun hc => hcow hc.1, fun _ _ => rfl,
      fun _ => rfl, ?_, fun _ => Iff.rfl⟩
    rw [if_neg fun hc => hcow hc.1]

/-- The loop of `copyout`, by induction on the iterations left. -/
lemma copyoutLoop_spec {E : Panic → Prop} (k : ℕ) : ∀ {A : PTab} {s : KState} {dstva : ℕ}
    {src : List Byte}, AS L s root A R np tf → Priv R A.leaf np → src.length < k →
    wp (copyoutLoop root k dstva src) (fun r s' => ∃ A' m, Copied L root R np tf A s
        (visits A.leaf (fun q => R q ≠ 0) k s.freelist.length dstva src) dstva src m A' s' ∧
      (r = 0 ∧ m = src.length ∨ r = -1 ∧ m < src.length) ∧
      (∀ v, UserOk (A'.leaf v) ↔ UserOk (A.leaf v)) ∧
      m = mappedLen A.leaf dstva src.length) E s := by
  induction k with
  | zero => intro A s dstva src _ _ hk; omega
  | succ k ih =>
      intro A s dstva src h hp hk
      unfold copyoutLoop visits
      dsimp only
      by_cases hlen : src.length = 0
      · rw [if_pos hlen, wp_pure, if_pos (Or.inl hlen)]
        refine ⟨A, 0, Copied.nil h hp dstva src, Or.inl ⟨rfl, hlen.symm⟩, fun _ => Iff.rfl, ?_⟩
        rw [hlen]
        rfl
      rw [if_neg hlen, wp_bind, wp_of_run (walkaddr_read h.owns.wf h.owns.rep _)]
      unfold userPa
      rw [rounddown_vpn]
      by_cases hok : PGROUNDDOWN dstva < MAXVA ∧ UserOk (A.leaf (dstva / PGSIZE))
      · have hlt := Space.lt_np h.space hok.2.1 (Or.inl hok.2.2)
        rw [if_pos hok, if_neg (h.space.user _ hlt).range.pos.ne',
          if_neg (by rw [not_or, not_not]; exact ⟨hlen, hok⟩)]
        set n := min (PGSIZE - (dstva - PGROUNDDOWN dstva)) src.length with hn
        have hn1 : 1 ≤ n := by
          have h1 : dstva % PGSIZE < PGSIZE := Nat.mod_lt _ (by unfold PGSIZE; omega)
          have h2 := rounddown_mod dstva
          omega
        have hnext : u64 (PGROUNDDOWN dstva + PGSIZE) = PGROUNDDOWN dstva + PGSIZE := by
          have := hok.1
          unfold u64 MAXVA PGSIZE at *; omega
        rw [wp_bind]
        refine wp_post (copyoutPage_spec h hp hok.1 hok.2 hn) ?_
        rintro _ s3 ⟨A3, hc3, hleaf, hself, hfree, huser⟩
        rw [hnext]
        refine wp_post (ih hc3.as hc3.priv (by rw [List.length_drop]; omega)) ?_
        rintro r s4 ⟨A4, m, hc4, hres, huser4, hm⟩
        have hvis : visits A3.leaf (fun q => R q ≠ 0) k s3.freelist.length
            (PGROUNDDOWN dstva + PGSIZE) (src.drop n) =
            visits A.leaf (fun q => R q ≠ 0) k (if has (A.leaf (dstva / PGSIZE)) PTE_COW = true ∧
              R (PTE2PA (A.leaf (dstva / PGSIZE))) ≠ 0 then s.freelist.length - 1
              else s.freelist.length) (PGROUNDDOWN dstva + PGSIZE) (src.drop n) := by
          rw [hfree]
          refine visits_congr k fun v hv => hleaf v ?_
          unfold PGROUNDDOWN PGSIZE at *
          omega
        rw [hvis] at hc4
        refine ⟨A4, n + m, hc3.cons h.space hleaf hself hlt ?_ (fun w hw => ?_) ?_ hc4, ?_,
          fun v => (huser4 v).trans (huser v), ?_⟩
        · simp only [List.length_take]
          have := rounddown_mod dstva
          have : dstva % PGSIZE < PGSIZE := Nat.mod_lt _ (by unfold PGSIZE; omega)
          omega
        · obtain ⟨h1, h2, h3, -⟩ := visits_spec k w hw
          refine ⟨?_, Space.lt_np h.space h3.1 (Or.inl h3.2)⟩
          simp only
          unfold PGROUNDDOWN PGSIZE at *
          omega
        · intro hlt'
          have h1 := rounddown_mod dstva
          have h2 : dstva % PGSIZE < PGSIZE := Nat.mod_lt _ (by unfold PGSIZE; omega)
          change PGROUNDDOWN dstva + PGSIZE = dstva + n
          omega
        · rw [List.length_drop] at hres
          omega
        · have hoff := rounddown_mod dstva
          have hmod : dstva % PGSIZE < PGSIZE := Nat.mod_lt _ (by unfold PGSIZE; omega)
          rw [mappedLen_page n hok.1 hok.2 (by omega) (by omega), hm, mappedLen_congr huser,
            List.length_drop]
          congr 1
          by_cases hend : n = src.length
          · rw [hend, Nat.sub_self]
            rfl
          · congr 1
            omega
      · rw [if_neg hok, if_pos rfl, wp_pure, if_pos (Or.inr hok)]
        exact ⟨A, 0, Copied.nil h hp dstva src, Or.inr ⟨rfl, by omega⟩, fun _ => Iff.rfl,
          (mappedLen_stop hok).symm⟩

/-- **`copyout`** writes a part of `src` at `dstva`, all of it when it returns `0`. -/
lemma copyout_spec {E : Panic → Prop} {dstva : ℕ} {src : List Byte}
    (h : AS L s root A R np tf) (hp : Priv R A.leaf np) :
    wp (copyout root dstva src) (fun r s' => ∃ A' m, Copied L root R np tf A s
        (visits A.leaf (fun q => R q ≠ 0) (src.length + 1) s.freelist.length dstva src)
        dstva src m A' s' ∧
      (r = 0 ∧ m = src.length ∨ r = -1 ∧ m < src.length) ∧
      (∀ v, UserOk (A'.leaf v) ↔ UserOk (A.leaf v)) ∧
      m = mappedLen A.leaf dstva src.length) E s :=
  copyoutLoop_spec _ h hp (Nat.lt_succ_self _)

end Xv6.Copyout
