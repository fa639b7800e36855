import Xv6.Kernel
import Xv6.Copyout

/-!
`copyin` and `copyinstr`, on any page table in memory.

The kernel buffer `dst` is apart from user memory and page tables: what a call stores there is the
list of the bytes it writes, in order from `dst[0]` on.
-/

namespace Xv6.Copyin

open Xv6.ByteMem Xv6.Riscv Xv6.Kalloc Xv6.Vm Xv6.Wp Xv6.PageTable Xv6.Cow Xv6.Copyout Xv6.Kernel

def copyinLoop (pagetable : ℕ) : ℕ → ℕ → ℕ → K (ℤ × List Byte)
  | 0, _, _ => throw .diverge
  | k + 1, srcva, len =>
    if len = 0 then pure (0, [])
    else do
      let va0 := PGROUNDDOWN srcva
      let pa0 ← walkaddr pagetable va0
      if pa0 = 0 then pure (-1, [])
      else do
        let n := min (PGSIZE - (srcva - va0)) len
        let s ← get
        let r ← copyinLoop pagetable k (u64 (va0 + PGSIZE)) (len - n)
        pure (r.1, bytes s.mem (pa0 + (srcva - va0)) n ++ r.2)

def copyin (pagetable srcva len : ℕ) : K (ℤ × List Byte) :=
  copyinLoop pagetable (len + 1) srcva len

/-- The inner loop of `copyinstr`: whether it got the null, and what it stored. -/
def scan (m : Mem) : ℕ → ℕ → Bool × List Byte
  | 0, _ => (false, [])
  | n + 1, p =>
    if m p = 0 then (true, [0])
    else
      let r := scan m n (p + 1)
      (r.1, m p :: r.2)

def copyinstrLoop (pagetable : ℕ) : ℕ → ℕ → ℕ → K (ℤ × List Byte)
  | 0, _, _ => throw .diverge
  | k + 1, srcva, max =>
    if max = 0 then pure (-1, [])
    else do
      let va0 := PGROUNDDOWN srcva
      let pa0 ← walkaddr pagetable va0
      if pa0 = 0 then pure (-1, [])
      else do
        let n := min (PGSIZE - (srcva - va0)) max
        let s ← get
        let r := scan s.mem n (pa0 + (srcva - va0))
        if r.1 then pure (0, r.2)
        else do
          let r' ← copyinstrLoop pagetable k (u64 (va0 + PGSIZE)) (max - n)
          pure (r'.1, r.2 ++ r'.2)

def copyinstr (pagetable srcva max : ℕ) : K (ℤ × List Byte) :=
  copyinstrLoop pagetable (max + 1) srcva max

/-- The leaf entries of the page table at `root`, as the hardware finds them. -/
abbrev entries (m : Mem) (root : ℕ) : ℕ → Word := leafAt m root

/-- The page of `va` is mapped for the user, below `MAXVA`. -/
def Mapped (m : Mem) (root va : ℕ) : Prop := va < MAXVA ∧ UserOk (entries m root (va / PGSIZE))

/-- The user's byte at `va`. -/
def byteAt (m : Mem) (root va : ℕ) : Byte := rd (entries m root) m va

/-- The `n` bytes of the user at `va`. -/
def userBytes (m : Mem) (root va n : ℕ) : List Byte :=
  (List.range n).map fun k => byteAt m root (va + k)

/-- No entry of the page table, of any level, is for physical page `0`. -/
structure NoPage0 (m : Mem) (root : ℕ) : Prop where
  table : ∀ l x, tableAt m root l x ≠ some 0
  leaf : ∀ v, has (entries m root v) PTE_V = true → PTE2PA (entries m root v) ≠ 0

variable {s : KState} {m : Mem} {root va n : ℕ} {E : Panic → Prop}

/-! ### Looking up an address -/

/-- The address of the level-0 entry, or `0`. -/
def slotAt (m : Mem) (root va : ℕ) : ℕ :=
  match tableAt m root 0 (va / PGSIZE / 512) with
  | some q => q + 8 * (va / PGSIZE % 512)
  | none => 0

lemma walkLoop_succ (va level t : ℕ) : walkLoop va false (level + 1) t s =
    if has (ld64 s.mem (t + 8 * (va / PGSIZE / 512 ^ (level + 1) % 512))) PTE_V then
      walkLoop va false level
        (PTE2PA (ld64 s.mem (t + 8 * (va / PGSIZE / 512 ^ (level + 1) % 512)))) s
    else .ok (0, s) := by
  rw [walkLoop, bind_run, px_eq]
  simp only [ld, Bool.false_eq_true, if_false]
  split_ifs
  · rfl
  · rfl

lemma walk_slot (hva : va < MAXVA) : walk root va false s = .ok (slotAt s.mem root va, s) := by
  have hv := vpn_lt hva
  unfold walk slotAt tableAt
  rw [if_neg (Nat.not_le.mpr hva), if_pos (by norm_num), walkLoop_succ, walkLoop_succ, walkLoop,
    px_eq]
  generalize va / PGSIZE = v at hv ⊢
  have htop : v / 512 / 512 / 512 = 0 := by omega
  have h2 : v / 512 ^ (1 + 1) = v / 512 / 512 := by omega
  simp only [tableBelow, htop, if_true, Option.bind_some, zero_add, pow_zero, pow_one, Nat.div_one,
    h2]
  generalize ld64 s.mem (root + 8 * (v / 512 / 512 % 512)) = e2
  by_cases hV2 : has e2 PTE_V = true
  · simp only [hV2, if_true, Option.bind_some]
    generalize ld64 s.mem (PTE2PA e2 + 8 * (v / 512 % 512)) = e1
    by_cases hV1 : has e1 PTE_V = true
    · simp only [hV1, if_true]
      rfl
    · simp only [hV1]
      rfl
  · simp only [hV2]
    rfl

/-- **`walkaddr`** on any page table that keeps away from page `0`. -/
lemma walkaddr_slot (h : NoPage0 s.mem root) (va : ℕ) :
    walkaddr root va s = .ok (userPa (entries s.mem root) va, s) := by
  unfold walkaddr userPa
  by_cases hva : MAXVA ≤ va
  · rw [if_pos hva, if_neg (by omega)]
    rfl
  · rw [if_neg hva, bind_run, walk_slot (by omega)]
    dsimp only
    have htab := h.table 0 (va / PGSIZE / 512)
    rcases hq : tableAt s.mem root 0 (va / PGSIZE / 512) with _ | q
    · have h1 : slotAt s.mem root va = 0 := by
        unfold slotAt
        rw [hq]
      have h2 : entries s.mem root (va / PGSIZE) = 0 := by
        unfold entries leafAt
        rw [hq]
      rw [if_pos h1, h2, if_neg]
      · rfl
      · rintro ⟨-, hV, -⟩
        rw [has_zero] at hV
        cases hV
    · have h1 : slotAt s.mem root va = q + 8 * (va / PGSIZE % 512) := by
        unfold slotAt
        rw [hq]
      have h2 : entries s.mem root (va / PGSIZE) = ld64 s.mem (q + 8 * (va / PGSIZE % 512)) := by
        unfold entries leafAt
        rw [hq]
      have hq0 : q ≠ 0 := by
        rintro rfl
        exact htab hq
      rw [if_neg (by omega), bind_run, h1, h2]
      simp only [ld]
      generalize ld64 s.mem (q + 8 * (va / PGSIZE % 512)) = e
      by_cases hV : has e PTE_V = true
      · by_cases hU : has e PTE_U = true
        · rw [if_neg (by simp [hV]), if_neg (by simp [hU]), if_pos ⟨by omega, hV, hU⟩]
          rfl
        · rw [if_neg (by simp [hV]), if_pos (by simpa using hU), if_neg fun hc => hU hc.2.2]
          rfl
      · rw [if_pos (by simpa using hV), if_neg fun hc => hV hc.2.1]
        rfl

lemma rounddown_off (va : ℕ) : va - PGROUNDDOWN va = va % PGSIZE := by
  have := rounddown_mod va
  omega

lemma walkaddr_page (h : NoPage0 s.mem root) :
    walkaddr root (PGROUNDDOWN va) s = .ok (userPa (entries s.mem root) (PGROUNDDOWN va), s) ∧
      (userPa (entries s.mem root) (PGROUNDDOWN va) = 0 ↔
        ¬ (PGROUNDDOWN va < MAXVA ∧ UserOk (entries s.mem root (va / PGSIZE)))) := by
  refine ⟨walkaddr_slot h _, ?_⟩
  unfold userPa
  rw [rounddown_vpn]
  split_ifs with hc
  · exact iff_of_false (h.leaf _ hc.2.1) (not_not.mpr hc)
  · exact iff_of_true rfl hc

lemma bytes_page (h1 : PGROUNDDOWN va < MAXVA) (h2 : UserOk (entries m root (va / PGSIZE)))
    (hn : va % PGSIZE + n ≤ PGSIZE) :
    bytes m (userPa (entries m root) (PGROUNDDOWN va) + (va - PGROUNDDOWN va)) n =
      userBytes m root va n := by
  unfold bytes userBytes byteAt rd userPa
  rw [rounddown_vpn, if_pos ⟨h1, h2⟩]
  refine List.map_congr_left fun k hk => ?_
  have hk := List.mem_range.mp hk
  have hpage : (va + k) / PGSIZE = va / PGSIZE ∧ (va + k) % PGSIZE = va % PGSIZE + k := by
    unfold PGSIZE at *
    omega
  rw [hpage.1, hpage.2, rounddown_off, Nat.add_assoc]

lemma userBytes_add (m : Mem) (root va a b : ℕ) :
    userBytes m root va (a + b) = userBytes m root va a ++ userBytes m root (va + a) b := by
  unfold userBytes
  rw [List.range_add, List.map_append, List.map_map]
  refine congrArg (_ ++ ·) (List.map_congr_left fun k _ => ?_)
  rw [Function.comp_apply, Nat.add_assoc]

lemma next_page (h : PGROUNDDOWN va < MAXVA) :
    u64 (PGROUNDDOWN va + PGSIZE) = va + (PGSIZE - va % PGSIZE) := by
  have hmod := rounddown_mod va
  have hle := rounddown_le va
  have hlt : va % PGSIZE < PGSIZE := Nat.mod_lt _ (by unfold PGSIZE; omega)
  unfold u64 MAXVA PGSIZE at *
  omega

/-! ### `copyin` -/

/-- How many of `n` bytes from `va` on the user may read. -/
abbrev reach (m : Mem) (root va n : ℕ) : ℕ := mappedLen (entries m root) va n

lemma reach_page (h1 : PGROUNDDOWN va < MAXVA) (h2 : UserOk (entries m root (va / PGSIZE)))
    (len : ℕ) :
    reach m root va len = min (PGSIZE - va % PGSIZE) len +
      reach m root (va + (PGSIZE - va % PGSIZE)) (len - min (PGSIZE - va % PGSIZE) len) := by
  have hmod : va % PGSIZE < PGSIZE := Nat.mod_lt _ (by unfold PGSIZE; omega)
  rw [reach, mappedLen_page (min (PGSIZE - va % PGSIZE) len) h1 h2 (by omega) (min_le_right _ _)]
  rcases Nat.lt_or_ge (PGSIZE - va % PGSIZE) len with hlt | hge
  · rw [min_eq_left hlt.le]
  · rw [min_eq_right hge, Nat.sub_self]
    rfl

lemma userBytes_page (h1 : PGROUNDDOWN va < MAXVA) (h2 : UserOk (entries m root (va / PGSIZE)))
    (len : ℕ) : userBytes m root va (reach m root va len) =
      userBytes m root va (min (PGSIZE - va % PGSIZE) len) ++
        userBytes m root (va + (PGSIZE - va % PGSIZE)) (reach m root (va + (PGSIZE - va % PGSIZE))
          (len - min (PGSIZE - va % PGSIZE) len)) := by
  rw [reach_page h1 h2, userBytes_add]
  refine congrArg (_ ++ ·) ?_
  rcases Nat.lt_or_ge (PGSIZE - va % PGSIZE) len with hlt | hge
  · rw [min_eq_left hlt.le]
  · have hnone (x y) : userBytes m root x (reach m root y 0) = [] := rfl
    rw [min_eq_right hge, Nat.sub_self, hnone, hnone]

lemma copyinLoop_spec (h : NoPage0 s.mem root) (k : ℕ) : ∀ {va len : ℕ}, len < k →
    wp (copyinLoop root k va len) (fun r s' => s' = s ∧
      r = (if reach s.mem root va len = len then 0 else -1,
        userBytes s.mem root va (reach s.mem root va len))) E s := by
  induction k with
  | zero => intro va len hk; omega
  | succ k ih =>
    intro va len hk
    unfold copyinLoop
    by_cases hlen : len = 0
    · subst hlen
      exact ⟨rfl, rfl⟩
    rw [if_neg hlen]
    dsimp only
    obtain ⟨hrun, hzero⟩ := @walkaddr_page s root va h
    rw [wp_bind, wp_of_run hrun]
    by_cases hok : PGROUNDDOWN va < MAXVA ∧ UserOk (entries s.mem root (va / PGSIZE))
    · have hmod : va % PGSIZE < PGSIZE := Nat.mod_lt _ (by unfold PGSIZE; omega)
      rw [if_neg fun hc => hzero.mp hc hok, wp_bind, wp_get, wp_bind, next_page hok.1,
        rounddown_off, userBytes_page hok.1 hok.2 len, reach_page hok.1 hok.2 len]
      set n := min (PGSIZE - va % PGSIZE) len with hn
      refine wp_post (ih (by omega)) ?_
      rintro _ s' ⟨rfl, rfl⟩
      rw [wp_pure, ← rounddown_off, bytes_page hok.1 hok.2 (by omega), rounddown_off]
      refine ⟨rfl, congrArg (fun r : ℤ => (r, _)) ?_⟩
      exact if_congr (by omega) rfl rfl
    · rw [if_pos (hzero.mpr hok), wp_pure]
      have h0 : reach s.mem root va len = 0 := mappedLen_stop hok
      rw [h0, if_neg (Ne.symm hlen)]
      exact ⟨rfl, rfl⟩

/-! ### `copyinstr` -/

/-- The first bytes up to the null, if there is one. -/
def upToNull (bs : List Byte) : List Byte := bs.take (bs.idxOf 0 + 1)

lemma scan_eq (m : Mem) (n : ℕ) : ∀ p, scan m n p =
    if 0 ∈ bytes m p n then (true, upToNull (bytes m p n)) else (false, bytes m p n) := by
  induction n with
  | zero => intro p; rfl
  | succ n ih =>
    intro p
    have hbytes : bytes m p (n + 1) = m p :: bytes m (p + 1) n := by
      unfold bytes
      rw [List.range_succ_eq_map, List.map_cons, List.map_map]
      refine congrArg _ (List.map_congr_left fun k _ => ?_)
      rw [Function.comp_apply, Nat.succ_eq_add_one]
      congr 1
      omega
    rw [scan, hbytes, ih]
    by_cases h0 : m p = 0
    · rw [if_pos h0, if_pos (by rw [h0]; exact List.mem_cons_self)]
      simp [upToNull, h0]
    · rw [if_neg h0]
      have hmem : 0 ∈ m p :: bytes m (p + 1) n ↔ 0 ∈ bytes m (p + 1) n := by
        rw [List.mem_cons, or_iff_right (Ne.symm h0)]
      by_cases hc : 0 ∈ bytes m (p + 1) n
      · rw [if_pos hc, if_pos (hmem.mpr hc)]
        unfold upToNull
        rw [List.idxOf_cons_ne _ h0, List.take_succ_cons]
      · rw [if_neg hc, if_neg (mt hmem.mp hc)]

lemma copyinstrLoop_spec (h : NoPage0 s.mem root) (k : ℕ) : ∀ {va max : ℕ}, max < k →
    wp (copyinstrLoop root k va max) (fun r s' => s' = s ∧
      r = if 0 ∈ userBytes s.mem root va (reach s.mem root va max) then
        (0, upToNull (userBytes s.mem root va (reach s.mem root va max)))
      else (-1, userBytes s.mem root va (reach s.mem root va max))) E s := by
  induction k with
  | zero => intro va max hk; omega
  | succ k ih =>
    intro va max hk
    unfold copyinstrLoop
    by_cases hmax : max = 0
    · subst hmax
      exact ⟨rfl, rfl⟩
    rw [if_neg hmax]
    dsimp only
    obtain ⟨hrun, hzero⟩ := @walkaddr_page s root va h
    rw [wp_bind, wp_of_run hrun]
    by_cases hok : PGROUNDDOWN va < MAXVA ∧ UserOk (entries s.mem root (va / PGSIZE))
    · have hmod : va % PGSIZE < PGSIZE := Nat.mod_lt _ (by unfold PGSIZE; omega)
      rw [if_neg fun hc => hzero.mp hc hok, wp_bind, wp_get, scan_eq, next_page hok.1]
      have hlen : va % PGSIZE + min (PGSIZE - (va - PGROUNDDOWN va)) max ≤ PGSIZE := by
        rw [rounddown_off]
        omega
      rw [bytes_page hok.1 hok.2 hlen, rounddown_off, userBytes_page hok.1 hok.2 max]
      set n := min (PGSIZE - va % PGSIZE) max with hn
      by_cases hnull : 0 ∈ userBytes s.mem root va n
      · rw [if_pos hnull, if_pos (List.mem_append_left _ hnull)]
        refine ⟨rfl, ?_⟩
        unfold upToNull
        rw [List.idxOf_append_of_mem hnull, List.take_append_of_le_length]
        exact List.idxOf_lt_length_of_mem hnull
      · rw [if_neg hnull, if_neg (by simp), wp_bind]
        refine wp_post (ih (by omega)) ?_
        rintro _ s' ⟨rfl, rfl⟩
        rw [wp_pure]
        refine ⟨rfl, ?_⟩
        generalize userBytes s'.mem root (va + (PGSIZE - va % PGSIZE)) _ = rest
        by_cases hc : 0 ∈ rest
        · rw [if_pos hc, if_pos (List.mem_append_right _ hc)]
          unfold upToNull
          rw [List.idxOf_append_of_notMem hnull, Nat.add_assoc, List.take_length_add_append]
        · rw [if_neg hc, if_neg (by rw [List.mem_append, not_or]; exact ⟨hnull, hc⟩)]
    · rw [if_pos (hzero.mpr hok), wp_pure]
      have h0 : reach s.mem root va max = 0 := mappedLen_stop hok
      rw [h0]
      exact ⟨rfl, rfl⟩

/-! ### The calls -/

lemma userBytes_length (m : Mem) (root va n : ℕ) : (userBytes m root va n).length = n := by
  unfold userBytes
  rw [List.length_map, List.length_range]

lemma lt_reach_iff (n : ℕ) : ∀ {va k : ℕ},
    k < reach m root va n ↔ k < n ∧ ∀ i ≤ k, Mapped m root (va + i) := by
  induction n with
  | zero => intro va k; simp [mappedLen]
  | succ n ih =>
    intro va k
    rw [reach, mappedLen]
    by_cases hc : va < MAXVA ∧ UserOk (entries m root (va / PGSIZE))
    · rw [if_pos hc]
      cases k with
      | zero =>
        refine iff_of_true (Nat.succ_pos _) ⟨Nat.succ_pos _, fun i hi => ?_⟩
        obtain rfl : i = 0 := by omega
        exact hc
      | succ k =>
        rw [Nat.succ_lt_succ_iff, Nat.succ_lt_succ_iff, ih]
        refine and_congr_right fun _ => ⟨fun h i hi => ?_, fun h i hi => ?_⟩
        · cases i with
          | zero => exact hc
          | succ i =>
            have := h i (by omega)
            rwa [Nat.add_right_comm, Nat.add_assoc] at this
        · have := h (i + 1) (by omega)
          rwa [Nat.add_right_comm, Nat.add_assoc]
    · rw [if_neg hc]
      exact iff_of_false (Nat.not_lt_zero _) fun h => hc (h.2 0 (Nat.zero_le _))

lemma reach_all_iff : reach m root va n = n ↔ ∀ i < n, Mapped m root (va + i) := by
  have hle : reach m root va n ≤ n := mappedLen_le n va
  constructor
  · intro h i hi
    exact ((lt_reach_iff n).mp (by omega : i < reach m root va n)).2 i le_rfl
  · intro h
    by_contra hne
    have : reach m root va n < reach m root va n :=
      (lt_reach_iff n).mpr ⟨by omega, fun i hi => h i (by omega)⟩
    omega

/-- Byte `k` is the first null. -/
def FirstNull (m : Mem) (root va k : ℕ) : Prop :=
  byteAt m root (va + k) = 0 ∧ ∀ i < k, byteAt m root (va + i) ≠ 0

lemma userBytes_take {k : ℕ} (h : k ≤ n) :
    (userBytes m root va n).take k = userBytes m root va k := by
  obtain ⟨j, rfl⟩ := Nat.exists_eq_add_of_le h
  rw [userBytes_add, List.take_append_of_le_length (by rw [userBytes_length]),
    List.take_of_length_le (by rw [userBytes_length])]

lemma mem_userBytes {b : Byte} : b ∈ userBytes m root va n ↔ ∃ k < n, byteAt m root (va + k) = b := by
  unfold userBytes
  simp only [List.mem_map, List.mem_range]

lemma upToNull_eq {k : ℕ} (hk : k < n) (h : FirstNull m root va k) :
    upToNull (userBytes m root va n) = userBytes m root va (k + 1) := by
  have hnot : (0 : Byte) ∉ userBytes m root va k := by
    rw [mem_userBytes]
    rintro ⟨i, hi, h0⟩
    exact h.2 i hi h0
  have hsplit : userBytes m root va n =
      userBytes m root va k ++ 0 :: userBytes m root (va + k + 1) (n - k - 1) := by
    rw [show n = k + (1 + (n - k - 1)) by omega, userBytes_add, userBytes_add, ← h.1]
    simp [userBytes]
  have hidx : (userBytes m root va n).idxOf 0 = k := by
    rw [hsplit, List.idxOf_append_of_notMem hnot, List.idxOf_cons_self, userBytes_length]
    rfl
  unfold upToNull
  rw [hidx, userBytes_take hk]

lemma exists_firstNull (h : 0 ∈ userBytes m root va n) : ∃ k < n, FirstNull m root va k := by
  obtain ⟨j, hj, h0⟩ := mem_userBytes.mp h
  have hex : ∃ k, byteAt m root (va + k) = 0 := ⟨j, h0⟩
  refine ⟨Nat.find hex, ?_, Nat.find_spec hex, fun i hi => Nat.find_min hex hi⟩
  exact lt_of_le_of_lt (Nat.find_min' hex h0) hj

/-- **`copyin` and `copyinstr` read exactly the user's bytes**, for every page table and all 64-bit
addresses and lengths. -/
theorem copyin_copyinstr_exact (s : KState) (root : ℕ) (h : NoPage0 s.mem root)
    (srcva len max : Word) :
    (∃ r dst, copyin root srcva.toNat len.toNat s = .ok ((r, dst), s) ∧ (r = 0 ∨ r = -1) ∧
      dst.length ≤ len.toNat ∧
      (r = 0 ↔ ∀ i < len.toNat, Mapped s.mem root (srcva.toNat + i)) ∧
      (r = 0 → dst = userBytes s.mem root srcva.toNat len.toNat)) ∧
    ∃ r dst, copyinstr root srcva.toNat max.toNat s = .ok ((r, dst), s) ∧ (r = 0 ∨ r = -1) ∧
      dst.length ≤ max.toNat ∧
      (r = 0 ↔ ∃ k < max.toNat, FirstNull s.mem root srcva.toNat k ∧
        ∀ i ≤ k, Mapped s.mem root (srcva.toNat + i)) ∧
      ∀ k < max.toNat, FirstNull s.mem root srcva.toNat k →
        (∀ i ≤ k, Mapped s.mem root (srcva.toNat + i)) →
        dst = userBytes s.mem root srcva.toNat (k + 1) := by
  constructor
  · obtain ⟨r, s', hrun, rfl, rfl⟩ := wp_returns
      (copyinLoop_spec h _ (Nat.lt_succ_self len.toNat) : wp (copyinLoop root _ srcva.toNat _) _ _ _)
    refine ⟨_, _, hrun, ?_, ?_, ?_, fun h0 => ?_⟩
    · split_ifs
      · exact Or.inl rfl
      · exact Or.inr rfl
    · rw [userBytes_length]
      exact mappedLen_le _ _
    · rw [← reach_all_iff]
      split_ifs with hc
      · exact iff_of_true rfl hc
      · exact iff_of_false (by norm_num) hc
    · split_ifs at h0 with hc
      rw [hc]
  · obtain ⟨r, s', hrun, rfl, hr⟩ := wp_returns
      (copyinstrLoop_spec h _ (Nat.lt_succ_self max.toNat) :
        wp (copyinstrLoop root _ srcva.toNat _) _ _ _)
    have hle : reach s'.mem root srcva.toNat max.toNat ≤ max.toNat := mappedLen_le _ _
    have hfirst : ∀ k < max.toNat, FirstNull s'.mem root srcva.toNat k →
        (∀ i ≤ k, Mapped s'.mem root (srcva.toNat + i)) →
        k < reach s'.mem root srcva.toNat max.toNat := fun k hk _ hm =>
      (lt_reach_iff _).mpr ⟨hk, hm⟩
    by_cases hnull : 0 ∈ userBytes s'.mem root srcva.toNat
        (reach s'.mem root srcva.toNat max.toNat)
    · rw [if_pos hnull] at hr
      subst hr
      obtain ⟨k, hk, hf⟩ := exists_firstNull hnull
      refine ⟨_, _, hrun, Or.inl rfl, ?_, ?_, fun k hk hf hm => ?_⟩
      · rw [upToNull_eq hk hf, userBytes_length]
        omega
      · exact iff_of_true rfl ⟨k, by omega, hf, ((lt_reach_iff _).mp hk).2⟩
      · exact upToNull_eq (hfirst k hk hf hm) hf
    · rw [if_neg hnull] at hr
      subst hr
      refine ⟨_, _, hrun, Or.inr rfl, ?_, ?_, fun k hk hf hm => ?_⟩
      · rw [userBytes_length]
        exact hle
      · refine iff_of_false (by norm_num) ?_
        rintro ⟨k, hk, hf, hm⟩
        exact hnull (mem_userBytes.mpr ⟨k, hfirst k hk hf hm, hf.1⟩)
      · exact absurd (mem_userBytes.mpr ⟨k, hfirst k hk hf hm, hf.1⟩) hnull

/-! ### One page with a greeting -/

/-- Three tables that map the first page to `0x4000`, where the bytes of `"hi"` stand. -/
def greetingMem : Mem :=
  put (st64 (st64 (st64 (fun _ => 0) 0x1000 (PA2PTE 0x2000 ||| PTE_V))
    0x2000 (PA2PTE 0x3000 ||| PTE_V)) 0x3000 (PA2PTE 0x4000 ||| (PTE_V ||| PTE_U)))
    0x4000 [104, 105]

lemma ld64_greeting {a : ℕ} (hal : a % 8 = 0) (hlt : a < 0x4000) : ld64 greetingMem a =
    if a = 0x1000 then PA2PTE 0x2000 ||| PTE_V
    else if a = 0x2000 then PA2PTE 0x3000 ||| PTE_V
    else if a = 0x3000 then PA2PTE 0x4000 ||| (PTE_V ||| PTE_U)
    else 0 := by
  have hput : ld64 greetingMem a = ld64 (st64 (st64 (st64 (fun _ => 0) 0x1000
      (PA2PTE 0x2000 ||| PTE_V)) 0x2000 (PA2PTE 0x3000 ||| PTE_V)) 0x3000
      (PA2PTE 0x4000 ||| (PTE_V ||| PTE_U))) a :=
    ld64_congr fun x _ hx => put_out (Or.inl (by omega))
  have hzero : ld64 (fun _ => 0) a = 0 := by
    unfold ld64
    dsimp only
    decide
  rw [hput]
  split_ifs with h1 h2 h3
  · rw [h1, ld64_st64_ne (by norm_num), ld64_st64_ne (by norm_num), ld64_st64]
  · rw [h2, ld64_st64_ne (by norm_num), ld64_st64]
  · rw [h3, ld64_st64]
  · rw [ld64_st64_ne (by omega), ld64_st64_ne (by omega), ld64_st64_ne (by omega), hzero]

lemma greeting_entry {i : ℕ} (hi : i < 512) :
    ld64 greetingMem (0x1000 + 8 * i) = (if i = 0 then PA2PTE 0x2000 ||| PTE_V else 0) ∧
    ld64 greetingMem (0x2000 + 8 * i) = (if i = 0 then PA2PTE 0x3000 ||| PTE_V else 0) ∧
    ld64 greetingMem (0x3000 + 8 * i) =
      (if i = 0 then PA2PTE 0x4000 ||| (PTE_V ||| PTE_U) else 0) := by
  refine ⟨?_, ?_, ?_⟩ <;> rw [ld64_greeting (by omega) (by omega)] <;> split_ifs <;>
    first | rfl | omega

lemma page_entry {pa : ℕ} {f : Word} (hpa : pa < 2 ^ 64) (hal : pa % PGSIZE = 0) (hf : IsFlags f)
    (hV : f.getLsbD 0 = true) :
    has (PA2PTE pa ||| f) PTE_V = true ∧ PTE2PA (PA2PTE pa ||| f) = pa := by
  refine ⟨?_, pte2pa_mk hpa hal hf⟩
  rw [has_V, getLsbD_mk hpa (by omega)]
  exact hV

lemma greeting_tables (x : ℕ) :
    tableBelow greetingMem 0x1000 1 x = (if x = 0 then some 0x2000 else none) ∧
    tableBelow greetingMem 0x1000 2 x = (if x = 0 then some 0x3000 else none) := by
  have hal : 0x2000 % PGSIZE = 0 ∧ 0x3000 % PGSIZE = 0 := by
    unfold PGSIZE
    norm_num
  obtain ⟨hV2, hp2⟩ := page_entry (by norm_num) hal.1 isFlags_V rfl
  obtain ⟨hV1, hp1⟩ := page_entry (by norm_num) hal.2 isFlags_V rfl
  have hmod : ∀ y, y % 512 < 512 := fun y => Nat.mod_lt _ (by norm_num)
  have hone : ∀ y, tableBelow greetingMem 0x1000 1 y = if y = 0 then some 0x2000 else none := by
    intro y
    simp only [tableBelow]
    by_cases hy : y / 512 = 0
    · rw [if_pos hy, Option.bind_some, (greeting_entry (hmod y)).1]
      by_cases h0 : y = 0
      · subst h0
        simp only [Nat.zero_mod, if_true, hV2, hp2]
      · rw [if_neg (by omega : ¬ y % 512 = 0), if_neg h0, has_zero]
        rfl
    · rw [if_neg hy, if_neg (by rintro rfl; exact hy rfl), Option.bind_none]
  refine ⟨hone x, ?_⟩
  rw [tableBelow, hone]
  by_cases hx : x / 512 = 0
  · rw [if_pos hx, Option.bind_some]
    dsimp only
    rw [(greeting_entry (hmod x)).2.1]
    by_cases h0 : x = 0
    · subst h0
      simp only [Nat.zero_mod, if_true, hV1, hp1]
    · rw [if_neg (by omega : ¬ x % 512 = 0), if_neg h0, has_zero]
      rfl
  · rw [if_neg hx, if_neg (by rintro rfl; exact hx rfl), Option.bind_none]

lemma greeting_leaf (v : ℕ) : entries greetingMem 0x1000 v =
    if v = 0 then PA2PTE 0x4000 ||| (PTE_V ||| PTE_U) else 0 := by
  unfold entries leafAt tableAt
  rw [if_pos (by norm_num), (greeting_tables _).2]
  by_cases hv : v / 512 = 0
  · rw [if_pos hv]
    dsimp only
    rw [(greeting_entry (Nat.mod_lt _ (by norm_num))).2.2]
    exact if_congr (by omega) rfl rfl
  · rw [if_neg hv, if_neg (by rintro rfl; exact hv rfl)]

lemma greeting_noPage0 : NoPage0 greetingMem 0x1000 := by
  have hal : 0x4000 % PGSIZE = 0 := by
    unfold PGSIZE
    norm_num
  have hfl : IsFlags (PTE_V ||| PTE_U) := AddrSpace.isFlags_or isFlags_V AddrSpace.isFlags_U
  refine ⟨fun l x => ?_, fun v hv => ?_⟩
  · unfold tableAt
    by_cases hl : l ≤ 2
    · rw [if_pos hl]
      obtain rfl | rfl | rfl : l = 2 ∨ l = 1 ∨ l = 0 := by omega
      · change (if x = 0 then some 0x1000 else none) ≠ some 0
        split_ifs <;> simp
      · rw [(greeting_tables x).1]
        split_ifs <;> simp
      · rw [(greeting_tables x).2]
        split_ifs <;> simp
    · rw [if_neg hl]
      simp
  · rw [greeting_leaf] at hv ⊢
    split_ifs at hv ⊢ with h0
    · rw [(page_entry (by norm_num) hal hfl rfl).2]
      norm_num
    · rw [has_zero] at hv
      cases hv

/-- The greeting is read with its null, into a buffer of ten bytes. -/
theorem copyin_copyinstr_exact_greeting :
    ∃ dst, copyinstr 0x1000 0 10 ⟨greetingMem, [], fun _ => 0⟩ =
        .ok ((0, dst), ⟨greetingMem, [], fun _ => 0⟩) ∧
      dst = userBytes greetingMem 0x1000 0 3 := by
  have hal : 0x4000 % PGSIZE = 0 := by
    unfold PGSIZE
    norm_num
  have hfl : IsFlags (PTE_V ||| PTE_U) := AddrSpace.isFlags_or isFlags_V AddrSpace.isFlags_U
  obtain ⟨hV, hp⟩ := page_entry (by norm_num : 0x4000 < 2 ^ 64) hal hfl rfl
  have hU : has (PA2PTE 0x4000 ||| (PTE_V ||| PTE_U)) PTE_U = true := by
    rw [has_U, getLsbD_mk (by norm_num) (by omega)]
    rfl
  have hpage : ∀ i ≤ 2, i / PGSIZE = 0 ∧ i % PGSIZE = i := by
    intro i hi
    unfold PGSIZE
    omega
  have hmap : ∀ i ≤ 2, Mapped greetingMem 0x1000 (0 + i) := by
    intro i hi
    unfold Mapped
    rw [Nat.zero_add, (hpage i hi).1, greeting_leaf, if_pos rfl]
    exact ⟨by unfold MAXVA; omega, hV, hU⟩
  have hbyte : ∀ i ≤ 2, byteAt greetingMem 0x1000 (0 + i) = greetingMem (0x4000 + i) := by
    intro i hi
    unfold byteAt rd
    rw [Nat.zero_add, (hpage i hi).1, (hpage i hi).2, greeting_leaf, if_pos rfl, hp]
  have hnull : FirstNull greetingMem 0x1000 0 2 := by
    refine ⟨?_, fun i hi => ?_⟩
    · rw [hbyte 2 le_rfl]
      rfl
    · rw [hbyte i (by omega)]
      obtain rfl | rfl : i = 0 ∨ i = 1 := by omega
      · decide
      · decide
  obtain ⟨-, r, dst, hrun, -, -, hr, hdst⟩ := copyin_copyinstr_exact
    ⟨greetingMem, [], fun _ => 0⟩ 0x1000 greeting_noPage0 0 0 10
  have hr0 : r = 0 := hr.mpr ⟨2, by decide, hnull, hmap⟩
  subst hr0
  exact ⟨dst, hrun, hdst 2 (by decide) hnull hmap⟩

end Xv6.Copyin
