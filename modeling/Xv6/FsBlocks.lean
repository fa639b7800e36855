import Xv6.Fs

/-!
Who has which block. The places that name blocks are the slots of the inodes: the direct addresses,
the indirect block, and the entries of the indirect block. `Acct` says that the free map and the
slots agree; allocating a block fills one slot and freeing it clears one.
-/

namespace Xv6.Fs

open Xv6.ByteMem Xv6.Wp

variable {sb : Superblock}

/-! ### Indirect blocks -/

lemma toNat_ofNat_byte (v : ℕ) : (BitVec.ofNat 8 v).toNat = v % 256 := by
  rw [BitVec.toNat_ofNat]

lemma entry_setEntry_self (m : Mem) (j : ℕ) {v : ℕ} (hv : v < 2 ^ 32) :
    entry (setEntry m j v) j = v := by
  have hput : ∀ k, k < 4 → setEntry m j v (4 * j + k) =
      [BitVec.ofNat 8 v, BitVec.ofNat 8 (v / 256), BitVec.ofNat 8 (v / 65536),
        BitVec.ofNat 8 (v / 16777216)].getD k 0 := by
    intro k hk
    unfold setEntry
    rw [put_in (by omega) (by simp only [List.length_cons, List.length_nil]; omega)]
    rw [Nat.add_sub_cancel_left]
  have h0 := hput 0 (by omega)
  rw [Nat.add_zero] at h0
  unfold entry
  rw [h0, hput 1 (by omega), hput 2 (by omega), hput 3 (by omega)]
  simp only [List.getD_cons_zero, List.getD_cons_succ, toNat_ofNat_byte]
  omega

lemma entry_setEntry_ne (m : Mem) {j k : ℕ} (v : ℕ) (h : k ≠ j) :
    entry (setEntry m j v) k = entry m k := by
  have hput : ∀ x, (x < 4 * j ∨ 4 * j + 4 ≤ x) → setEntry m j v x = m x := by
    intro x hx
    unfold setEntry
    exact put_out (by simp only [List.length_cons, List.length_nil]; omega)
  unfold entry
  rw [hput _ (by omega), hput _ (by omega), hput _ (by omega), hput _ (by omega)]

@[simp] lemma entry_zero (j : ℕ) : entry (fun _ => 0) j = 0 := by
  simp [entry]

/-! ### Slots -/

/-- The number of slots of an inode: its addresses and the entries of its indirect block. -/
def NSLOT : ℕ := NDIRECT + 1 + NINDIRECT

/-- The block in a slot of an inode. -/
def slotAt (d : Dinode) (blocks : ℕ → Mem) (k : ℕ) : ℕ :=
  if k ≤ NDIRECT then d.addrs k
  else if k < NSLOT ∧ d.addrs NDIRECT ≠ 0 then
    entry (blocks (d.addrs NDIRECT)) (k - NDIRECT - 1)
  else 0

/-- The block in a slot of an allocated inode. -/
def refAt (D : ℕ → Dinode) (blocks : ℕ → Mem) (x k : ℕ) : ℕ :=
  if (D x).type = .free then 0 else slotAt (D x) blocks k

/-- The slot of block `bn` of a file. -/
def slot (bn : ℕ) : ℕ := if bn < NDIRECT then bn else bn + 1

/-- Every named block is a data block and named once, and the map has exactly these blocks and
those before the data blocks. -/
structure Acct (sb : Superblock) (bits : ℕ → Bool) (R : ℕ → ℕ → ℕ) : Prop where
  inj : ∀ x y k l, R x k ≠ 0 → R x k = R y l → x = y ∧ k = l
  range : ∀ x k, R x k ≠ 0 → sb.nmeta ≤ R x k ∧ R x k < sb.size
  bits : ∀ b, b < sb.size → (bits b = true ↔ b < sb.nmeta ∨ ∃ x k, R x k = b)

/-- One slot holds another block. -/
def setRef (R : ℕ → ℕ → ℕ) (x k b : ℕ) : ℕ → ℕ → ℕ := fun y l =>
  if y = x ∧ l = k then b else R y l

variable {bits : ℕ → Bool} {R : ℕ → ℕ → ℕ} {x k b : ℕ}

lemma setRef_self : setRef R x k b x k = b := if_pos ⟨rfl, rfl⟩

lemma setRef_ne {y l : ℕ} (h : ¬(y = x ∧ l = k)) : setRef R x k b y l = R y l := if_neg h

lemma nmeta_pos (sb : Superblock) : 0 < sb.nmeta := Nat.succ_pos _

lemma Acct.free (h : Acct sb bits R) (hb : b < sb.size) (hf : bits b = false) :
    sb.nmeta ≤ b ∧ ∀ x k, R x k ≠ b := by
  have hn : ¬(b < sb.nmeta ∨ ∃ x k, R x k = b) := fun hc => by
    rw [(h.bits b hb).mpr hc] at hf
    cases hf
  rw [not_or] at hn
  exact ⟨by omega, fun x k he => hn.2 ⟨x, k, he⟩⟩

/-- A free block goes into an empty slot. -/
lemma Acct.attach (h : Acct sb bits R) (hb : b < sb.size) (hf : bits b = false)
    (hk : R x k = 0) : Acct sb (Function.update bits b true) (setRef R x k b) := by
  obtain ⟨hge, hno⟩ := h.free hb hf
  have hpos := nmeta_pos sb
  refine ⟨fun y z l m hy he => ?_, fun y l hy => ?_, fun c hc => ?_⟩
  · by_cases h1 : y = x ∧ l = k
    · by_cases h2 : z = x ∧ m = k
      · exact ⟨h1.1.trans h2.1.symm, h1.2.trans h2.2.symm⟩
      · rw [h1.1, h1.2, setRef_self, setRef_ne h2] at he
        exact absurd he.symm (hno z m)
    · rw [setRef_ne h1] at hy he
      by_cases h2 : z = x ∧ m = k
      · rw [h2.1, h2.2, setRef_self] at he
        exact absurd he (hno y l)
      · rw [setRef_ne h2] at he
        exact h.inj y z l m hy he
  · by_cases h1 : y = x ∧ l = k
    · rw [h1.1, h1.2, setRef_self]
      exact ⟨hge, hb⟩
    · rw [setRef_ne h1] at hy ⊢
      exact h.range y l hy
  · by_cases hcb : c = b
    · subst hcb
      simp only [Function.update_self, true_iff]
      exact Or.inr ⟨x, k, setRef_self⟩
    · rw [Function.update_of_ne hcb, h.bits c hc]
      refine or_congr_right' fun hm => ⟨fun ⟨y, l, he⟩ => ⟨y, l, ?_⟩, fun ⟨y, l, he⟩ => ⟨y, l, ?_⟩⟩
      · rw [setRef_ne]
        · exact he
        · rintro ⟨rfl, rfl⟩
          omega
      · by_cases h1 : y = x ∧ l = k
        · rw [h1.1, h1.2, setRef_self] at he
          exact absurd he.symm hcb
        · rwa [setRef_ne h1] at he

/-- The block of a slot is given back. -/
lemma Acct.detach (h : Acct sb bits R) (hk : R x k ≠ 0) :
    bits (R x k) = true ∧
      Acct sb (Function.update bits (R x k) false) (setRef R x k 0) := by
  obtain ⟨hge, hlt⟩ := h.range x k hk
  have hpos := nmeta_pos sb
  refine ⟨(h.bits _ hlt).mpr (Or.inr ⟨x, k, rfl⟩), fun y z l m hy he => ?_, fun y l hy => ?_,
    fun c hc => ?_⟩
  · have h1 : ¬(y = x ∧ l = k) := fun h1 => hy (by rw [h1.1, h1.2, setRef_self])
    have h2 : ¬(z = x ∧ m = k) := fun h2 => hy (by rw [he, h2.1, h2.2, setRef_self])
    rw [setRef_ne h1] at hy he
    rw [setRef_ne h2] at he
    exact h.inj y z l m hy he
  · have h1 : ¬(y = x ∧ l = k) := fun h1 => hy (by rw [h1.1, h1.2, setRef_self])
    rw [setRef_ne h1] at hy ⊢
    exact h.range y l hy
  · by_cases hcb : c = R x k
    · subst hcb
      simp only [Function.update_self, Bool.false_eq_true, false_iff, not_or]
      refine ⟨by omega, ?_⟩
      rintro ⟨y, l, he⟩
      by_cases h1 : y = x ∧ l = k
      · rw [h1.1, h1.2, setRef_self] at he
        exact hk he.symm
      · rw [setRef_ne h1] at he
        have := h.inj x y k l hk he.symm
        exact h1 ⟨this.1.symm, this.2.symm⟩
    · rw [Function.update_of_ne hcb, h.bits c hc]
      refine or_congr_right' fun hm => ⟨fun ⟨y, l, he⟩ => ⟨y, l, ?_⟩, fun ⟨y, l, he⟩ => ⟨y, l, ?_⟩⟩
      · rw [setRef_ne]
        · exact he
        · rintro ⟨rfl, rfl⟩
          exact hcb he.symm
      · by_cases h1 : y = x ∧ l = k
        · rw [h1.1, h1.2, setRef_self] at he
          omega
        · rwa [setRef_ne h1] at he

lemma Acct.zero_used (h : Acct sb bits R) (hb : 0 < sb.size) : bits 0 = true :=
  (h.bits 0 hb).mpr (Or.inl (nmeta_pos sb))

/-! ### The slots of the inode a call works on -/

/-- The disk inodes, with that of table entry `i` as it is in memory. -/
def cur (s : Disk) (i : ℕ) : ℕ → Dinode :=
  Function.update s.dinodes (s.inodes i).inum (s.inodes i).copy

/-- The slots as they are in memory. -/
def refs (s : Disk) (i : ℕ) : ℕ → ℕ → ℕ := refAt (cur s i) s.blocks

variable {s t u : Disk} {i : ℕ}

lemma cur_self (s : Disk) (i : ℕ) : cur s i (s.inodes i).inum = (s.inodes i).copy :=
  Function.update_self _ _ _

lemma cur_ne {y : ℕ} (h : y ≠ (s.inodes i).inum) : cur s i y = s.dinodes y :=
  Function.update_of_ne h _ _

lemma refs_addr (ht : (s.inodes i).copy.type ≠ .free) {k : ℕ} (hk : k ≤ NDIRECT) :
    refs s i (s.inodes i).inum k = (s.inodes i).copy.addrs k := by
  unfold refs refAt slotAt
  rw [cur_self, if_neg ht, if_pos hk]

lemma refs_entry (ht : (s.inodes i).copy.type ≠ .free) {j : ℕ} (hj : j < NINDIRECT)
    (hind : (s.inodes i).copy.addrs NDIRECT ≠ 0) :
    refs s i (s.inodes i).inum (NDIRECT + 1 + j) =
      entry (s.blocks ((s.inodes i).copy.addrs NDIRECT)) j := by
  unfold refs refAt slotAt NSLOT
  rw [cur_self, if_neg ht, if_neg (by omega), if_pos ⟨by omega, hind⟩]
  congr 1
  omega

/-- `bmap` has added blocks to table entry `i` and nothing else. -/
structure Grown (sb : Superblock) (i : ℕ) (s t : Disk) : Prop where
  acct : Acct sb t.bits (refs t i)
  dinodes : t.dinodes = s.dinodes
  other : ∀ j, j ≠ i → t.inodes j = s.inodes j
  self : ∃ a, t.inodes i = { s.inodes i with copy := { (s.inodes i).copy with addrs := a } }
  kept : ∀ y k, refs s i y k ≠ 0 → refs t i y k = refs s i y k
  data : ∀ y k, k ≠ NDIRECT → refs s i y k ≠ 0 → t.blocks (refs s i y k) = s.blocks (refs s i y k)

lemma Grown.refl (h : Acct sb s.bits (refs s i)) : Grown sb i s s :=
  ⟨h, rfl, fun _ _ => rfl, ⟨(s.inodes i).copy.addrs, rfl⟩, fun _ _ _ => rfl, fun _ _ _ _ => rfl⟩

lemma Grown.trans (h1 : Grown sb i s t) (h2 : Grown sb i t u) : Grown sb i s u := by
  obtain ⟨a, ha⟩ := h1.self
  obtain ⟨c, hc⟩ := h2.self
  refine ⟨h2.acct, h2.dinodes.trans h1.dinodes, fun j hj => (h2.other j hj).trans (h1.other j hj),
    ⟨c, by rw [hc, ha]⟩, fun y k hk => ?_, fun y k hn hk => ?_⟩
  · have hkt := h1.kept y k hk
    rw [h2.kept y k (by rw [hkt]; exact hk), hkt]
  · have hkt := h1.kept y k hk
    have hd := h2.data y k hn (by rw [hkt]; exact hk)
    rw [hkt] at hd
    rw [hd, h1.data y k hn hk]

lemma Grown.copy_type (h : Grown sb i s t) : (t.inodes i).copy.type = (s.inodes i).copy.type := by
  obtain ⟨a, ha⟩ := h.self
  rw [ha]

lemma Grown.inum (h : Grown sb i s t) : (t.inodes i).inum = (s.inodes i).inum := by
  obtain ⟨a, ha⟩ := h.self
  rw [ha]

lemma refAt_beyond (D : ℕ → Dinode) (m : ℕ → Mem) (y : ℕ) {l : ℕ} (hl : ¬l < NSLOT) :
    refAt D m y l = 0 := by
  unfold refAt slotAt
  split_ifs with h1 h2 h3
  · rfl
  · unfold NSLOT at hl
    omega
  · exact absurd h3.1 hl
  · rfl

lemma refAt_congr {D D' : ℕ → Dinode} {m m' : ℕ → Mem} {y : ℕ} (hD : D' y = D y)
    (hm : ∀ c, c ≠ 0 → refAt D m y NDIRECT = c → m' c = m c) (l : ℕ) :
    refAt D' m' y l = refAt D m y l := by
  unfold refAt
  rw [hD]
  split_ifs with hf
  · rfl
  · have hind : refAt D m y NDIRECT = (D y).addrs NDIRECT := by
      unfold refAt slotAt
      rw [if_neg hf, if_pos (Nat.le_refl _)]
    unfold slotAt
    split_ifs with h1 h2
    · rfl
    · rw [hm _ h2.2 hind]
    · rfl

lemma refAt_addr {D : ℕ → Dinode} (m : ℕ → Mem) (ht : (D x).type ≠ .free) (hk : k ≤ NDIRECT) :
    refAt D m x k = (D x).addrs k := by
  unfold refAt slotAt
  rw [if_neg ht, if_pos hk]

lemma refAt_entry {D : ℕ → Dinode} (m : ℕ → Mem) (ht : (D x).type ≠ .free) {j : ℕ}
    (hj : j < NINDIRECT) (hind : (D x).addrs NDIRECT ≠ 0) :
    refAt D m x (NDIRECT + 1 + j) = entry (m ((D x).addrs NDIRECT)) j := by
  unfold refAt slotAt NSLOT
  rw [if_neg ht, if_neg (by omega), if_pos ⟨by omega, hind⟩]
  congr 1
  omega

/-- The slots after an unnamed, zeroed block has gone into an address of inode `x`. -/
lemma refAt_setAddr {D : ℕ → Dinode} {m : ℕ → Mem} (ht : (D x).type ≠ .free) (hk : k ≤ NDIRECT)
    (hz : (D x).addrs k = 0) (hno : ∀ y l, refAt D m y l ≠ b) :
    refAt (Function.update D x { D x with addrs := Function.update (D x).addrs k b })
      (Function.update m b fun _ => 0) = setRef (refAt D m) x k b := by
  have hblk : ∀ c, c ≠ b → Function.update m b (fun _ => 0) c = m c :=
    fun c hc => Function.update_of_ne hc _ _
  funext y l
  by_cases hy : y = x
  · subst hy
    by_cases hl : l ≤ NDIRECT
    · rw [refAt_addr _ (by rw [Function.update_self]; exact ht) hl, Function.update_self]
      by_cases hlk : l = k
      · rw [hlk, setRef_self]
        exact Function.update_self _ _ _
      · rw [setRef_ne fun hc => hlk hc.2, refAt_addr m ht hl]
        exact Function.update_of_ne hlk _ _
    · rw [setRef_ne fun hc => by omega]
      unfold refAt slotAt
      rw [Function.update_self, if_neg ht, if_neg ht, if_neg hl, if_neg hl]
      dsimp only
      by_cases hkn : k = NDIRECT
      · -- the new indirect block is empty
        subst hkn
        simp only [Function.update_self, entry_zero, hz, ne_eq, not_true_eq_false, and_false,
          if_false, ite_self]
      · simp only [Function.update_of_ne (Ne.symm hkn)]
        split_ifs with hc
        · have hne := hno y NDIRECT
          rw [refAt_addr m ht (Nat.le_refl _)] at hne
          rw [hblk _ hne]
        · rfl
  · rw [setRef_ne fun hc => hy hc.1]
    refine refAt_congr (Function.update_of_ne hy _ _) (fun c _ he => hblk c ?_) l
    rintro rfl
    exact hno y NDIRECT he

lemma refAt_setEntry {D : ℕ → Dinode} {m : ℕ → Mem} (ht : (D x).type ≠ .free) {j : ℕ}
    (hj : j < NINDIRECT) (hind : (D x).addrs NDIRECT ≠ 0)
    (hown : ∀ y, refAt D m y NDIRECT = (D x).addrs NDIRECT → y = x) (hb : b < 2 ^ 32) :
    refAt D (Function.update m ((D x).addrs NDIRECT) (setEntry (m ((D x).addrs NDIRECT)) j b)) =
      setRef (refAt D m) x (NDIRECT + 1 + j) b := by
  funext y l
  by_cases hy : y = x
  · subst hy
    by_cases hl : l ≤ NDIRECT
    · rw [setRef_ne fun hc => by omega, refAt_addr _ ht hl, refAt_addr _ ht hl]
    · by_cases hlt : l < NSLOT
      · obtain ⟨l', rfl⟩ : ∃ l', l = NDIRECT + 1 + l' := ⟨l - NDIRECT - 1, by omega⟩
        have hl' : l' < NINDIRECT := by unfold NSLOT at hlt; omega
        rw [refAt_entry _ ht hl' hind, Function.update_self]
        by_cases hlj : l' = j
        · rw [hlj, setRef_self]
          exact entry_setEntry_self _ _ hb
        · rw [entry_setEntry_ne _ _ hlj, setRef_ne fun hc => by omega, refAt_entry _ ht hl' hind]
      · rw [setRef_ne fun hc => by unfold NSLOT at hlt; omega]
        rw [refAt_beyond _ _ _ hlt, refAt_beyond _ _ _ hlt]
  · rw [setRef_ne fun hc => hy hc.1]
    refine refAt_congr rfl (fun c hc he => Function.update_of_ne ?_ _ _) l
    rintro rfl
    exact hy (hown y he)

lemma refAt_update {D : ℕ → Dinode} {m : ℕ → Mem} (hno : ∀ y, refAt D m y NDIRECT ≠ b) (v : Mem) :
    refAt D (Function.update m b v) = refAt D m := by
  funext y l
  refine refAt_congr rfl (fun c _ he => Function.update_of_ne ?_ _ _) l
  rintro rfl
  exact hno y he

lemma wp_balloc {Q : ℕ → Disk → Prop} {E : Panic → Prop} (h : Acct sb s.bits R)
    (hsome : ∀ b, b ≠ 0 → b < sb.size → s.bits b = false → Q b { s with
      bits := Function.update s.bits b true
      blocks := Function.update s.blocks b fun _ => 0 })
    (hnone : Q 0 s) : wp (balloc sb) Q E s := by
  unfold balloc
  simp only [wp_bind, wp_get]
  cases hf : (List.range sb.size).find? fun b => !s.bits b with
  | none => exact hnone
  | some b =>
    have hlt := List.mem_range.mp (List.mem_of_find?_eq_some hf)
    have hfree : s.bits b = false := by simpa using List.find?_some hf
    refine hsome b ?_ hlt hfree
    rintro rfl
    rw [h.zero_used hlt] at hfree
    cases hfree

lemma refs_putAddr (ht : (s.inodes i).copy.type ≠ .free) (hk : k ≤ NDIRECT)
    (hz : (s.inodes i).copy.addrs k = 0) (hno : ∀ y l, refs s i y l ≠ b) (bits : ℕ → Bool) :
    refs { s with
      bits := bits
      blocks := Function.update s.blocks b fun _ => 0
      inodes := Function.update s.inodes i { s.inodes i with
        copy := { (s.inodes i).copy with
          addrs := Function.update (s.inodes i).copy.addrs k b } } } i =
      setRef (refs s i) (s.inodes i).inum k b := by
  have hset := refAt_setAddr (D := cur s i) (x := (s.inodes i).inum) (by rwa [cur_self]) hk
    (by rwa [cur_self]) hno
  rw [cur_self] at hset
  unfold cur at hset
  rw [Function.update_idem] at hset
  unfold refs cur
  dsimp only
  rw [Function.update_self]
  exact hset

lemma refs_putEntry (h : Acct sb s.bits (refs s i)) (ht : (s.inodes i).copy.type ≠ .free) {j : ℕ}
    (hj : j < NINDIRECT) (hind : (s.inodes i).copy.addrs NDIRECT ≠ 0) (hb : b < sb.size)
    (hno : ∀ y l, refs s i y l ≠ b) (bits : ℕ → Bool) :
    let m := Function.update s.blocks b fun _ => 0
    refs { s with
      bits := bits
      blocks := Function.update m ((s.inodes i).copy.addrs NDIRECT)
        (setEntry (m ((s.inodes i).copy.addrs NDIRECT)) j b) } i =
      setRef (refs s i) (s.inodes i).inum (NDIRECT + 1 + j) b := by
  intro m
  have hrind := refs_addr ht (Nat.le_refl NDIRECT)
  have hm : refAt (cur s i) m = refs s i := refAt_update (fun y => hno y NDIRECT) _
  have hset := refAt_setEntry (D := cur s i) (m := m) (x := (s.inodes i).inum) (b := b)
    (by rwa [cur_self]) hj (by rwa [cur_self]) (fun y hy => ?_) (Nat.lt_trans hb sb.size_lt)
  · rw [cur_self, hm] at hset
    exact hset
  · rw [hm, cur_self] at hy
    exact (h.inj y _ NDIRECT NDIRECT (by rw [hy]; exact hind) (hy.trans hrind.symm)).1

/-- A new block for an address of the inode. -/
lemma grown_addr (h : Acct sb s.bits (refs s i)) (ht : (s.inodes i).copy.type ≠ .free)
    (hk : k ≤ NDIRECT) (hz : (s.inodes i).copy.addrs k = 0) (hb : b < sb.size)
    (hf : s.bits b = false) :
    Grown sb i s { s with
      bits := Function.update s.bits b true
      blocks := Function.update s.blocks b fun _ => 0
      inodes := Function.update s.inodes i { s.inodes i with
        copy := { (s.inodes i).copy with
          addrs := Function.update (s.inodes i).copy.addrs k b } } } := by
  set t : Disk := { s with
    bits := Function.update s.bits b true
    blocks := Function.update s.blocks b fun _ => 0
    inodes := Function.update s.inodes i { s.inodes i with
      copy := { (s.inodes i).copy with
        addrs := Function.update (s.inodes i).copy.addrs k b } } } with htdef
  obtain ⟨hge, hno⟩ := h.free hb hf
  have hpos := nmeta_pos sb
  have hself : t.inodes i = { s.inodes i with copy := { (s.inodes i).copy with
      addrs := Function.update (s.inodes i).copy.addrs k b } } := Function.update_self _ _ _
  have hblk : ∀ c, c ≠ b → t.blocks c = s.blocks c := fun c hc => Function.update_of_ne hc _ _
  have hrefs : refs t i = setRef (refs s i) (s.inodes i).inum k b := refs_putAddr ht hk hz hno _
  have hempty : refs s i (s.inodes i).inum k = 0 := by rw [refs_addr ht hk, hz]
  refine ⟨?_, rfl, fun j hj => Function.update_of_ne hj _ _, ⟨_, hself⟩, fun y l hl => ?_,
    fun y l _ hl => hblk _ (hno y l)⟩
  · rw [hrefs]
    exact h.attach hb hf hempty
  · rw [hrefs, setRef_ne]
    rintro ⟨rfl, rfl⟩
    exact hl hempty

/-- A new block for an entry of the indirect block. -/
lemma grown_entry (h : Acct sb s.bits (refs s i)) (ht : (s.inodes i).copy.type ≠ .free) {j : ℕ}
    (hj : j < NINDIRECT) (hind : (s.inodes i).copy.addrs NDIRECT ≠ 0)
    (hz : entry (s.blocks ((s.inodes i).copy.addrs NDIRECT)) j = 0) (hb : b < sb.size)
    (hf : s.bits b = false) :
    let m := Function.update s.blocks b fun _ => 0
    Grown sb i s { s with
      bits := Function.update s.bits b true
      blocks := Function.update m ((s.inodes i).copy.addrs NDIRECT)
        (setEntry (m ((s.inodes i).copy.addrs NDIRECT)) j b) } := by
  intro m
  set ind := (s.inodes i).copy.addrs NDIRECT with hindeq
  set t : Disk := { s with
    bits := Function.update s.bits b true
    blocks := Function.update m ind (setEntry (m ind) j b) } with htdef
  obtain ⟨hge, hno⟩ := h.free hb hf
  have hrind : refs s i (s.inodes i).inum NDIRECT = ind := refs_addr ht (Nat.le_refl _)
  have hib : ind ≠ b := by
    rw [← hrind]
    exact hno _ _
  have hblk : ∀ c, c ≠ b → c ≠ ind → t.blocks c = s.blocks c := by
    intro c h1 h2
    simp only [htdef, m]
    rw [Function.update_of_ne h2, Function.update_of_ne h1]
  have hbind : t.blocks ind = setEntry (s.blocks ind) j b := by
    simp only [htdef, m]
    rw [Function.update_self, Function.update_of_ne hib]
  have hempty : refs s i (s.inodes i).inum (NDIRECT + 1 + j) = 0 := by
    rw [refs_entry ht hj hind]
    exact hz
  have hrefs : refs t i = setRef (refs s i) (s.inodes i).inum (NDIRECT + 1 + j) b :=
    refs_putEntry h ht hj hind hb hno _
  refine ⟨?_, rfl, fun _ _ => rfl, ⟨(s.inodes i).copy.addrs, rfl⟩, fun y l hl => ?_,
    fun y l hn hl => hblk _ (hno y l) fun he => ?_⟩
  · rw [hrefs]
    exact h.attach hb hf hempty
  · rw [hrefs, setRef_ne]
    rintro ⟨rfl, rfl⟩
    exact hl hempty
  · exact hn (h.inj y _ l NDIRECT hl (he.trans hrind.symm)).2

/-! ### bmap -/

lemma bmapAddr_spec {E : Panic → Prop} (h : Acct sb s.bits (refs s i))
    (ht : (s.inodes i).copy.type ≠ .free) (hk : k ≤ NDIRECT) :
    wp (bmapAddr sb i k) (fun addr t => Grown sb i s t ∧
      (addr ≠ 0 → (t.inodes i).copy.addrs k = addr) ∧
      ((s.inodes i).copy.addrs k ≠ 0 → addr = (s.inodes i).copy.addrs k ∧ t = s)) E s := by
  unfold bmapAddr
  simp only [wp_bind, wp_get]
  by_cases hz : (s.inodes i).copy.addrs k = 0
  · rw [if_pos hz]
    simp only [wp_bind]
    refine wp_balloc h (fun b hb0 hb hf => ?_) ?_
    · rw [if_neg hb0]
      simp only [wp_bind, setAddr, setCopy, setInode, wp_modify, wp_pure]
      exact ⟨grown_addr h ht hk hz hb hf, fun _ => by simp, fun hc => absurd hz hc⟩
    · rw [if_pos rfl]
      exact ⟨Grown.refl h, fun hc => absurd rfl hc, fun hc => absurd hz hc⟩
  · rw [if_neg hz]
    exact ⟨Grown.refl h, fun _ => rfl, fun _ => ⟨rfl, rfl⟩⟩

/-- `bmap` finds the block in the slot, or fills the slot, or there is no block left. -/
lemma bmap_spec {E : Panic → Prop} (h : Acct sb s.bits (refs s i))
    (ht : (s.inodes i).copy.type ≠ .free) {bn : ℕ} (hbn : bn < MAXFILE) :
    wp (bmap sb i bn) (fun addr t => Grown sb i s t ∧
      (addr ≠ 0 → refs t i (s.inodes i).inum (slot bn) = addr) ∧
      (refs s i (s.inodes i).inum (slot bn) ≠ 0 →
        addr = refs s i (s.inodes i).inum (slot bn) ∧ t = s)) E s := by
  unfold bmap
  by_cases hd : bn < NDIRECT
  · rw [if_pos hd]
    refine wp_post (bmapAddr_spec h ht (Nat.le_of_lt hd)) ?_
    rintro addr t ⟨hg, h1, h2⟩
    refine ⟨hg, ?_, ?_⟩
    · intro ha
      rw [slot, if_pos hd, ← hg.inum, refs_addr (by rw [hg.copy_type]; exact ht) (Nat.le_of_lt hd)]
      exact h1 ha
    · rw [slot, if_pos hd, refs_addr ht (Nat.le_of_lt hd)]
      exact h2
  rw [if_neg hd]
  have hj : bn - NDIRECT < NINDIRECT := by unfold MAXFILE at hbn; omega
  have hslot : slot bn = NDIRECT + 1 + (bn - NDIRECT) := by
    rw [slot, if_neg hd]
    omega
  rw [if_pos hj, hslot, wp_bind]
  refine wp_post (bmapAddr_spec h ht (Nat.le_refl _)) ?_
  rintro ind t ⟨hg, h1, h2⟩
  have htt : (t.inodes i).copy.type ≠ .free := by rw [hg.copy_type]; exact ht
  by_cases hind : ind = 0
  · rw [if_pos hind]
    refine ⟨hg, fun hc => absurd rfl hc, fun hr => ?_⟩
    -- a full slot has an indirect block
    have ha : (s.inodes i).copy.addrs NDIRECT ≠ 0 := by
      intro ha
      refine hr ?_
      unfold refs refAt slotAt
      rw [cur_self, if_neg ht, if_neg (by omega), if_neg fun hc => hc.2 ha]
    exact absurd (hind ▸ (h2 ha).1).symm ha
  rw [if_neg hind]
  have hti := h1 hind
  have hindt : (t.inodes i).copy.addrs NDIRECT ≠ 0 := by rw [hti]; exact hind
  have hent := refs_entry htt hj hindt
  rw [hti, hg.inum] at hent
  simp only [wp_bind, wp_get]
  by_cases hz : entry (t.blocks ind) (bn - NDIRECT) = 0
  · rw [if_pos hz]
    simp only [wp_bind]
    refine wp_balloc hg.acct (fun b hb0 hb hf => ?_) ?_
    · rw [if_neg hb0]
      simp only [wp_bind, wp_get, setBlock, wp_modify, wp_pure]
      have hge := grown_entry hg.acct htt hj hindt (by rw [hti]; exact hz) hb hf
      simp only [hti] at hge
      refine ⟨hg.trans hge, fun _ => ?_, fun hr => ?_⟩
      · have hnew := refs_entry (s := { t with
          bits := Function.update t.bits b true
          blocks := Function.update (Function.update t.blocks b fun _ => 0) ind
            (setEntry (Function.update t.blocks b (fun _ => 0) ind) (bn - NDIRECT) b) })
          (i := i) htt hj hindt
        rw [← hg.inum, hnew]
        simp only [hti, Function.update_self]
        exact entry_setEntry_self _ _ (Nat.lt_trans hb sb.size_lt)
      · have hk := hg.kept _ _ hr
        rw [hent, hz] at hk
        exact absurd hk.symm hr
    · rw [if_pos rfl]
      refine ⟨hg, fun hc => absurd rfl hc, fun hr => ?_⟩
      have hk := hg.kept _ _ hr
      rw [hent, hz] at hk
      exact absurd hk.symm hr
  · rw [if_neg hz]
    refine ⟨hg, fun _ => hent, fun hr => ?_⟩
    have hk := hg.kept _ _ hr
    rw [hent] at hk
    have ha : (s.inodes i).copy.addrs NDIRECT ≠ 0 := by
      intro ha
      refine hr ?_
      unfold refs refAt slotAt
      rw [cur_self, if_neg ht, if_neg (by omega), if_neg fun hc => hc.2 ha]
    exact ⟨hk, (h2 ha).2⟩

/-! ### readi -/

/-- Byte `o` of the file of table entry `i`. -/
def byteAt (s : Disk) (i o : ℕ) : Byte :=
  s.blocks (refs s i (s.inodes i).inum (slot (o / BSIZE))) (o % BSIZE)

lemma readiLoop_bytes {E : Panic → Prop} (h : Acct sb s.bits (refs s i))
    (ht : (s.inodes i).copy.type ≠ .free) (n : ℕ) :
    ∀ fuel tot off acc, tot ≤ n → n - tot < fuel →
      (∀ o, off ≤ o → o < off + (n - tot) → o / BSIZE < MAXFILE ∧
        refs s i (s.inodes i).inum (slot (o / BSIZE)) ≠ 0) →
      wp (readiLoop sb i kernelDst n fuel tot off acc) (fun r t => t = s ∧ r.1 = n ∧
        r.2 = acc ++ (List.range (n - tot)).map fun k => byteAt s i (off + k)) E s := by
  intro fuel
  induction fuel with
  | zero => intro tot off acc _ hf; omega
  | succ fuel ih =>
    intro tot off acc hle hf hall
    rw [readiLoop]
    by_cases hn : tot < n
    · rw [if_pos hn, wp_bind]
      obtain ⟨hbn, hr⟩ := hall off (Nat.le_refl _) (by omega)
      refine wp_post (bmap_spec h ht hbn) ?_
      rintro addr t ⟨_, _, hfound⟩
      obtain ⟨rfl, rfl⟩ := hfound hr
      rw [if_neg hr, wp_bind, wp_get]
      dsimp only
      rw [show kernelDst tot (min (n - tot) (BSIZE - off % BSIZE)) = true from rfl, if_pos rfl]
      set m := min (n - tot) (BSIZE - off % BSIZE) with hm
      have hpos : 0 < m := by
        have := Nat.mod_lt off (show BSIZE > 0 by decide)
        omega
      refine wp_post (ih (tot + m) (off + m) _ (by omega) (by omega) fun o h1 h2 =>
        hall o (by omega) (by omega)) ?_
      rintro r u ⟨hu, hr1, hr2⟩
      refine ⟨hu, hr1, ?_⟩
      have hsplit : n - tot = m + (n - (tot + m)) := by omega
      rw [hr2, hsplit, List.range_add, List.map_append, List.map_map, List.append_assoc]
      congr 2
      · refine List.map_congr_left fun k hk => ?_
        have hk : k < m := List.mem_range.mp hk
        have hB : 0 < BSIZE := by decide
        have hlt : off % BSIZE + k < BSIZE := by omega
        have hdiv : (off + k) / BSIZE = off / BSIZE := by
          rw [← Nat.div_add_mod off BSIZE, Nat.add_assoc, Nat.mul_add_div hB,
            Nat.div_eq_of_lt hlt, Nat.mul_add_div hB, Nat.div_eq_of_lt (Nat.mod_lt _ hB)]
        have hmod : (off + k) % BSIZE = off % BSIZE + k := by
          rw [Nat.add_mod, Nat.mod_eq_of_lt (show k < BSIZE by omega), Nat.mod_eq_of_lt hlt]
        unfold byteAt
        rw [hdiv, hmod]
      · refine List.map_congr_left fun k _ => ?_
        simp only [Function.comp]
        rw [Nat.add_assoc]
    · rw [if_neg hn]
      have hz : n - tot = 0 := by omega
      refine ⟨rfl, ?_, ?_⟩
      · change ((tot : ℕ) : ℤ) = n
        congr 1
        omega
      · simp [hz]

lemma readi_file {E : Panic → Prop} (h : Acct sb s.bits (refs s i))
    (ht : (s.inodes i).copy.type ≠ .free) {n : ℕ} (hn : n = (s.inodes i).copy.size)
    (hlt : n < 2 ^ 32) (hall : ∀ bn, bn * BSIZE < n → bn < MAXFILE ∧
      refs s i (s.inodes i).inum (slot bn) ≠ 0) :
    wp (readi sb i kernelDst 0 n) (fun r t => t = s ∧ r.1 = n ∧
      r.2 = (List.range n).map (byteAt s i)) E s := by
  unfold readi
  simp only [wp_bind, wp_get, Nat.zero_add, Nat.mod_eq_of_lt hlt, ← hn]
  rw [if_neg (by omega), if_neg (by omega)]
  refine wp_post (readiLoop_bytes h ht n (n + 1) 0 0 [] (Nat.zero_le _) (by omega)
    fun o _ ho => hall (o / BSIZE) ?_) ?_
  · have := Nat.div_mul_le_self o BSIZE
    omega
  · rintro r t ⟨h1, h2, h3⟩
    exact ⟨h1, h2, by simpa using h3⟩

/-! ### itrunc -/

lemma wp_bfree {Q : Unit → Disk → Prop} {E : Panic → Prop} (hb : s.bits b = true)
    (hQ : Q () { s with bits := Function.update s.bits b false }) : wp (bfree b) Q E s := by
  unfold bfree
  simp only [wp_bind, wp_get]
  rw [if_neg (by simp [hb])]
  exact hQ

/-- One address of the inode is cleared. -/
lemma refs_clear (ht : (s.inodes i).copy.type ≠ .free) (hk : k < NDIRECT) (bits : ℕ → Bool) :
    refs { s with
      bits := bits
      inodes := Function.update s.inodes i { s.inodes i with
        copy := { (s.inodes i).copy with
          addrs := Function.update (s.inodes i).copy.addrs k 0 } } } i =
      setRef (refs s i) (s.inodes i).inum k 0 := by
  set t : Disk := { s with
    bits := bits
    inodes := Function.update s.inodes i { s.inodes i with
      copy := { (s.inodes i).copy with
        addrs := Function.update (s.inodes i).copy.addrs k 0 } } } with htdef
  have hself : t.inodes i = { s.inodes i with copy := { (s.inodes i).copy with
      addrs := Function.update (s.inodes i).copy.addrs k 0 } } := Function.update_self _ _ _
  funext y l
  by_cases hy : y = (s.inodes i).inum
  · subst hy
    have hcur : cur t i (s.inodes i).inum = { (s.inodes i).copy with
        addrs := Function.update (s.inodes i).copy.addrs k 0 } := by
      have := cur_self t i
      rwa [hself] at this
    have hne : NDIRECT ≠ k := by omega
    by_cases hlk : l = k
    · rw [hlk, setRef_self]
      unfold refs refAt slotAt
      rw [hcur, if_neg ht, if_pos (Nat.le_of_lt hk)]
      exact Function.update_self _ _ _
    · rw [setRef_ne fun hc => hlk hc.2]
      unfold refs refAt slotAt
      rw [hcur, cur_self]
      simp only [Function.update_of_ne hne, Function.update_of_ne hlk]
      rfl
  · rw [setRef_ne fun hc => hy hc.1]
    refine refAt_congr ?_ (fun _ _ _ => rfl) l
    have hyt : y ≠ (t.inodes i).inum := by rw [hself]; exact hy
    rw [cur_ne hyt, cur_ne hy]

/-- Blocks of table entry `i` have been freed and nothing else has changed. -/
structure Shrunk (sb : Superblock) (i : ℕ) (s t : Disk) : Prop where
  acct : Acct sb t.bits (refs t i)
  dinodes : t.dinodes = s.dinodes
  blocks : t.blocks = s.blocks
  other : ∀ j, j ≠ i → t.inodes j = s.inodes j
  self : ∃ a, t.inodes i = { s.inodes i with copy := { (s.inodes i).copy with addrs := a } }

lemma truncDirect_spec {E : Panic → Prop} (h : Acct sb s.bits (refs s i))
    (ht : (s.inodes i).copy.type ≠ .free) {ks : List ℕ} (hks : ∀ k ∈ ks, k < NDIRECT) :
    wp (truncDirect i ks) (fun _ t => Shrunk sb i s t ∧ (∀ k ∈ ks, (t.inodes i).copy.addrs k = 0) ∧
      ∀ k, ((s.inodes i).copy.addrs k = 0 ∨ k ∉ ks) →
        (t.inodes i).copy.addrs k = (s.inodes i).copy.addrs k) E s := by
  induction ks generalizing s with
  | nil =>
    exact ⟨⟨h, rfl, rfl, fun _ _ => rfl, ⟨_, rfl⟩⟩, by simp, fun _ _ => rfl⟩
  | cons k ks ih =>
    simp only [List.mem_cons, forall_eq_or_imp] at hks
    unfold truncDirect
    simp only [wp_bind, wp_get]
    by_cases hz : (s.inodes i).copy.addrs k = 0
    · rw [if_neg (by simpa using hz)]
      refine wp_post (ih h ht hks.2) ?_
      rintro _ t ⟨hs, hzero, hsame⟩
      refine ⟨hs, ?_, fun l hl => ?_⟩
      · intro l hl
        rcases List.mem_cons.mp hl with rfl | hl
        · rw [hsame l (Or.inl hz), hz]
        · exact hzero l hl
      · refine hsame l (hl.imp_right fun hn hm => hn (List.mem_cons_of_mem k hm))
    · rw [if_pos hz]
      have hr : refs s i (s.inodes i).inum k = (s.inodes i).copy.addrs k :=
        refs_addr ht (Nat.le_of_lt hks.1)
      obtain ⟨hbit, hacct⟩ := h.detach (x := (s.inodes i).inum) (k := k) (by rw [hr]; exact hz)
      rw [hr] at hbit hacct
      rw [wp_bind]
      refine wp_bfree hbit ?_
      simp only [wp_bind, setAddr, setCopy, setInode, wp_modify]
      rw [← refs_clear ht hks.1 (Function.update s.bits ((s.inodes i).copy.addrs k) false)] at hacct
      have hself := Function.update_self i { s.inodes i with copy := { (s.inodes i).copy with
        addrs := Function.update (s.inodes i).copy.addrs k 0 } } s.inodes
      refine wp_post (ih hacct (by simpa using ht) hks.2) ?_
      rintro _ t ⟨hs, hzero, hsame⟩
      refine ⟨⟨hs.acct, hs.dinodes, hs.blocks, fun j hj => ?_, ?_⟩, ?_, fun l hl => ?_⟩
      · rw [hs.other j hj]
        exact Function.update_of_ne hj _ _
      · obtain ⟨a, ha⟩ := hs.self
        simp only [Function.update_self] at ha
        exact ⟨a, ha⟩
      · intro l hl
        rcases List.mem_cons.mp hl with rfl | hl
        · rw [hsame l (Or.inl (by simp))]
          simp
        · exact hzero l hl
      · have hlk : l ≠ k := by
          rintro rfl
          rcases hl with hl | hl
          · exact hz hl
          · exact hl (by simp)
        rw [hsame l]
        · simp [Function.update_of_ne hlk]
        · simp only [Function.update_self, Function.update_of_ne hlk]
          exact hl.imp_right fun hn hm => hn (List.mem_cons_of_mem k hm)

/-- The slots of `x` for the entries in the list are empty. -/
def clearEntries (R : ℕ → ℕ → ℕ) (x : ℕ) (js : List ℕ) : ℕ → ℕ → ℕ := fun y l =>
  if y = x ∧ ∃ j ∈ js, l = NDIRECT + 1 + j then 0 else R y l

lemma truncIndirect_spec {E : Panic → Prop} {m : Mem} (h : Acct sb s.bits R) {js : List ℕ}
    (hm : ∀ j ∈ js, R x (NDIRECT + 1 + j) = entry m j) (hnd : js.Nodup) :
    wp (truncIndirect m js) (fun _ t => (∃ bits, t = { s with bits := bits }) ∧
      Acct sb t.bits (clearEntries R x js)) E s := by
  induction js generalizing s R with
  | nil =>
    refine ⟨⟨s.bits, rfl⟩, ?_⟩
    have : clearEntries R x [] = R := by
      funext y l
      simp [clearEntries]
    rwa [this]
  | cons j js ih =>
    simp only [List.mem_cons, forall_eq_or_imp] at hm
    obtain ⟨hj, hnd⟩ := List.nodup_cons.mp hnd
    unfold truncIndirect
    by_cases hz : entry m j = 0
    · rw [if_neg (by simpa using hz)]
      refine wp_post (ih h hm.2 hnd) ?_
      rintro _ t ⟨ht, ha⟩
      refine ⟨ht, ?_⟩
      have heq : clearEntries R x (j :: js) = clearEntries R x js := by
        funext y l
        unfold clearEntries
        by_cases hl : y = x ∧ l = NDIRECT + 1 + j
        · rw [if_pos ⟨hl.1, j, by simp, hl.2⟩, hl.1, hl.2, hm.1, hz, ite_self]
        · refine if_congr (and_congr_right fun hy => ?_) rfl rfl
          simp only [List.mem_cons, exists_eq_or_imp, or_iff_right_iff_imp]
          exact fun hlj => absurd ⟨hy, hlj⟩ hl
      rwa [heq]
    · rw [if_pos hz, wp_bind]
      obtain ⟨hbit, hacct⟩ := h.detach (x := x) (k := NDIRECT + 1 + j) (by rw [hm.1]; exact hz)
      rw [hm.1] at hbit hacct
      refine wp_bfree hbit ?_
      have hm' : ∀ l ∈ js, setRef R x (NDIRECT + 1 + j) 0 x (NDIRECT + 1 + l) = entry m l := by
        intro l hl
        rw [setRef_ne]
        · exact hm.2 l hl
        · rintro ⟨-, hlj⟩
          obtain rfl : l = j := by omega
          exact hj hl
      refine wp_post (ih (s := { s with bits := Function.update s.bits (entry m j) false }) hacct hm'
        hnd) ?_
      rintro _ t ⟨⟨bits, ht⟩, ha⟩
      refine ⟨⟨bits, ht⟩, ?_⟩
      have heq : clearEntries R x (j :: js) = clearEntries (setRef R x (NDIRECT + 1 + j) 0) x js := by
        funext y l
        unfold clearEntries setRef
        by_cases hl : y = x ∧ l = NDIRECT + 1 + j
        · rw [if_pos ⟨hl.1, j, by simp, hl.2⟩, if_pos hl, ite_self]
        · rw [if_neg hl]
          refine if_congr (and_congr_right fun hy => ?_) rfl rfl
          simp only [List.mem_cons, exists_eq_or_imp, or_iff_right_iff_imp]
          exact fun hlj => absurd ⟨hy, hlj⟩ hl
      rwa [heq]

lemma slotAt_empty {d : Dinode} (hd : ∀ k, k ≤ NDIRECT → d.addrs k = 0) (m : ℕ → Mem) (l : ℕ) :
    slotAt d m l = 0 := by
  unfold slotAt
  split_ifs with h1 h2
  · exact hd l h1
  · exact absurd (hd _ (Nat.le_refl _)) h2.2
  · rfl

/-- The slots of an inode with its direct addresses cleared, once the entries of the indirect block
and the block itself are given back. -/
lemma clear_all (ht : (s.inodes i).copy.type ≠ .free)
    (hz : ∀ k, k < NDIRECT → (s.inodes i).copy.addrs k = 0) {y l : ℕ} :
    setRef (clearEntries (refs s i) (s.inodes i).inum (List.range NINDIRECT)) (s.inodes i).inum
      NDIRECT 0 y l = if y = (s.inodes i).inum then 0 else refs s i y l := by
  by_cases hy : y = (s.inodes i).inum
  · rw [if_pos hy, hy]
    by_cases hl : l = NDIRECT
    · rw [hl, setRef_self]
    · rw [setRef_ne fun hc => hl hc.2]
      unfold clearEntries
      split_ifs with hc
      · rfl
      · by_cases hle : l ≤ NDIRECT
        · rw [refs_addr ht hle]
          exact hz l (by omega)
        · refine refAt_beyond _ _ _ fun hlt => hc ⟨rfl, l - NDIRECT - 1, ?_, by omega⟩
          rw [List.mem_range]
          unfold NSLOT at hlt
          omega
  · rw [if_neg hy, setRef_ne fun hc => hy hc.1]
    unfold clearEntries
    rw [if_neg fun hc => hy hc.1]

/-- The inode after `itrunc`. -/
def truncated (d : Dinode) (a : ℕ → ℕ) : Dinode := { d with size := 0, addrs := a }

/-- Table entry `i` with other addresses, and another free map. -/
def withAddrs (s : Disk) (i : ℕ) (bits : ℕ → Bool) (a : ℕ → ℕ) : Disk :=
  { s with
    bits := bits
    inodes := Function.update s.inodes i
      { s.inodes i with copy := { (s.inodes i).copy with addrs := a } } }

lemma Shrunk.eq (h : Shrunk sb i s t) : ∃ a, t = withAddrs s i t.bits a := by
  obtain ⟨a, ha⟩ := h.self
  have hino : t.inodes = Function.update s.inodes i
      { s.inodes i with copy := { (s.inodes i).copy with addrs := a } } := by
    funext j
    by_cases hj : j = i
    · subst hj
      rw [Function.update_self, ha]
    · rw [Function.update_of_ne hj, h.other j hj]
  refine ⟨a, ?_⟩
  unfold withAddrs
  rw [← hino, ← h.dinodes, ← h.blocks]

/-- The slots once all of those of inode `x` are empty. -/
def clearInode (R : ℕ → ℕ → ℕ) (x : ℕ) : ℕ → ℕ → ℕ := fun y l => if y = x then 0 else R y l

lemma refAt_truncated {D : ℕ → Dinode} {m : ℕ → Mem} {d : Dinode}
    (hd : ∀ k, k ≤ NDIRECT → d.addrs k = 0) :
    refAt (Function.update D x d) m = clearInode (refAt D m) x := by
  funext y l
  unfold clearInode
  by_cases hy : y = x
  · subst hy
    rw [if_pos rfl]
    unfold refAt
    rw [Function.update_self, slotAt_empty hd, ite_self]
  · rw [if_neg hy]
    unfold refAt
    rw [Function.update_of_ne hy]

lemma refs_withAddrs {a : ℕ → ℕ} {y : ℕ} (hy : y ≠ (s.inodes i).inum) (l : ℕ) :
    refs (withAddrs s i bits a) i y l = refs s i y l := by
  have hinum : ((withAddrs s i bits a).inodes i).inum = (s.inodes i).inum := by
    simp only [withAddrs, Function.update_self]
  refine refAt_congr ?_ (fun _ _ _ => rfl) l
  rw [cur_ne (by rw [hinum]; exact hy), cur_ne hy]
  rfl

lemma wp_trunc_end {Q : Unit → Disk → Prop} {E : Panic → Prop} {a : ℕ → ℕ}
    (hQ : Q () { s with
      bits := bits
      dinodes := Function.update s.dinodes (s.inodes i).inum (truncated (s.inodes i).copy a)
      inodes := Function.update s.inodes i
        { s.inodes i with copy := truncated (s.inodes i).copy a } }) :
    wp (do
      setCopy i fun d => { d with size := 0 }
      iupdate i) Q E (withAddrs s i bits a) := by
  simp only [wp_bind, setCopy, setInode, iupdate, wp_modify, withAddrs, Function.update_self,
    Function.update_idem]
  exact hQ

/-- `itrunc` gives back every block of the inode and panics nowhere. -/
lemma itrunc_spec {E : Panic → Prop} (h : Acct sb s.bits (refs s i))
    (ht : (s.inodes i).copy.type ≠ .free) :
    wp (itrunc i) (fun _ t => ∃ bits a, (∀ k, k ≤ NDIRECT → a k = 0) ∧
      t = { s with
        bits := bits
        dinodes := Function.update s.dinodes (s.inodes i).inum (truncated (s.inodes i).copy a)
        inodes := Function.update s.inodes i
          { s.inodes i with copy := truncated (s.inodes i).copy a } } ∧
      Acct sb bits (clearInode (refs s i) (s.inodes i).inum)) E s := by
  unfold itrunc
  rw [wp_bind]
  refine wp_post (truncDirect_spec h ht fun k hk => List.mem_range.mp hk) ?_
  rintro _ t ⟨hs, hz, _⟩
  have hacct := hs.acct
  obtain ⟨a, ha⟩ := hs.eq
  generalize t.bits = bits at ha hacct
  have hself : t.inodes i = { s.inodes i with copy := { (s.inodes i).copy with addrs := a } } := by
    rw [ha]
    exact Function.update_self _ _ _
  have htt : (t.inodes i).copy.type ≠ .free := by rw [hself]; exact ht
  have hinum : (t.inodes i).inum = (s.inodes i).inum := by rw [hself]
  have hclear : clearInode (refs t i) (s.inodes i).inum =
      clearInode (refs s i) (s.inodes i).inum := by
    funext y l
    unfold clearInode
    split_ifs with hy
    · rfl
    · rw [ha, refs_withAddrs hy]
  have hz' : ∀ k, k < NDIRECT → (t.inodes i).copy.addrs k = 0 :=
    fun k hk => hz k (List.mem_range.mpr hk)
  simp only [wp_bind, wp_get]
  by_cases hb : (t.inodes i).copy.addrs NDIRECT = 0
  · rw [if_neg (by simpa using hb), ha]
    have hall : ∀ k, k ≤ NDIRECT → a k = 0 := by
      intro k hk
      have hk0 : (t.inodes i).copy.addrs k = 0 := by
        rcases Nat.lt_or_eq_of_le hk with hk | rfl
        · exact hz' k hk
        · exact hb
      rwa [hself] at hk0
    refine wp_trunc_end ⟨bits, a, hall, rfl, ?_⟩
    rw [← hclear]
    have : clearInode (refs t i) (s.inodes i).inum = refs t i := by
      funext y l
      unfold clearInode
      split_ifs with hy
      · rw [hy, ← hinum, refs, refAt, cur_self, if_neg htt, slotAt_empty]
        intro k hk
        rw [hself]
        exact hall k hk
      · rfl
    rwa [this]
  · rw [if_pos hb, wp_bind]
    have hent : ∀ j ∈ List.range NINDIRECT, refs t i (s.inodes i).inum (NDIRECT + 1 + j) =
        entry (t.blocks ((t.inodes i).copy.addrs NDIRECT)) j := by
      intro j hj
      rw [← hinum]
      exact refs_entry htt (List.mem_range.mp hj) hb
    refine wp_post (truncIndirect_spec hs.acct hent List.nodup_range) ?_
    rintro _ u ⟨⟨bits', rfl⟩, hacct'⟩
    have hnd : clearEntries (refs t i) (s.inodes i).inum (List.range NINDIRECT) (s.inodes i).inum
        NDIRECT = (t.inodes i).copy.addrs NDIRECT := by
      unfold clearEntries
      rw [if_neg (by rintro ⟨-, j, -, hj⟩; omega), ← hinum]
      exact refs_addr htt (Nat.le_refl _)
    obtain ⟨hbit, hd⟩ := hacct'.detach (x := (s.inodes i).inum) (k := NDIRECT)
      (by rw [hnd]; exact hb)
    rw [hnd] at hbit hd
    rw [wp_bind]
    refine wp_bfree hbit ?_
    have hstate : ∀ c, wp (setAddr i NDIRECT 0) (fun _ v => v = withAddrs s i c
        (Function.update a NDIRECT 0)) E { t with bits := c } := by
      intro c
      simp only [setAddr, setCopy, setInode, wp_modify, ha, withAddrs, Function.update_self,
        Function.update_idem]
    rw [wp_bind]
    refine wp_post (hstate _) ?_
    rintro _ v rfl
    refine wp_trunc_end ⟨_, _, fun k hk => ?_, rfl, ?_⟩
    · rcases Nat.lt_or_eq_of_le hk with hk | rfl
      · rw [Function.update_of_ne (by omega)]
        have := hz' k hk
        rwa [hself] at this
      · exact Function.update_self _ _ _
    · rw [← hclear]
      have : setRef (clearEntries (refs t i) (s.inodes i).inum (List.range NINDIRECT))
          (s.inodes i).inum NDIRECT 0 = clearInode (refs t i) (s.inodes i).inum := by
        funext y l
        rw [← hinum]
        exact clear_all htt hz'
      rwa [← this]

end Xv6.Fs
