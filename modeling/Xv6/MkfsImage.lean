import Xv6.Mkfs

/-!
The image that `mkfs` leaves, as the kernel reads it.

`Layout` says that the blocks handed out so far are exactly those that inodes name, each by one
slot, and that they hold the bytes appended so far with zeros behind them. Taking a block and
copying bytes into one keep it; what `iappend`, the loop over the files and `main` do follows.
-/

namespace Xv6.Mkfs

open Xv6.ByteMem Xv6.Wp
open Xv6.Fs (BSIZE NDIRECT NINDIRECT MAXFILE BPB DIRSIZ ROOTDEV ROOTINO Superblock Dinode Disk
  Dirent DESIZE Ftype entry setEntry strncmp strncpy slash Acct refAt setRef setRef_self setRef_ne
  slot NSLOT)

variable {R : ℕ → ℕ → ℕ} {m m' : ℕ → Mem} {free x k b : ℕ} {C : ℕ → List Byte} {bs : List Byte}

lemma nmeta_eq : sb.nmeta = nmeta := by decide

lemma slot_ne_ind (bn : ℕ) : slot bn ≠ NDIRECT := by
  unfold slot
  split_ifs <;> omega

lemma slot_inj {a b : ℕ} (h : slot a = slot b) : a = b := by
  unfold slot at h
  split_ifs at h <;> omega

/-! ### The blocks handed out -/

/-- The slots `R` name the blocks below the mark, and these hold the bytes `C`. -/
structure Layout (R : ℕ → ℕ → ℕ) (m : ℕ → Mem) (free : ℕ) (C : ℕ → List Byte) : Prop where
  acct : Acct sb (fun b => decide (b < free)) R
  le : free ≤ FSSIZE
  data : ∀ x o, R x (slot (o / BSIZE)) ≠ 0 →
    m (R x (slot (o / BSIZE))) (o % BSIZE) = (C x).getD o 0
  fresh : ∀ b, free ≤ b → b < FSSIZE → m b = fun _ => 0

lemma Layout.lt (h : Layout R m free C) (hr : R x k ≠ 0) : nmeta ≤ R x k ∧ R x k < free := by
  obtain ⟨hge, hlt⟩ := h.acct.range x k hr
  have hbit := (h.acct.bits (R x k) hlt).mpr (Or.inr ⟨x, k, rfl⟩)
  exact ⟨nmeta_eq ▸ hge, of_decide_eq_true hbit⟩

lemma Layout.lt_size (h : Layout R m free C) (hr : R x k ≠ 0) : R x k < FSSIZE :=
  Nat.lt_of_lt_of_le (h.lt hr).2 h.le

lemma Layout.unnamed (h : Layout R m free C) (hf : free < FSSIZE) :
    nmeta ≤ free ∧ ∀ x k, R x k ≠ free := by
  have := h.acct.free (b := free) hf (by simp)
  exact ⟨nmeta_eq ▸ this.1, this.2⟩

/-- The block at the mark goes into an empty slot. -/
lemma Layout.attach (h : Layout R m free C) (hf : free < FSSIZE) (hk : R x k = 0)
    (hC : ∀ bn, k = slot bn → (C x).length ≤ bn * BSIZE)
    (hm : ∀ b, b ≠ R x NDIRECT → m' b = m b) : Layout (setRef R x k free) m' (free + 1) C := by
  obtain ⟨hge, hno⟩ := h.unnamed hf
  have hfresh : ∀ b, free ≤ b → m' b = m b := by
    intro b hb
    refine hm b fun he => ?_
    have hpos : 0 < nmeta := by decide
    have hlt := (h.lt (x := x) (k := NDIRECT) (by omega)).2
    omega
  refine ⟨?_, hf, fun y o hy => ?_, fun b hb hlt => ?_⟩
  · have hbits : (fun b => decide (b < free + 1)) =
        Function.update (fun b => decide (b < free)) free true := by
      funext b
      by_cases hb : b = free
      · rw [hb, Function.update_self]
        simp
      · rw [Function.update_of_ne hb]
        exact decide_eq_decide.mpr (by omega)
    rw [hbits]
    exact h.acct.attach hf (by simp) hk
  · by_cases hyk : y = x ∧ slot (o / BSIZE) = k
    · obtain ⟨rfl, rfl⟩ := hyk
      rw [setRef_self, hfresh _ (Nat.le_refl _), h.fresh _ (Nat.le_refl _) hf]
      have hle := hC _ rfl
      have := Nat.div_mul_le_self o BSIZE
      rw [List.getD_eq_default _ _ (by omega)]
    · rw [setRef_ne hyk] at hy ⊢
      rw [hm, h.data y o hy]
      intro he
      exact slot_ne_ind _ (h.acct.inj y x _ NDIRECT hy he).2
  · rw [hfresh b (by omega), h.fresh b (by omega) hlt]

/-- Bytes are copied behind the last of a file. -/
lemma Layout.write (h : Layout R m free C) (hr : R x (slot ((C x).length / BSIZE)) ≠ 0)
    (hfit : (C x).length % BSIZE + bs.length ≤ BSIZE) :
    Layout R (Function.update m (R x (slot ((C x).length / BSIZE)))
      (put (m (R x (slot ((C x).length / BSIZE)))) ((C x).length % BSIZE) bs)) free
      (Function.update C x (C x ++ bs)) := by
  set c := R x (slot ((C x).length / BSIZE)) with hc
  refine ⟨h.acct, h.le, fun y o hy => ?_, fun b hb hlt => ?_⟩
  · by_cases hyc : R y (slot (o / BSIZE)) = c
    · obtain ⟨rfl, hs⟩ := h.acct.inj y x _ _ hy hyc
      have hdiv := slot_inj hs
      have hold := h.data y o hy
      rw [hyc] at hold ⊢
      rw [Function.update_self, Function.update_self]
      have ho := Nat.div_add_mod o BSIZE
      have hl := Nat.div_add_mod (C y).length BSIZE
      rw [hdiv] at ho
      have hlt := Nat.mod_lt o (show BSIZE > 0 by decide)
      by_cases hin : (C y).length ≤ o ∧ o < (C y).length + bs.length
      · rw [put_in (by omega) (by omega), List.getD_append_right _ _ _ _ hin.1]
        congr 1
        omega
      · rw [put_out (by omega), hold]
        by_cases hlo : o < (C y).length
        · rw [List.getD_append _ _ _ _ hlo]
        · rw [List.getD_eq_default _ _ (by omega),
            List.getD_eq_default _ _ (by rw [List.length_append]; omega)]
    · rw [Function.update_of_ne hyc, h.data y o hy]
      by_cases hyx : y = x
      · subst hyx
        rw [Function.update_self]
        -- the byte is in another block, so it is not among the new ones
        have hdiv : o / BSIZE ≠ (C y).length / BSIZE := fun he => hyc (by rw [he])
        have ho := Nat.div_add_mod o BSIZE
        have hl := Nat.div_add_mod (C y).length BSIZE
        have hlt := Nat.mod_lt o (show BSIZE > 0 by decide)
        by_cases hlo : o < (C y).length
        · rw [List.getD_append _ _ _ _ hlo]
        · have hmul : BSIZE * (o / BSIZE) ≥ BSIZE * ((C y).length / BSIZE + 1) := by
            refine Nat.mul_le_mul_left _ ?_
            have := Nat.div_le_div_right (c := BSIZE) (Nat.le_of_not_lt hlo)
            omega
          rw [List.getD_eq_default _ _ (by omega),
            List.getD_eq_default _ _ (by rw [List.length_append]; rw [Nat.mul_add] at hmul; omega)]
      · rw [Function.update_of_ne hyx]
  · rw [Function.update_of_ne, h.fresh b hb hlt]
    rintro rfl
    have := (h.lt hr).2
    omega

lemma Layout.congr (h : Layout R m free C) (hm : ∀ b, nmeta ≤ b → m' b = m b) :
    Layout R m' free C := by
  refine ⟨h.acct, h.le, fun y o hy => ?_, fun b hb hlt => ?_⟩
  · rw [hm _ (h.lt hy).1, h.data y o hy]
  · have := h.acct.bits b hlt
    have hge := (h.acct.free (b := b) hlt (by simpa using hb)).1
    rw [hm _ (nmeta_eq ▸ hge), h.fresh b hb hlt]

/-! ### Filled slots -/

/-- Inode `x` has its first `a` blocks, and an indirect block if that takes one. -/
structure Filled (R : ℕ → ℕ → ℕ) (x a : ℕ) : Prop where
  slots : ∀ bn, R x (slot bn) ≠ 0 ↔ bn < a
  ind : R x NDIRECT ≠ 0 ↔ NDIRECT < a

lemma Filled.congr {R' : ℕ → ℕ → ℕ} {a : ℕ} (h : Filled R x a) (hR : ∀ l, R' x l = R x l) :
    Filled R' x a :=
  ⟨fun bn => by rw [hR, h.slots bn], by rw [hR, h.ind]⟩

/-- The number of blocks for `n` bytes. -/
def nblk (n : ℕ) : ℕ := (n + BSIZE - 1) / BSIZE

/-- The blocks that a file of `a` blocks takes, with the indirect block. -/
def cost (a : ℕ) : ℕ := if NDIRECT < a then a + 1 else a

lemma cost_mono {a b : ℕ} (h : a ≤ b) : cost a ≤ cost b := by
  unfold cost
  split_ifs <;> omega

lemma nblk_mono {a b : ℕ} (h : a ≤ b) : nblk a ≤ nblk b :=
  Nat.div_le_div_right (by omega)

/-! ### The fields of an inode -/

lemma setEntry_out (w : Mem) (j v : ℕ) {o : ℕ} (h : o < 4 * j) : setEntry w j v o = w o := by
  unfold setEntry
  exact put_out (Or.inl h)

lemma shortAt_setEntry (w : Mem) (j v : ℕ) {o : ℕ} (h : o + 1 < 4 * j) :
    shortAt (setEntry w j v) o = shortAt w o := by
  unfold shortAt
  rw [setEntry_out w j v (by omega), setEntry_out w j v h]

lemma dinode_setDsize (w : Mem) {n : ℕ} (hn : n < 2 ^ 32) :
    dinode (setDsize w n) = { dinode w with size := n } := by
  unfold dinode setDsize
  rw [setEntry_out _ _ _ (by omega), setEntry_out _ _ _ (by omega), shortAt_setEntry _ _ _ (by omega),
    shortAt_setEntry _ _ _ (by omega), shortAt_setEntry _ _ _ (by omega)]
  have hsize : dsize (setEntry w 2 n) = n := Fs.entry_setEntry_self w 2 hn
  have haddr : ∀ k, daddr (setEntry w 2 n) k = daddr w k := fun k =>
    Fs.entry_setEntry_ne w n (by omega)
  simp only [hsize, haddr]

lemma dinode_setDaddr (w : Mem) (hk : k ≤ NDIRECT) (hb : b < 2 ^ 32) :
    dinode (setDaddr w k b) =
      { dinode w with addrs := Function.update (dinode w).addrs k b } := by
  unfold dinode setDaddr
  rw [setEntry_out _ _ _ (by omega), setEntry_out _ _ _ (by omega), shortAt_setEntry _ _ _ (by omega),
    shortAt_setEntry _ _ _ (by omega), shortAt_setEntry _ _ _ (by omega)]
  have hsize : dsize (setEntry w (3 + k) b) = dsize w := Fs.entry_setEntry_ne w b (by omega)
  rw [hsize]
  congr 1
  funext l
  dsimp only
  by_cases hl : l = k
  · rw [hl, Function.update_self, if_pos hk]
    exact Fs.entry_setEntry_self w (3 + k) hb
  · rw [Function.update_of_ne hl]
    split_ifs
    · exact Fs.entry_setEntry_ne w b (by omega)
    · rfl

lemma dinode_addrs (w : Mem) (hk : k ≤ NDIRECT) : (dinode w).addrs k = daddr w k := if_pos hk

lemma dinode_congr {w w' : Mem} (h : ∀ o, o < DISIZE → w' o = w o) : dinode w' = dinode w := by
  unfold DISIZE at h
  have hentry : ∀ j, j < 16 → entry w' j = entry w j := by
    intro j hj
    unfold entry
    rw [h _ (by omega), h _ (by omega), h _ (by omega), h _ (by omega)]
  unfold dinode shortAt dsize daddr
  rw [h 0 (by omega), h 1 (by omega), h 2 (by omega), h (2 + 1) (by omega), h 4 (by omega),
    h (4 + 1) (by omega), h 6 (by omega), h (6 + 1) (by omega), hentry 2 (by omega)]
  congr 1
  funext k
  split_ifs with hk
  · exact hentry _ (by unfold NDIRECT at hk; omega)
  · rfl

lemma refAt_resize (D : ℕ → Dinode) (m : ℕ → Mem) (x n : ℕ) :
    refAt (Function.update D x { D x with size := n }) m = refAt D m := by
  funext y l
  unfold refAt Fs.slotAt
  by_cases hy : y = x
  · rw [hy, Function.update_self]
  · rw [Function.update_of_ne hy]

/-! ### Sectors -/

variable {t t' : St} {inum : ℕ} {din : Mem}

/-- Only data blocks and the mark change. -/
structure Same (t t' : St) : Prop where
  nsect : t'.nsect = t.nsect
  freeinode : t'.freeinode = t.freeinode
  sect : ∀ b, b < nmeta → t'.sect b = t.sect b

lemma Same.refl (t : St) : Same t t := ⟨rfl, rfl, fun _ _ => rfl⟩

lemma Same.trans {u : St} (h1 : Same t t') (h2 : Same t' u) : Same t u :=
  ⟨h2.nsect.trans h1.nsect, h2.freeinode.trans h1.freeinode,
    fun b hb => (h2.sect b hb).trans (h1.sect b hb)⟩

lemma IBLOCK_lt (h : x < NINODES) : IBLOCK x < nmeta := by
  unfold NINODES at h
  have hx : x / IPB ≤ 12 := by
    rw [show IPB = 16 from by decide]
    omega
  have h1 : sb.inodestart = 32 := by decide
  have h2 : nmeta = 46 := by decide
  unfold IBLOCK
  omega

lemma Same.dinodes (h : Same t t') : dinodes t'.sect = dinodes t.sect := by
  funext x
  unfold Mkfs.dinodes
  split_ifs with hx
  · unfold window
    rw [h.sect _ (IBLOCK_lt hx)]
  · rfl

lemma rsect_spec {Q : Mem → St → Prop} {E : Fail → Prop} {sec : ℕ} (h : sec < t.nsect)
    (hQ : Q (t.sect sec) t) : wp (rsect sec) Q E t := by
  unfold rsect
  simp only [wp_bind, wp_get, if_pos h]
  exact hQ

lemma wsect_spec {Q : Unit → St → Prop} {E : Fail → Prop} {sec : ℕ} {buf : Mem} (h : sec < t.nsect)
    (hQ : Q () { t with sect := Function.update t.sect sec buf }) : wp (wsect sec buf) Q E t := by
  unfold wsect
  rw [wp_modify, Nat.max_eq_left h]
  exact hQ

/-- `winode` replaces one inode of the image. -/
lemma dinodes_update (hx : x < NINODES) (sect : ℕ → Mem) (w : Mem) :
    dinodes (Function.update sect (IBLOCK x)
      (put (sect (IBLOCK x)) (x % IPB * DISIZE) (bytes w 0 DISIZE))) =
      Function.update (dinodes sect) x (dinode w) := by
  have hlen : (bytes w 0 DISIZE).length = DISIZE := by simp [bytes]
  have hIPB : IPB = 16 := by decide
  funext y
  by_cases hy : y = x
  · subst hy
    rw [Function.update_self]
    unfold dinodes
    rw [if_pos (show y < sb.ninodes from hx)]
    refine dinode_congr fun o ho => ?_
    unfold window
    rw [Function.update_self, put_in (by omega) (by omega), Nat.add_sub_cancel_left]
    unfold bytes
    rw [List.getD_eq_getElem _ _ (by simpa using ho), List.getElem_map, List.getElem_range,
      Nat.zero_add]
  · rw [Function.update_of_ne hy]
    unfold dinodes
    split_ifs with hlt
    · refine dinode_congr fun o ho => ?_
      unfold window
      by_cases hblk : IBLOCK y = IBLOCK x
      · rw [hblk, Function.update_self]
        refine put_out ?_
        rw [hlen]
        unfold IBLOCK at hblk
        unfold DISIZE at *
        rw [hIPB] at hblk ⊢
        omega
      · rw [Function.update_of_ne hblk]
    · rfl

lemma winode_spec {Q : Unit → St → Prop} {E : Fail → Prop} (hn : t.nsect = FSSIZE)
    (hx : x < NINODES)
    (hQ : ∀ u : St, u.nsect = FSSIZE → u.freeinode = t.freeinode → u.freeblock = t.freeblock →
      (∀ b, nmeta ≤ b → u.sect b = t.sect b) →
      dinodes u.sect = Function.update (dinodes t.sect) x (dinode din) → Q () u) :
    wp (winode x din) Q E t := by
  have hlt := IBLOCK_lt hx
  have hsec : IBLOCK x < t.nsect := by
    rw [hn]
    exact Nat.lt_trans hlt (by decide)
  unfold winode
  rw [wp_bind]
  refine rsect_spec hsec (wsect_spec hsec (hQ _ hn rfl rfl (fun b hb => ?_) ?_))
  · exact Function.update_of_ne (by omega) _ _
  · exact dinodes_update hx t.sect din

lemma rinode_spec {Q : Mem → St → Prop} {E : Fail → Prop} (hn : t.nsect = FSSIZE)
    (hx : x < NINODES) (hQ : Q (window t.sect x) t) : wp (rinode x) Q E t := by
  unfold rinode
  rw [wp_bind]
  refine rsect_spec ?_ hQ
  rw [hn]
  exact Nat.lt_trans (IBLOCK_lt hx) (by decide)

lemma dinode_window (hx : x < NINODES) (sect : ℕ → Mem) :
    dinode (window sect x) = dinodes sect x := by
  unfold dinodes
  rw [if_pos (show x < sb.ninodes from hx)]

/-! ### Taking a block -/

/-- The slots, with inode `inum` as `iappend` has it. -/
def curRef (t : St) (inum : ℕ) (din : Mem) : ℕ → ℕ → ℕ :=
  refAt (Function.update (dinodes t.sect) inum (dinode din)) t.sect

/-- The slots and the blocks agree while `iappend` works on an inode. -/
structure Working (t : St) (inum : ℕ) (din : Mem) (C : ℕ → List Byte) : Prop where
  nsect : t.nsect = FSSIZE
  type : (dinode din).type ≠ .free
  layout : Layout (curRef t inum din) t.sect t.freeblock C

lemma curRef_addr (ht : (dinode din).type ≠ .free) (hk : k ≤ NDIRECT) :
    curRef t inum din inum k = daddr din k := by
  unfold curRef
  rw [Fs.refAt_addr _ (by rwa [Function.update_self]) hk, Function.update_self,
    dinode_addrs din hk]

lemma curRef_entry (ht : (dinode din).type ≠ .free) {j : ℕ} (hj : j < NINDIRECT)
    (hind : daddr din NDIRECT ≠ 0) :
    curRef t inum din inum (NDIRECT + 1 + j) = entry (t.sect (daddr din NDIRECT)) j := by
  have haddr := dinode_addrs din (Nat.le_refl NDIRECT)
  unfold curRef
  rw [Fs.refAt_entry _ (by rwa [Function.update_self]) hj (by rwa [Function.update_self, haddr]),
    Function.update_self, haddr]

/-- One step of the allocation: one slot of the inode changes if it was empty. -/
structure Took (t t' : St) (inum : ℕ) (din din' : Mem) (k : ℕ) (C : ℕ → List Byte) : Prop where
  same : Same t t'
  working : Working t' inum din' C
  type : (dinode din').type = (dinode din).type
  filled : curRef t' inum din' inum k ≠ 0
  other : ∀ y l, ¬(y = inum ∧ l = k) → curRef t' inum din' y l = curRef t inum din y l
  kept : curRef t inum din inum k ≠ 0 → t'.freeblock = t.freeblock
  new : curRef t inum din inum k = 0 → t'.freeblock = t.freeblock + 1

lemma Took.none (h : Working t inum din C) (hk : curRef t inum din inum k ≠ 0) :
    Took t t inum din din k C :=
  ⟨Same.refl t, h, rfl, hk, fun _ _ _ => rfl, fun _ => rfl, fun hc => absurd hc hk⟩

lemma FSSIZE_lt : FSSIZE < 2 ^ 32 := by decide

lemma iappendAddr_spec {E : Fail → Prop} (h : Working t inum din C) (hk : k ≤ NDIRECT)
    (hroom : daddr din k = 0 → t.freeblock < FSSIZE)
    (hC : ∀ bn, k = slot bn → daddr din k = 0 → (C inum).length ≤ bn * BSIZE) :
    wp (iappendAddr din k) (fun din' t' => Took t t' inum din din' k C ∧ t'.sect = t.sect) E t := by
  unfold iappendAddr takeBlock
  by_cases hz : daddr din k = 0
  · rw [if_pos hz]
    simp only [wp_bind, wp_get, wp_set, wp_pure]
    have hf := hroom hz
    obtain ⟨hge, hno⟩ := h.layout.unnamed hf
    have haddr := dinode_addrs din hk
    have hdin := dinode_setDaddr din hk (Nat.lt_trans hf FSSIZE_lt)
    have hsect : (Function.update t.sect t.freeblock fun _ => 0) = t.sect :=
      Function.update_eq_self_iff.mpr (h.layout.fresh _ (Nat.le_refl _) hf).symm
    have hzero : curRef t inum din inum k = 0 := by rw [curRef_addr h.type hk, hz]
    have hR : curRef { t with freeblock := t.freeblock + 1 } inum (setDaddr din k t.freeblock) =
        setRef (curRef t inum din) inum k t.freeblock := by
      have hset := Fs.refAt_setAddr (D := Function.update (dinodes t.sect) inum (dinode din))
        (m := t.sect) (x := inum) (b := t.freeblock) (by rw [Function.update_self]; exact h.type) hk
        (by rw [Function.update_self, haddr, hz]) hno
      rwa [Function.update_self, Function.update_idem, ← hdin, hsect] at hset
    have htype : (dinode (setDaddr din k t.freeblock)).type = (dinode din).type := by rw [hdin]
    refine ⟨⟨⟨rfl, rfl, fun _ _ => rfl⟩, ⟨h.nsect, ?_, ?_⟩, htype, ?_, fun y l hyl => ?_,
      fun hc => absurd hzero hc, fun _ => rfl⟩, trivial⟩
    · rw [htype]
      exact h.type
    · rw [hR]
      exact h.layout.attach hf hzero (fun bn hbn => hC bn hbn hz) fun _ _ => rfl
    · rw [hR, setRef_self]
      have : 0 < nmeta := by decide
      omega
    · rw [hR, setRef_ne hyl]
  · rw [if_neg hz]
    refine ⟨Took.none h ?_, rfl⟩
    rwa [curRef_addr h.type hk]

/-- The part of `iappend` that looks into the indirect block. -/
lemma iappendEntry_spec {Q : Mem × ℕ → St → Prop} {E : Fail → Prop} (h : Working t inum din C)
    {j : ℕ} (hj : j < NINDIRECT) (hind : daddr din NDIRECT ≠ 0)
    (hroom : curRef t inum din inum (NDIRECT + 1 + j) = 0 → t.freeblock < FSSIZE)
    (hC : curRef t inum din inum (NDIRECT + 1 + j) = 0 →
      (C inum).length ≤ (NDIRECT + j) * BSIZE)
    (hQ : ∀ t', Took t t' inum din din (NDIRECT + 1 + j) C →
      Q (din, curRef t' inum din inum (NDIRECT + 1 + j)) t') :
    wp (do
      let ind ← rsect (daddr din NDIRECT)
      if entry ind j = 0 then do
        let b ← takeBlock
        let ind := setEntry ind j b
        wsect (daddr din NDIRECT) ind
        pure (din, entry ind j)
      else pure (din, entry ind j)) Q E t := by
  have hRind := @curRef_addr _ t inum _ h.type (Nat.le_refl NDIRECT)
  have hRind0 : curRef t inum din inum NDIRECT ≠ 0 := by rwa [hRind]
  have hlt := h.layout.lt hRind0
  have hsec : daddr din NDIRECT < t.nsect := by
    have := h.layout.le
    rw [h.nsect]
    omega
  have hentry := @curRef_entry t inum _ h.type _ hj hind
  rw [wp_bind]
  refine rsect_spec hsec ?_
  rw [← hentry]
  by_cases hz : curRef t inum din inum (NDIRECT + 1 + j) = 0
  · rw [if_pos hz]
    unfold takeBlock
    simp only [wp_bind, wp_get, wp_set, wp_pure]
    refine wsect_spec hsec ?_
    have hf := hroom hz
    obtain ⟨hge, hno⟩ := h.layout.unnamed hf
    have hb32 := Nat.lt_trans hf FSSIZE_lt
    have haddr := dinode_addrs din (Nat.le_refl NDIRECT)
    set u : St := { t with
      sect := Function.update t.sect (daddr din NDIRECT)
        (setEntry (t.sect (daddr din NDIRECT)) j t.freeblock)
      freeblock := t.freeblock + 1 } with hu
    have hsame : Same t u := by
      refine ⟨rfl, rfl, fun b hb => Function.update_of_ne ?_ _ _⟩
      rw [hRind] at hlt
      omega
    have hR : curRef u inum din = setRef (curRef t inum din) inum (NDIRECT + 1 + j) t.freeblock := by
      have hset := Fs.refAt_setEntry (D := Function.update (dinodes t.sect) inum (dinode din))
        (m := t.sect) (x := inum) (b := t.freeblock) (j := j)
        (by rw [Function.update_self]; exact h.type) hj
        (by rwa [Function.update_self, haddr]) (fun y hy => ?_) hb32
      · rw [Function.update_self, haddr] at hset
        unfold curRef
        rw [hsame.dinodes]
        exact hset
      · rw [Function.update_self, haddr, ← hRind] at hy
        have hy0 : curRef t inum din y NDIRECT ≠ 0 := by
          rw [show curRef t inum din y NDIRECT = curRef t inum din inum NDIRECT from hy]
          exact hRind0
        exact (h.layout.acct.inj y inum NDIRECT NDIRECT hy0 hy).1
    have hfill : curRef u inum din inum (NDIRECT + 1 + j) = t.freeblock := by rw [hR, setRef_self]
    have hval : entry (setEntry (t.sect (daddr din NDIRECT)) j t.freeblock) j =
        curRef u inum din inum (NDIRECT + 1 + j) := by
      rw [Fs.entry_setEntry_self _ _ hb32, hfill]
    rw [hval]
    refine hQ u ⟨hsame, ⟨h.nsect, h.type, ?_⟩, rfl, ?_, fun y l hyl => ?_, fun hc => absurd hz hc,
      fun _ => rfl⟩
    · rw [hR]
      refine h.layout.attach hf hz (fun bn hbn => ?_) fun b hb => ?_
      · have hbn : bn = NDIRECT + j := by
          unfold slot at hbn
          split_ifs at hbn <;> omega
        rw [hbn]
        exact hC hz
      · exact Function.update_of_ne (by rwa [← hRind]) _ _
    · rw [hfill]
      have : 0 < nmeta := by decide
      omega
    · rw [hR, setRef_ne hyl]
  · rw [if_neg hz]
    exact hQ t (Took.none h hz)

/-- The slots have their blocks up to `fbn`, and the mark has moved by what that costs. -/
structure Ready (t t' : St) (inum : ℕ) (din din' : Mem) (a a' : ℕ) (C C' : ℕ → List Byte) :
    Prop where
  same : Same t t'
  working : Working t' inum din' C'
  filled : Filled (curRef t' inum din') inum a'
  other : ∀ y l, y ≠ inum → curRef t' inum din' y l = curRef t inum din y l
  paid : t'.freeblock + cost a = t.freeblock + cost a'
  content : ∀ y, y ≠ inum → C' y = C y

lemma Ready.refl {a : ℕ} (h : Working t inum din C) (hf : Filled (curRef t inum din) inum a) :
    Ready t t inum din din a a C C :=
  ⟨Same.refl t, h, hf, fun _ _ _ => rfl, rfl, fun _ _ => rfl⟩

lemma Ready.trans {u : St} {din' din'' : Mem} {a a' a'' : ℕ} {C' C'' : ℕ → List Byte}
    (h1 : Ready t t' inum din din' a a' C C') (h2 : Ready t' u inum din' din'' a' a'' C' C'') :
    Ready t u inum din din'' a a'' C C'' := by
  refine ⟨h1.same.trans h2.same, h2.working, h2.filled,
    fun y l hy => (h2.other y l hy).trans (h1.other y l hy), ?_,
    fun y hy => (h2.content y hy).trans (h1.content y hy)⟩
  have := h1.paid
  have := h2.paid
  omega

lemma iappendBlock_spec {E : Fail → Prop} {a fbn : ℕ} (h : Working t inum din C)
    (hfill : Filled (curRef t inum din) inum a) (hfbn : fbn < MAXFILE)
    (ha : a = fbn ∧ (C inum).length ≤ fbn * BSIZE ∨ a = fbn + 1)
    (hroom : t.freeblock + cost (fbn + 1) ≤ FSSIZE + cost a) :
    wp (iappendBlock din fbn) (fun r t' => Ready t t' inum din r.1 a (fbn + 1) C C ∧
      r.2 = curRef t' inum r.1 inum (slot fbn)) E t := by
  unfold iappendBlock
  by_cases hd : fbn < NDIRECT
  · have hslot : slot fbn = fbn := if_pos hd
    have haddr := @curRef_addr _ t inum _ h.type (Nat.le_of_lt hd)
    have hz := hfill.slots fbn
    rw [hslot, haddr] at hz
    have hzero : daddr din fbn = 0 → a = fbn ∧ (C inum).length ≤ fbn * BSIZE := by
      intro h0
      rcases ha with ha | ha
      · exact ha
      · exact absurd h0 (hz.mpr (by omega))
    rw [if_pos hd, wp_bind]
    refine wp_post (iappendAddr_spec h (Nat.le_of_lt hd) (fun h0 => ?_) fun bn hbn h0 => ?_) ?_
    · rw [(hzero h0).1] at hroom
      unfold cost at hroom
      split_ifs at hroom <;> omega
    · rw [show bn = fbn from slot_inj (hbn.symm.trans hslot.symm)]
      exact (hzero h0).2
    · rintro din' t' ⟨hT, -⟩
      have hind : curRef t' inum din' inum NDIRECT = curRef t inum din inum NDIRECT :=
        hT.other _ _ fun hc => by omega
      have hval := @curRef_addr _ t' inum _ (hT.working.type) (Nat.le_of_lt hd)
      refine ⟨⟨hT.same, hT.working, ?_, fun y l hy => hT.other y l fun hc => hy hc.1, ?_,
        fun _ _ => rfl⟩, ?_⟩
      · refine ⟨fun bn => ?_, ?_⟩
        · by_cases hbn : bn = fbn
          · rw [hbn, hslot]
            exact iff_of_true hT.filled (Nat.lt_succ_self _)
          · rw [hT.other _ _ fun hc => hbn (slot_inj (hc.2.trans hslot.symm)), hfill.slots]
            rcases ha with ⟨ha, -⟩ | ha <;> omega
        · rw [hind, hfill.ind]
          rcases ha with ⟨ha, -⟩ | ha <;> omega
      · rcases ha with ⟨rfl, -⟩ | rfl
        · rw [hT.new (by rw [haddr]; by_contra hc; exact Nat.lt_irrefl _ (hz.mp hc))]
          unfold cost
          split_ifs <;> omega
        · rw [hT.kept (by rw [haddr]; exact hz.mpr (Nat.lt_succ_self _))]
      · change daddr din' fbn = _
        rw [hslot, hval]
  · have hle : NDIRECT ≤ fbn := Nat.le_of_not_lt hd
    have hj : fbn - NDIRECT < NINDIRECT := by unfold MAXFILE at hfbn; omega
    have hslot : slot fbn = NDIRECT + 1 + (fbn - NDIRECT) := by
      rw [slot, if_neg hd]
      omega
    have haddr := @curRef_addr _ t inum _ h.type (Nat.le_refl NDIRECT)
    have hz := hfill.ind
    rw [haddr] at hz
    rw [if_neg hd, wp_bind]
    refine wp_post (iappendAddr_spec h (Nat.le_refl _) (fun h0 => ?_) fun bn hbn => ?_) ?_
    · have ha : ¬NDIRECT < a := fun hc => hz.mpr hc h0
      unfold cost at hroom
      split_ifs at hroom <;> omega
    · exact absurd hbn.symm (slot_ne_ind bn)
    · rintro din' t' ⟨hT, -⟩
      have hkept : ∀ bn, curRef t' inum din' inum (slot bn) = curRef t inum din inum (slot bn) :=
        fun bn => hT.other _ _ fun hc => slot_ne_ind bn hc.2
      have hzs := hfill.slots fbn
      rw [← hkept, hslot] at hzs
      have hind : daddr din' NDIRECT ≠ 0 := by
        rw [← @curRef_addr _ t' inum _ hT.working.type (Nat.le_refl NDIRECT)]
        exact hT.filled
      -- the mark after the indirect block
      have hfree : t'.freeblock = t.freeblock + if NDIRECT < a then 0 else 1 := by
        split_ifs with hlt
        · exact hT.kept (by rw [haddr]; exact hz.mpr hlt)
        · exact hT.new (by rw [haddr]; by_contra hc; exact hlt (hz.mp hc))
      refine iappendEntry_spec hT.working hj hind (fun h0 => ?_) (fun h0 => ?_) fun u hU => ?_
      · have ha : ¬fbn < a := fun hc => hzs.mpr hc h0
        rw [hfree]
        unfold cost at hroom
        split_ifs at hroom ⊢ <;> omega
      · rcases ha with ha | ha
        · rw [show NDIRECT + (fbn - NDIRECT) = fbn by omega]
          exact ha.2
        · exact absurd h0 (hzs.mpr (by omega))
      · have hindu : curRef u inum din' inum NDIRECT = curRef t' inum din' inum NDIRECT :=
          hU.other _ _ fun hc => by omega
        refine ⟨⟨hT.same.trans hU.same, hU.working, ?_, fun y l hy => ?_, ?_, fun _ _ => rfl⟩, ?_⟩
        · have hold : ∀ bn, bn ≠ fbn →
              curRef u inum din' inum (slot bn) = curRef t inum din inum (slot bn) := by
            intro bn hbn
            rw [hU.other _ _ fun hc => hbn (slot_inj (hc.2.trans hslot.symm)), hkept]
          refine ⟨fun bn => ?_, ?_⟩
          · by_cases hbn : bn = fbn
            · rw [hbn, hslot]
              exact iff_of_true hU.filled (Nat.lt_succ_self _)
            · rw [hold bn hbn, hfill.slots]
              rcases ha with ⟨ha, -⟩ | ha <;> omega
          · rw [hindu]
            exact iff_of_true hT.filled (by omega)
        · rw [hU.other y l fun hc => hy hc.1, hT.other y l fun hc => hy hc.1]
        · rcases ha with ⟨ha, -⟩ | ha
          · rw [hU.new (by by_contra hc; have := hzs.mp hc; omega), hfree, ha]
            unfold cost
            split_ifs <;> omega
          · rw [hU.kept (hzs.mpr (by omega)), hfree, ha]
            unfold cost
            split_ifs <;> omega
        · change curRef u inum din' inum (NDIRECT + 1 + (fbn - NDIRECT)) = _
          rw [hslot]

/-! ### iappend -/

lemma Working.write (h : Working t inum din C)
    (hr : curRef t inum din inum (slot ((C inum).length / BSIZE)) ≠ 0)
    (hfit : (C inum).length % BSIZE + bs.length ≤ BSIZE) :
    let c := curRef t inum din inum (slot ((C inum).length / BSIZE))
    let u : St := { t with
      sect := Function.update t.sect c (put (t.sect c) ((C inum).length % BSIZE) bs) }
    Same t u ∧ Working u inum din (Function.update C inum (C inum ++ bs)) ∧
      curRef u inum din = curRef t inum din := by
  intro c u
  have hsame : Same t u := by
    refine ⟨rfl, rfl, fun b hb => Function.update_of_ne ?_ _ _⟩
    have := (h.layout.lt hr).1
    omega
  have hR : curRef u inum din = curRef t inum din := by
    unfold curRef
    rw [hsame.dinodes]
    refine Fs.refAt_update (fun y hy => ?_) _
    have hy0 : curRef t inum din y NDIRECT ≠ 0 := by
      rw [show curRef t inum din y NDIRECT = c from hy]
      exact hr
    exact slot_ne_ind _ (h.layout.acct.inj y inum NDIRECT _ hy0 hy).2.symm
  refine ⟨hsame, ⟨h.nsect, h.type, ?_⟩, hR⟩
  rw [hR]
  exact h.layout.write hr hfit

lemma iappendLoop_spec {E : Fail → Prop} : ∀ (fuel : ℕ) (t : St) (din : Mem) (C : ℕ → List Byte)
    (p : List Byte), Working t inum din C →
    Filled (curRef t inum din) inum (nblk (C inum).length) → p.length < fuel →
    (C inum).length + p.length ≤ MAXFILE * BSIZE →
    t.freeblock + cost (nblk ((C inum).length + p.length)) ≤
      FSSIZE + cost (nblk (C inum).length) →
    wp (iappendLoop fuel din (C inum).length p) (fun r t' =>
      Ready t t' inum din r.1 (nblk (C inum).length) (nblk ((C inum).length + p.length)) C
        (Function.update C inum (C inum ++ p)) ∧ r.2 = (C inum).length + p.length) E t := by
  intro fuel
  induction fuel with
  | zero => intro t din C p _ _ hf; omega
  | succ fuel ih =>
    intro t din C p h hfill hf hmax hroom
    rw [iappendLoop]
    by_cases hp : p = []
    · subst hp
      rw [if_pos rfl, wp_pure, List.append_nil, Function.update_eq_self]
      exact ⟨Ready.refl h hfill, rfl⟩
    have hpos : 0 < p.length := List.length_pos_iff.mpr hp
    set off := (C inum).length with hoff
    have hdm := Nat.div_add_mod off BSIZE
    have hlt := Nat.mod_lt off (show BSIZE > 0 by decide)
    set fbn := off / BSIZE with hfbn
    rw [if_neg hp]
    dsimp only
    have hfm : fbn < MAXFILE := by
      rw [hfbn, Nat.div_lt_iff_lt_mul (by decide)]
      omega
    rw [if_pos hfm, wp_bind]
    set n1 := min p.length ((fbn + 1) * BSIZE - off) with hn1
    have hmul : (fbn + 1) * BSIZE = BSIZE * fbn + BSIZE := by rw [Nat.add_mul, Nat.mul_comm, Nat.one_mul]
    have hblk : nblk (off + n1) = fbn + 1 := by
      unfold nblk BSIZE at *
      omega
    have hmono := cost_mono (nblk_mono (show off + n1 ≤ off + p.length by omega))
    rw [hblk] at hmono
    refine wp_post (iappendBlock_spec h hfill hfm ?_ (by omega)) fun r t' ⟨hR, hval⟩ => ?_
    · rcases Nat.eq_zero_or_pos (off % BSIZE) with hz | hz
      · refine Or.inl ⟨?_, by rw [Nat.mul_comm]; omega⟩
        unfold nblk BSIZE at *
        omega
      · refine Or.inr ?_
        unfold nblk BSIZE at *
        omega
    -- the bytes for this block
    have hr : curRef t' inum r.1 inum (slot fbn) ≠ 0 := (hR.filled.slots fbn).mpr (Nat.lt_succ_self _)
    have hsec : r.2 < t'.nsect := by
      rw [hval, hR.working.nsect]
      exact hR.working.layout.lt_size hr
    rw [wp_bind]
    refine rsect_spec hsec ?_
    rw [wp_bind]
    refine wsect_spec hsec ?_
    have htake : (p.take n1).length = n1 := by
      rw [List.length_take]
      omega
    obtain ⟨hsame, hw, hcur⟩ := hR.working.write hr
      (by change off % BSIZE + _ ≤ BSIZE; rw [htake]; omega)
    have hmod : off - fbn * BSIZE = off % BSIZE := by rw [Nat.mul_comm]; omega
    rw [hmod, hval]
    set c := curRef t' inum r.1 inum (slot fbn) with hc
    set u : St := { t' with
      sect := Function.update t'.sect c (put (t'.sect c) (off % BSIZE) (p.take n1)) } with hu
    set C' := Function.update C inum (C inum ++ p.take n1) with hC'
    have hself : C' inum = C inum ++ p.take n1 := Function.update_self _ _ _
    have hlen : (C' inum).length = off + n1 := by rw [hself, List.length_append, htake]
    have hdrop : (p.drop n1).length = p.length - n1 := List.length_drop
    have hsum : off + n1 + (p.length - n1) = off + p.length := by omega
    have hfree : u.freeblock = t'.freeblock := rfl
    have hpaid := hR.paid
    have hih := ih u r.1 C' (p.drop n1) hw (by rw [hlen, hblk, hcur]; exact hR.filled)
      (by omega) (by omega) (by rw [hlen, hdrop, hsum, hblk]; omega)
    rw [hlen, hdrop, hsum, hblk] at hih
    have hC'' : Function.update C' inum (C' inum ++ p.drop n1) =
        Function.update C inum (C inum ++ p) := by
      rw [hself, hC', Function.update_idem, List.append_assoc, List.take_append_drop]
    rw [hC''] at hih
    refine wp_post hih fun r' v ⟨hV, hr'⟩ => ⟨hR.trans (Ready.trans ?_ hV), hr'⟩
    exact ⟨hsame, hw, by rw [hcur]; exact hR.filled, fun y l _ => by rw [hcur], rfl,
      fun y hy => Function.update_of_ne hy _ _⟩

/-! ### The image between two calls -/

/-- The inodes made so far have the contents `C`. -/
structure Inv (t : St) (C : ℕ → List Byte) : Prop where
  nsect : t.nsect = FSSIZE
  used : ∀ x, (dinodes t.sect x).type ≠ .free ↔ 1 ≤ x ∧ x < t.freeinode
  size : ∀ x, (dinodes t.sect x).size = (C x).length
  layout : Layout (refAt (dinodes t.sect) t.sect) t.sect t.freeblock C
  filled : ∀ x, Filled (refAt (dinodes t.sect) t.sect) x (nblk (C x).length)

lemma Inv.blank (h : Inv t C) (hx : ¬(1 ≤ x ∧ x < t.freeinode)) : C x = [] := by
  have ht : (dinodes t.sect x).type = .free := by
    by_contra hc
    exact hx ((h.used x).mp hc)
  have hz : refAt (dinodes t.sect) t.sect x (slot 0) = 0 := by
    unfold refAt
    rw [if_pos ht]
  by_contra hc
  have hpos : 0 < (C x).length := List.length_pos_iff.mpr hc
  refine ((h.filled x).slots 0).mpr ?_ hz
  unfold nblk BSIZE
  omega

lemma max_size_lt : MAXFILE * BSIZE < 2 ^ 32 := by decide

lemma iappend_spec {E : Fail → Prop} {p : List Byte} (h : Inv t C) (h1 : 1 ≤ x)
    (h2 : x < t.freeinode) (hx : x < NINODES)
    (hmax : (C x).length + p.length ≤ MAXFILE * BSIZE)
    (hroom : t.freeblock + cost (nblk ((C x).length + p.length)) ≤
      FSSIZE + cost (nblk (C x).length)) :
    wp (iappend x p) (fun _ t' => Inv t' (Function.update C x (C x ++ p)) ∧
      t'.freeinode = t.freeinode ∧ t'.freeblock + cost (nblk (C x).length) =
        t.freeblock + cost (nblk ((C x).length + p.length))) E t := by
  unfold iappend
  rw [wp_bind]
  refine rinode_spec h.nsect hx ?_
  have hwin := dinode_window hx t.sect
  have hsize : dsize (window t.sect x) = (C x).length := by
    rw [← h.size x, ← hwin]
    rfl
  have hcur : curRef t x (window t.sect x) = refAt (dinodes t.sect) t.sect := by
    unfold curRef
    rw [hwin, Function.update_eq_self]
  have hwork : Working t x (window t.sect x) C :=
    ⟨h.nsect, by rw [hwin]; exact (h.used x).mpr ⟨h1, h2⟩, by rw [hcur]; exact h.layout⟩
  rw [wp_bind, hsize]
  refine wp_post (iappendLoop_spec _ t _ C p hwork (by rw [hcur]; exact h.filled x)
    (Nat.lt_succ_self _) hmax hroom) fun r t' ⟨hR, hr⟩ => ?_
  refine winode_spec (hR.same.nsect.trans h.nsect) hx fun u hn hfi hfb hsect hdin => ?_
  have hlen := max_size_lt
  rw [hr, dinode_setDsize r.1 (by omega)] at hdin
  -- the slots of the image are those that the loop left
  set D := Function.update (dinodes t'.sect) x (dinode r.1) with hD
  have hdin' : dinodes u.sect =
      Function.update D x { D x with size := (C x).length + p.length } := by
    rw [hdin, hD, Function.update_self, Function.update_idem]
  have hrefs : refAt (dinodes u.sect) u.sect = curRef t' x r.1 := by
    rw [hdin', refAt_resize]
    funext y l
    refine Fs.refAt_congr rfl (fun c hc he => hsect c ?_) l
    rw [← he]
    exact (hR.working.layout.lt (by rw [show curRef t' x r.1 y Fs.NDIRECT = c from he]; exact hc)).1
  refine ⟨⟨hn, fun y => ?_, fun y => ?_, ?_, fun y => ?_⟩, ?_, ?_⟩
  · rw [hfi, hR.same.freeinode, ← h.used y, hdin]
    by_cases hy : y = x
    · subst hy
      rw [Function.update_self]
      exact iff_of_true hR.working.type ((h.used y).mpr ⟨h1, h2⟩)
    · rw [Function.update_of_ne hy, hR.same.dinodes]
  · rw [hdin]
    by_cases hy : y = x
    · subst hy
      rw [Function.update_self, Function.update_self, List.length_append]
    · rw [Function.update_of_ne hy, Function.update_of_ne hy, hR.same.dinodes, h.size]
  · rw [hrefs, hfb]
    exact hR.working.layout.congr hsect
  · rw [hrefs]
    by_cases hy : y = x
    · subst hy
      rw [Function.update_self, List.length_append]
      exact hR.filled
    · rw [Function.update_of_ne hy]
      refine (h.filled y).congr fun l => ?_
      rw [hR.other y l hy, hcur]
  · rw [hfi, hR.same.freeinode]
  · rw [hfb]
    exact hR.paid

lemma dinode_newDinode {type : ℕ} (h1 : 1 ≤ type) (h2 : type ≤ 2) :
    (dinode (newDinode type)).type ≠ .free ∧ (dinode (newDinode type)).size = 0 ∧
      ∀ k, (dinode (newDinode type)).addrs k = 0 := by
  unfold newDinode
  rw [dinode_setDsize _ (by decide)]
  have hout : ∀ o, 8 ≤ o → put (put (fun _ => 0) 0 (le16 type)) 6 (le16 1) o = 0 := by
    intro o ho
    have hlen : ∀ v, (le16 v).length = 2 := fun _ => rfl
    rw [put_out (by rw [hlen]; omega), put_out (by rw [hlen]; omega)]
  refine ⟨?_, rfl, fun k => ?_⟩
  · obtain rfl | rfl : type = 1 ∨ type = 2 := by omega
    · decide
    · decide
  · change (if k ≤ NDIRECT then daddr _ k else 0) = 0
    split_ifs
    · unfold daddr entry
      rw [hout _ (by omega), hout _ (by omega), hout _ (by omega), hout _ (by omega)]
      rfl
    · rfl

lemma ialloc_spec {E : Fail → Prop} {type : ℕ} (h : Inv t C) (hpos : 1 ≤ t.freeinode)
    (hx : t.freeinode < NINODES) (h1 : 1 ≤ type) (h2 : type ≤ 2) :
    wp (ialloc type) (fun inum t' => inum = t.freeinode ∧ Inv t' C ∧
      t'.freeinode = t.freeinode + 1 ∧ t'.freeblock = t.freeblock) E t := by
  obtain ⟨htype, hsize, haddr⟩ := dinode_newDinode h1 h2
  unfold ialloc
  simp only [wp_bind, wp_get, wp_set]
  refine winode_spec h.nsect hx fun u hn hfi hfb hsect hdin => ?_
  rw [wp_pure]
  have hblank := h.blank (x := t.freeinode) (by omega)
  have hnew : ∀ l, refAt (dinodes u.sect) u.sect t.freeinode l = 0 := by
    intro l
    unfold refAt
    rw [hdin, Function.update_self, if_neg htype]
    exact Fs.slotAt_empty (fun k _ => haddr k) _ l
  have hold : ∀ l, refAt (dinodes t.sect) t.sect t.freeinode l = 0 := by
    intro l
    unfold refAt
    rw [if_pos]
    by_contra hc
    have := ((h.used t.freeinode).mp hc).2
    omega
  have hrefs : refAt (dinodes u.sect) u.sect = refAt (dinodes t.sect) t.sect := by
    funext y l
    by_cases hy : y = t.freeinode
    · rw [hy, hnew, hold]
    · refine Fs.refAt_congr (by rw [hdin, Function.update_of_ne hy]) (fun c hc he => hsect c ?_) l
      rw [← he]
      exact (h.layout.lt (by rw [he]; exact hc)).1
  refine ⟨rfl, ⟨hn, fun y => ?_, fun y => ?_, ?_, fun y => ?_⟩, hfi, hfb⟩
  · rw [hfi, hdin]
    by_cases hy : y = t.freeinode
    · rw [hy, Function.update_self]
      exact iff_of_true htype ⟨hpos, Nat.lt_succ_self _⟩
    · rw [Function.update_of_ne hy]
      refine (h.used y).trans ?_
      change _ ↔ 1 ≤ y ∧ y < t.freeinode + 1
      omega
  · rw [hdin]
    by_cases hy : y = t.freeinode
    · rw [hy, Function.update_self, hsize, hblank]
      rfl
    · rw [Function.update_of_ne hy]
      exact h.size y
  · rw [hrefs, hfb]
    exact h.layout.congr hsect
  · rw [hrefs]
    exact h.filled y

/-! ### The files -/

lemma length_strncpy (n : ℕ) (name : List Byte) : (strncpy n name).length = n := by
  induction n generalizing name with
  | zero => rfl
  | succ n ih =>
    unfold strncpy
    split_ifs
    · exact List.length_replicate
    · rw [List.length_cons, ih]

lemma length_dirent (inum : ℕ) (name : List Byte) : (dirent inum name).length = DESIZE := by
  unfold dirent Dirent.toBytes DESIZE
  rw [List.length_cons, List.length_cons, length_strncpy]
  omega

lemma appendAll_spec {E : Fail → Prop} (hx : x < NINODES) (h1 : 1 ≤ x) : ∀ (cs : List (List Byte))
    (t : St) (C : ℕ → List Byte), Inv t C → x < t.freeinode →
    (C x).length + cs.flatten.length ≤ MAXFILE * BSIZE →
    t.freeblock + cost (nblk ((C x).length + cs.flatten.length)) ≤
      FSSIZE + cost (nblk (C x).length) →
    wp (appendAll x cs) (fun _ t' => Inv t' (Function.update C x (C x ++ cs.flatten)) ∧
      t'.freeinode = t.freeinode ∧ t'.freeblock + cost (nblk (C x).length) =
        t.freeblock + cost (nblk ((C x).length + cs.flatten.length))) E t := by
  intro cs
  induction cs with
  | nil =>
    intro t C h _ _ _
    rw [appendAll, wp_pure, List.flatten_nil, List.append_nil, Function.update_eq_self]
    exact ⟨h, rfl, rfl⟩
  | cons c cs ih =>
    intro t C h h2 hmax hroom
    rw [List.flatten_cons, List.length_append] at hmax hroom
    rw [appendAll, wp_bind]
    have hmono := cost_mono (nblk_mono (show (C x).length + c.length ≤
      (C x).length + (c.length + cs.flatten.length) by omega))
    refine wp_post (iappend_spec h h1 h2 hx (by omega) (by omega)) fun _ t' ⟨hI, hfi, hpaid⟩ => ?_
    have hself : Function.update C x (C x ++ c) x = C x ++ c := Function.update_self _ _ _
    have hlen : (C x ++ c).length + cs.flatten.length =
        (C x).length + (c.length + cs.flatten.length) := by
      rw [List.length_append]
      omega
    have hstep := ih t' _ hI (by rw [hfi]; exact h2)
      (by rw [hself, hlen]; exact hmax)
      (by rw [hself, hlen, List.length_append]; omega)
    rw [hself, hlen, Function.update_idem, List.length_append] at hstep
    refine wp_post hstep fun _ u ⟨hU, hfu, hpu⟩ => ?_
    rw [List.flatten_cons, ← List.append_assoc, List.length_append]
    exact ⟨hU, hfu.trans hfi, by omega⟩

/-- The contents after inode `j` has been made for a file. -/
def withFile (C : ℕ → List Byte) (j : ℕ) (f : File) : ℕ → List Byte :=
  Function.update (Function.update C ROOTINO (C ROOTINO ++ dirent j (shortname f.path))) j f.content

/-- The contents after the files, the first of them in inode `j`. -/
def withFiles (C : ℕ → List Byte) (j : ℕ) : List File → ℕ → List Byte
  | [] => C
  | f :: fs => withFiles (withFile C j f) (j + 1) fs

/-- `mkfs` stops at a name with a slash in it. -/
def BadName (files : List File) (e : Fail) : Prop :=
  e = .shortname ∧ ∃ f ∈ files, slash ∈ basename f.path

/-- The blocks that a file takes. -/
def fileCost (f : File) : ℕ := cost (nblk f.content.length)

lemma addFile_spec {E : Fail → Prop} {f : File} (h : Inv t C) (h1 : ROOTINO < t.freeinode)
    (hx : t.freeinode < NINODES) (hf : f.content.length ≤ MAXFILE * BSIZE)
    (hroot : (C ROOTINO).length + DESIZE ≤ MAXFILE * BSIZE)
    (hroom : t.freeblock + cost (nblk ((C ROOTINO).length + DESIZE)) + fileCost f ≤
      FSSIZE + cost (nblk (C ROOTINO).length))
    (hbad : slash ∈ basename f.path → E .shortname) :
    wp (addFile ROOTINO f) (fun _ t' => Inv t' (withFile C t.freeinode f) ∧
      t'.freeinode = t.freeinode + 1 ∧ t'.freeblock + cost (nblk (C ROOTINO).length) =
        t.freeblock + cost (nblk ((C ROOTINO).length + DESIZE)) + fileCost f) E t := by
  unfold addFile
  by_cases hs : slash ∈ basename f.path
  · rw [if_pos hs, wp_throw]
    exact hbad hs
  rw [if_neg hs, wp_bind]
  have hpos : 1 ≤ t.freeinode := Nat.le_trans (by decide) (Nat.le_of_lt h1)
  refine wp_post (ialloc_spec h hpos hx (by decide) (by decide)) fun inum t1 ⟨hi, hI, hfi, hfb⟩ => ?_
  subst hi
  rw [wp_bind]
  have hlen := length_dirent t.freeinode (shortname f.path)
  have hblank := h.blank (x := t.freeinode) (by omega)
  refine wp_post (iappend_spec hI (by decide) (by omega) (by omega) (by rw [hlen]; exact hroot)
    (by rw [hlen, hfb]; omega)) fun _ t2 ⟨hI2, hfi2, hp2⟩ => ?_
  have hne : t.freeinode ≠ ROOTINO := by omega
  have hcur : Function.update C ROOTINO (C ROOTINO ++ dirent t.freeinode (shortname f.path))
      t.freeinode = [] := by
    rw [Function.update_of_ne hne, hblank]
  have hz : cost (nblk 0) = 0 := by decide
  have hall := appendAll_spec (E := E) hx hpos f.chunks t2 _ hI2 (by omega)
    (by rw [hcur, List.length_nil, Nat.zero_add]; exact hf)
    (by
      rw [hcur, List.length_nil, Nat.zero_add, hz]
      change _ + fileCost f ≤ _
      rw [hlen, hfb] at hp2
      omega)
  refine wp_post hall fun _ t3 ⟨hI3, hfi3, hp3⟩ => ?_
  rw [hcur, List.length_nil, List.nil_append] at *
  rw [Nat.zero_add, hz] at hp3
  refine ⟨hI3, by omega, ?_⟩
  change _ = _ + fileCost f at hp3
  rw [hlen, hfb] at hp2
  omega

lemma addFiles_spec : ∀ (files : List File) (t : St) (C : ℕ → List Byte), Inv t C →
    ROOTINO < t.freeinode → t.freeinode + files.length ≤ NINODES →
    (∀ f ∈ files, f.content.length ≤ MAXFILE * BSIZE) →
    (C ROOTINO).length + DESIZE * files.length ≤ MAXFILE * BSIZE →
    t.freeblock + cost (nblk ((C ROOTINO).length + DESIZE * files.length)) +
      (files.map fileCost).sum ≤ FSSIZE + cost (nblk (C ROOTINO).length) →
    wp (addFiles ROOTINO files) (fun _ t' => Inv t' (withFiles C t.freeinode files) ∧
      t'.freeinode = t.freeinode + files.length) (BadName files) t := by
  intro files
  induction files with
  | nil => intro t C h _ _ _ _ _; exact ⟨h, rfl⟩
  | cons f fs ih =>
    intro t C h h1 hx hf hroot hroom
    rw [List.length_cons] at hx
    rw [List.length_cons, Nat.mul_add, Nat.mul_one] at hroot hroom
    rw [List.map_cons, List.sum_cons] at hroom
    rw [addFiles, wp_bind]
    have hmono := cost_mono (nblk_mono (show (C ROOTINO).length + DESIZE ≤
      (C ROOTINO).length + (DESIZE * fs.length + DESIZE) by omega))
    refine wp_post (addFile_spec h h1 (by omega) (hf f List.mem_cons_self) (by omega) (by omega)
      fun hs => ⟨rfl, f, List.mem_cons_self, hs⟩) fun _ t1 ⟨hI, hfi, hpaid⟩ => ?_
    have hne : ROOTINO ≠ t.freeinode := by omega
    have hlen : (withFile C t.freeinode f ROOTINO).length = (C ROOTINO).length + DESIZE := by
      unfold withFile
      rw [Function.update_of_ne hne, Function.update_self, List.length_append, length_dirent]
    have hstep := ih t1 _ hI (by omega) (by omega) (fun g hg => hf g (List.mem_cons_of_mem _ hg))
      (by rw [hlen]; omega)
      (by
        rw [hlen, show (C ROOTINO).length + DESIZE + DESIZE * fs.length =
          (C ROOTINO).length + (DESIZE * fs.length + DESIZE) by omega]
        omega)
    rw [hfi] at hstep
    refine wp_mono hstep (fun _ t2 ⟨hI2, hfi2⟩ => ⟨hI2, by rw [hfi2, List.length_cons]; omega⟩)
      fun e ⟨he, g, hg, hs⟩ => ⟨he, g, List.mem_cons_of_mem _ hg, hs⟩

end Xv6.Mkfs
