import Xv6.Virtio
import Mathlib.Data.List.Nodup
import Mathlib.Data.List.Perm.Basic

/-!
Disk completions reach the request that issued them.

The descriptors that are not free are those of the callers, three to each, and no two callers have
one in common. Up to its completion a request is known by its place in the order of publication,
and each request that the handler has not seen belongs to a caller that waits. So there are at most
as many of them as descriptors, and the entries of both rings last until they are read, however far
the indices have wrapped.
-/

namespace Xv6.Virtio

variable {β : Type}

/-! ### What a caller has -/

/-- The descriptors that the caller has allocated. -/
def Pc.idx : Pc → Option Idx
  | .format _ x | .offer _ x | .publish _ x | .check _ x _ | .sleep _ x _ => some x
  | _ => none

/-- The request that the caller has formatted. -/
def Pc.ready : Pc → Option (Request × Idx)
  | .offer r x | .publish r x | .check r x _ | .sleep r x _ => some (r, x)
  | _ => none

/-- The request that the caller has published. -/
def Pc.waits : Pc → Option (Request × Idx × ℕ)
  | .check r x n | .sleep r x n => some (r, x, n)
  | _ => none

/-- The caller has the lock. -/
def Pc.Inside : Pc → Prop
  | .format .. | .offer .. | .publish .. | .check .. => True
  | _ => False

lemma Pc.ready_of_waits {k : Pc} {r : Request} {x : Idx} {n : ℕ} (h : k.waits = some (r, x, n)) :
    k.ready = some (r, x) := by
  cases k <;> cases h <;> rfl

lemma Pc.idx_of_ready {k : Pc} {r : Request} {x : Idx} (h : k.ready = some (r, x)) :
    k.idx = some x := by
  cases k <;> cases h <;> rfl

/-- One of the three. -/
def Idx.Has (x : Idx) (i : ℕ) : Prop := i = x.i0 ∨ i = x.i1 ∨ i = x.i2

structure Idx.Proper (x : Idx) : Prop where
  lt : ∀ i, x.Has i → i < NUM
  ne01 : x.i0 ≠ x.i1
  ne02 : x.i0 ≠ x.i2
  ne12 : x.i1 ≠ x.i2

lemma Idx.has0 (x : Idx) : x.Has x.i0 := Or.inl rfl
lemma Idx.has1 (x : Idx) : x.Has x.i1 := Or.inr (Or.inl rfl)
lemma Idx.has2 (x : Idx) : x.Has x.i2 := Or.inr (Or.inr rfl)

/-- The chain of the request is what the device and the handler expect. -/
structure Formatted (desc : ℕ → Desc β) (ops : ℕ → Op) (info : ℕ → Info β) (b : β) (r : Request)
    (x : Idx) : Prop where
  op : ops x.i0 = ⟨(r.command b).type, 0, (r.command b).sector⟩
  d0 : desc x.i0 = ⟨.op x.i0, 16, VRING_DESC_F_NEXT, x.i1⟩
  d1 : desc x.i1 = ⟨.data b, BSIZE,
    (if r.write then 0 else VRING_DESC_F_WRITE) ||| VRING_DESC_F_NEXT, x.i2⟩
  d2 : desc x.i2 = ⟨.status x.i0, 1, VRING_DESC_F_WRITE, 0⟩
  info : (info x.i0).b = some b

/-- The places of the requests that the device has taken. -/
def State.positions (s : State β) : List ℕ :=
  s.pending.map Item.n ++ s.served.map Item.n ++ s.filled

/-- The requests that the handler has seen. -/
def State.seen (s : State β) : List ℕ := s.filled.take s.handled

/-- The head of a published request. -/
def State.head (s : State β) (n : ℕ) : Option ℕ := s.published[n]?.map Prod.snd

structure Inv (s : State β) : Prop where
  proper : ∀ b x, (s.pc b).idx = some x → x.Proper
  disjoint : ∀ b c x y i, (s.pc b).idx = some x → (s.pc c).idx = some y → x.Has i → y.Has i → b = c
  free : ∀ i, i < NUM → (s.free i = true ↔ ∀ b x, (s.pc b).idx = some x → ¬ x.Has i)
  formatted : ∀ b r x, (s.pc b).ready = some (r, x) → Formatted s.desc s.ops s.info b r x
  inside : ∀ b, (s.pc b).Inside ↔ s.vdisk_lock = some (.rw b)
  armed : ∀ b r x, s.pc b = .offer r x ∨ s.pc b = .publish r x → s.disk b = true
  offered : ∀ b r x, s.pc b = .publish r x → s.avail.ring (s.published.length % NUM) = x.i0
  avail_idx : s.avail.idx = BitVec.ofNat 16 s.published.length
  last : s.last = BitVec.ofNat 16 s.taken
  next : s.next = BitVec.ofNat 16 s.filled.length
  flush_idx : s.used.idx = BitVec.ofNat 16 s.flushed
  used_idx : s.used_idx = BitVec.ofNat 16 s.handled
  taken_le : s.taken ≤ s.published.length
  flushed_le : s.flushed ≤ s.filled.length
  handled_le : s.handled ≤ s.flushed
  positions : s.positions.Perm (List.range s.taken)
  waits : ∀ b r x n, (s.pc b).waits = some (r, x, n) →
    s.published[n]? = some (b, x.i0) ∧ (s.disk b = true ↔ n ∉ s.seen)
  unseen : ∀ n, n < s.published.length → n ∉ s.seen → ∃ b r x, (s.pc b).waits = some (r, x, n)
  avail_ring : ∀ n, s.taken ≤ n → n < s.published.length →
    s.head n = some (s.avail.ring (n % NUM))
  used_ring : ∀ k n, s.handled ≤ k → s.filled[k]? = some n →
    s.head n = some (s.used.ring (k % NUM))
  heads : ∀ it, it ∈ s.pending ∨ it ∈ s.served → s.head it.n = some it.head
  done : ∀ b r x n, (s.pc b).waits = some (r, x, n) → n ∈ s.served.map Item.n ∨ n ∈ s.filled →
    (s.info x.i0).status = 0 ∧ (n, r.command b) ∈ s.done

variable {s t : State β} {b c : β} {r : Request} {x y : Idx} {n : ℕ}

/-! ### Descriptors and their owners -/

/-- The descriptors that are not free are those of the callers, three to each. -/
structure Owned (idx : β → Option Idx) (free : ℕ → Bool) : Prop where
  proper : ∀ b x, idx b = some x → x.Proper
  disjoint : ∀ b c x y i, idx b = some x → idx c = some y → x.Has i → y.Has i → b = c
  free : ∀ i, i < NUM → (free i = true ↔ ∀ b x, idx b = some x → ¬ x.Has i)

section

variable {idx idx' : β → Option Idx} {free : ℕ → Bool}

lemma Owned.congr (h : Owned idx free) (he : ∀ c, idx' c = idx c) : Owned idx' free := by
  obtain rfl : idx' = idx := funext he
  exact h

lemma set_three (hx : x.Proper) (free : ℕ → Bool) (v : Bool) (i : ℕ) :
    Function.update (Function.update (Function.update free x.i0 v) x.i1 v) x.i2 v i = true ↔
      if v then free i = true ∨ x.Has i else free i = true ∧ ¬ x.Has i := by
  unfold Idx.Has
  by_cases h2 : i = x.i2
  · cases v <;> simp [h2]
  by_cases h1 : i = x.i1
  · cases v <;> simp [h1, Function.update_of_ne hx.ne12]
  by_cases h0 : i = x.i0
  · cases v <;> simp [h0, Function.update_of_ne hx.ne02, Function.update_of_ne hx.ne01]
  · cases v <;> simp [h0, h1, h2, Function.update_of_ne]

/-- **Allocation**: three more descriptors have an owner. -/
lemma Owned.allocate (h : Owned idx free) (hx : x.Proper) (hf : ∀ i, x.Has i → free i = true)
    (hno : idx b = none) (hb : idx' b = some x) (hoth : ∀ c, c ≠ b → idx' c = idx c) :
    Owned idx' (Function.update (Function.update (Function.update free
      x.i0 false) x.i1 false) x.i2 false) := by
  have hnone : ∀ c y i, idx c = some y → x.Has i → ¬ y.Has i := fun c y i hc hi =>
    (h.free i (hx.lt i hi)).mp (hf i hi) c y hc
  have hidx : ∀ c y, idx' c = some y → c = b ∧ y = x ∨ c ≠ b ∧ idx c = some y := by
    intro c y hc
    by_cases hcb : c = b
    · subst hcb
      exact Or.inl ⟨rfl, Option.some.inj (hc.symm.trans hb)⟩
    · exact Or.inr ⟨hcb, (hoth c hcb).symm.trans hc⟩
  refine ⟨?_, ?_, ?_⟩
  · intro c y hc
    rcases hidx c y hc with ⟨-, rfl⟩ | ⟨-, hc⟩
    · exact hx
    · exact h.proper c y hc
  · intro c d y z i hc hd hy hz
    rcases hidx c y hc with ⟨rfl, rfl⟩ | ⟨-, hc'⟩ <;>
      rcases hidx d z hd with ⟨rfl, rfl⟩ | ⟨-, hd'⟩
    · rfl
    · exact absurd hz (hnone d z i hd' hy)
    · exact absurd hy (hnone c y i hc' hz)
    · exact h.disjoint c d y z i hc' hd' hy hz
  · intro i hi
    refine (set_three hx free false i).trans ?_
    rw [if_neg (by simp), h.free i hi]
    constructor
    · rintro ⟨h1, h2⟩ c y hc
      rcases hidx c y hc with ⟨-, rfl⟩ | ⟨-, hc⟩
      · exact h2
      · exact h1 c y hc
    · intro hall
      refine ⟨fun c y hc => ?_, hall b x hb⟩
      have hcb : c ≠ b := by
        rintro rfl
        rw [hno] at hc
        cases hc
      exact hall c y ((hoth c hcb).trans hc)

/-- **Release**: the owner of three descriptors gives them back. -/
lemma Owned.release (h : Owned idx free) (hx : idx b = some x) (hb : idx' b = none)
    (hoth : ∀ c, c ≠ b → idx' c = idx c) :
    Owned idx' (Function.update (Function.update (Function.update free
      x.i0 true) x.i1 true) x.i2 true) := by
  have hidx : ∀ c y, idx' c = some y → c ≠ b ∧ idx c = some y := by
    intro c y hc
    have hcb : c ≠ b := by
      rintro rfl
      rw [hb] at hc
      cases hc
    exact ⟨hcb, (hoth c hcb).symm.trans hc⟩
  refine ⟨?_, ?_, ?_⟩
  · intro c y hc
    exact h.proper c y (hidx c y hc).2
  · intro c d y z i hc hd
    exact h.disjoint c d y z i (hidx c y hc).2 (hidx d z hd).2
  · intro i hi
    refine (set_three (h.proper b x hx) free true i).trans ?_
    rw [if_pos rfl, h.free i hi]
    constructor
    · rintro (hno | hxi) c y hc hyi
      · exact hno c y (hidx c y hc).2 hyi
      · exact (hidx c y hc).1 (h.disjoint c b y x i (hidx c y hc).2 hx hyi hxi)
    · intro hall
      by_cases hxi : x.Has i
      · exact Or.inr hxi
      · refine Or.inl fun c y hc hyi => ?_
        by_cases hcb : c = b
        · subst hcb
          exact hxi (Option.some.inj (hx.symm.trans hc) ▸ hyi)
        · exact hall c y ((hoth c hcb).trans hc) hyi

end

lemma Inv.owned (hI : Inv s) : Owned (fun c => (s.pc c).idx) s.free :=
  ⟨hI.proper, hI.disjoint, hI.free⟩

lemma Inv.only (hI : Inv s) (hb : (s.pc b).Inside) (hc : (s.pc c).Inside) : c = b := by
  have h := (hI.inside b).mp hb
  rw [(hI.inside c).mp hc] at h
  exact Holder.rw.inj (Option.some.inj h)

/-! ### Allocation -/

lemma boot_inv : Inv (boot : State β) := by
  refine ⟨nofun, nofun, fun i _ => ⟨fun _ => nofun, fun _ => rfl⟩, nofun, fun b => ⟨nofun, nofun⟩,
    nofun, nofun, rfl, rfl, rfl, rfl, rfl, Nat.le_refl 0, Nat.le_refl 0,
    Nat.le_refl 0, List.Perm.refl _, nofun, ?_, ?_,
    nofun, ?_, nofun⟩
  · intro n hn
    exact absurd hn (Nat.not_lt_zero n)
  · intro n _ hn
    exact absurd hn (Nat.not_lt_zero n)
  · rintro it (h | h) <;> cases h

lemma alloc_desc_cases (s : State β) :
    (∃ i, i < NUM ∧ s.free i = true ∧
      alloc_desc s = ({ s with free := Function.update s.free i false }, some i)) ∨
    alloc_desc s = (s, none) := by
  unfold alloc_desc
  cases hf : (List.range NUM).find? s.free with
  | none => exact Or.inr rfl
  | some i =>
    exact Or.inl ⟨i, List.mem_range.mp (List.mem_of_find?_eq_some hf), List.find?_some hf, rfl⟩

lemma free_desc_eq {i : ℕ} (hi : i < NUM) (hf : s.free i = false) : free_desc i s =
    .ok { s with
      desc := Function.update s.desc i ⟨.null, 0, 0, 0⟩
      free := Function.update s.free i true } := by
  unfold free_desc
  rw [if_neg (Nat.not_le.mpr hi), if_neg (by simp [hf])]
  rfl

/-- A descriptor that was allocated and is given back: it is free as before, and only its contents
have changed. -/
lemma give_back {free : ℕ → Bool} {i : ℕ} (h : free i = true) :
    Function.update (Function.update free i false) i true = free := by
  rw [Function.update_idem, ← h, Function.update_eq_self]

/-- Either three free descriptors are allocated, or free ones have lost their contents. -/
lemma alloc3_desc_cases (s : State β) :
    (∃ x : Idx, x.Proper ∧ (∀ i, x.Has i → s.free i = true) ∧ alloc3_desc s =
      .ok ({ s with free := Function.update (Function.update (Function.update s.free
        x.i0 false) x.i1 false) x.i2 false }, some x)) ∨
    ∃ desc : ℕ → Desc β, (∀ i, s.free i = false → desc i = s.desc i) ∧
      alloc3_desc s = .ok ({ s with desc := desc }, none) := by
  rcases alloc_desc_cases s with ⟨i0, h0, hf0, he0⟩ | he0
  · -- the second one is not the first, which is not free any more
    set s1 : State β := { s with free := Function.update s.free i0 false } with hs1
    have hne0 : ∀ i, s1.free i = true → i ≠ i0 ∧ s.free i = true := by
      intro i hi
      have hne : i ≠ i0 := by
        rintro rfl
        simp [hs1] at hi
      exact ⟨hne, by simpa [hs1, Function.update_of_ne hne] using hi⟩
    rcases alloc_desc_cases s1 with ⟨i1, h1, hf1, he1⟩ | he1
    · set s2 : State β := { s1 with free := Function.update s1.free i1 false } with hs2
      have hne1 : ∀ i, s2.free i = true → i ≠ i1 ∧ s1.free i = true := by
        intro i hi
        have hne : i ≠ i1 := by
          rintro rfl
          simp [hs2] at hi
        exact ⟨hne, by simpa [hs2, Function.update_of_ne hne] using hi⟩
      obtain ⟨hne10, hfree1⟩ := hne0 i1 hf1
      rcases alloc_desc_cases s2 with ⟨i2, h2, hf2, he2⟩ | he2
      · obtain ⟨hne21, hf2'⟩ := hne1 i2 hf2
        obtain ⟨hne20, hfree2⟩ := hne0 i2 hf2'
        refine Or.inl ⟨⟨i0, i1, i2⟩, ⟨?_, Ne.symm hne10, Ne.symm hne20, Ne.symm hne21⟩, ?_, ?_⟩
        · rintro i (rfl | rfl | rfl)
          · exact h0
          · exact h1
          · exact h2
        · rintro i (rfl | rfl | rfl)
          · exact hf0
          · exact hfree1
          · exact hfree2
        · unfold alloc3_desc
          rw [he0]
          dsimp only
          rw [he1]
          dsimp only
          rw [he2]
          rfl
      · right
        have hfree0 : s2.free i0 = false := by
          simp [hs2, hs1, Function.update_of_ne (Ne.symm hne10)]
        have hback0 := free_desc_eq (s := s2) h0 hfree0
        set s3 : State β := { s2 with
          desc := Function.update s2.desc i0 ⟨.null, 0, 0, 0⟩
          free := Function.update s2.free i0 true } with hs3
        have hfree1' : s3.free i1 = false := by
          simp [hs3, hs2, Function.update_of_ne hne10]
        have hback1 := free_desc_eq (s := s3) h1 hfree1'
        refine ⟨Function.update (Function.update s.desc i0 ⟨.null, 0, 0, 0⟩) i1 ⟨.null, 0, 0, 0⟩,
          fun i hi => ?_, ?_⟩
        · have hni0 : i ≠ i0 := by
            rintro rfl
            rw [hf0] at hi
            cases hi
          have hni1 : i ≠ i1 := by
            rintro rfl
            rw [hfree1] at hi
            cases hi
          rw [Function.update_of_ne hni1, Function.update_of_ne hni0]
        · have hall : Function.update (Function.update (Function.update (Function.update s.free
              i0 false) i1 false) i0 true) i1 true = s.free := by
            rw [Function.update_comm hne10, give_back hf0, give_back hfree1]
          unfold alloc3_desc
          rw [he0]
          dsimp only
          rw [he1]
          dsimp only
          rw [he2]
          dsimp only
          rw [hback0]
          change free_desc i1 s3 >>= _ = _
          rw [hback1]
          change Except.ok (_, none) = _
          rw [← hall]
    · right
      refine ⟨Function.update s.desc i0 ⟨.null, 0, 0, 0⟩, fun i hi => ?_, ?_⟩
      · have hni0 : i ≠ i0 := by
          rintro rfl
          rw [hf0] at hi
          cases hi
        rw [Function.update_of_ne hni0]
      · have hback := free_desc_eq (s := s1) h0 (by simp [hs1])
        unfold alloc3_desc
        rw [he0]
        dsimp only
        rw [he1]
        dsimp only
        rw [hback]
        change Except.ok (_, none) = _
        rw [hs1]
        dsimp only
        rw [give_back hf0]
  · refine Or.inr ⟨s.desc, fun i _ => rfl, ?_⟩
    unfold alloc3_desc
    rw [he0]
    rfl

/-- A chain of three descriptors is freed. -/
lemma free_chain_eq (hx : x.Proper) (hf : ∀ i, x.Has i → s.free i = false)
    (h0 : (s.desc x.i0).flags &&& VRING_DESC_F_NEXT ≠ 0 ∧ (s.desc x.i0).next = x.i1)
    (h1 : (s.desc x.i1).flags &&& VRING_DESC_F_NEXT ≠ 0 ∧ (s.desc x.i1).next = x.i2)
    (h2 : (s.desc x.i2).flags &&& VRING_DESC_F_NEXT = 0) :
    ∃ desc : ℕ → Desc β, (∀ i, ¬ x.Has i → desc i = s.desc i) ∧
      free_chain (NUM + 1) x.i0 s = .ok { s with
        desc := desc
        free := Function.update (Function.update (Function.update s.free
          x.i0 true) x.i1 true) x.i2 true } := by
  have e0 := free_desc_eq (hx.lt _ x.has0) (hf _ x.has0)
  set s1 : State β := { s with
    desc := Function.update s.desc x.i0 ⟨.null, 0, 0, 0⟩
    free := Function.update s.free x.i0 true } with hs1
  have e1 := free_desc_eq (s := s1) (hx.lt _ x.has1)
    (by simp [hs1, Function.update_of_ne (Ne.symm hx.ne01), hf _ x.has1])
  set s2 : State β := { s1 with
    desc := Function.update s1.desc x.i1 ⟨.null, 0, 0, 0⟩
    free := Function.update s1.free x.i1 true } with hs2
  have e2 := free_desc_eq (s := s2) (hx.lt _ x.has2)
    (by simp [hs2, hs1, Function.update_of_ne (Ne.symm hx.ne02),
      Function.update_of_ne (Ne.symm hx.ne12), hf _ x.has2])
  have d1 : s1.desc x.i1 = s.desc x.i1 := Function.update_of_ne (Ne.symm hx.ne01) _ _
  have d2 : s2.desc x.i2 = s.desc x.i2 := by
    rw [hs2, hs1]
    dsimp only
    rw [Function.update_of_ne (Ne.symm hx.ne12), Function.update_of_ne (Ne.symm hx.ne02)]
  refine ⟨Function.update s2.desc x.i2 ⟨.null, 0, 0, 0⟩, fun i hi => ?_, ?_⟩
  · rw [Idx.Has, not_or, not_or] at hi
    rw [Function.update_of_ne hi.2.2, hs2]
    dsimp only
    rw [Function.update_of_ne hi.2.1, hs1]
    dsimp only
    rw [Function.update_of_ne hi.1]
  · change (free_desc x.i0 s >>= _) = _
    rw [e0]
    change (if _ then free_chain NUM (s.desc x.i0).next s1 else _) = _
    rw [if_pos h0.1, h0.2]
    change (free_desc x.i1 s1 >>= _) = _
    rw [e1]
    change (if (s1.desc x.i1).flags &&& VRING_DESC_F_NEXT ≠ 0 then
      free_chain 7 (s1.desc x.i1).next s2 else _) = _
    rw [d1, if_pos h1.1, h1.2]
    change (free_desc x.i2 s2 >>= _) = _
    rw [e2]
    change (if (s2.desc x.i2).flags &&& VRING_DESC_F_NEXT ≠ 0 then _ else _) = _
    rw [d2, if_neg (not_not.mpr h2)]
    rfl

lemma Formatted.chain (h : Formatted s.desc s.ops s.info b r x) :
    ((s.desc x.i0).flags &&& VRING_DESC_F_NEXT ≠ 0 ∧ (s.desc x.i0).next = x.i1) ∧
    ((s.desc x.i1).flags &&& VRING_DESC_F_NEXT ≠ 0 ∧ (s.desc x.i1).next = x.i2) ∧
    (s.desc x.i2).flags &&& VRING_DESC_F_NEXT = 0 := by
  have hmore : ∀ w : Bool, ((if w then 0 else VRING_DESC_F_WRITE) ||| VRING_DESC_F_NEXT) &&&
      VRING_DESC_F_NEXT ≠ 0 := by decide
  have hnext : VRING_DESC_F_NEXT &&& VRING_DESC_F_NEXT ≠ 0 := by decide
  have hlast : VRING_DESC_F_WRITE &&& VRING_DESC_F_NEXT = 0 := by decide
  rw [h.d0, h.d1, h.d2]
  exact ⟨⟨hnext, rfl⟩, ⟨hmore r.write, rfl⟩, hlast⟩

/-! ### Counting -/

lemma slot (k : ℕ) : (BitVec.ofNat 16 k).toNat % NUM = k % NUM := by
  rw [BitVec.toNat_ofNat]
  exact Nat.mod_mod_of_dvd k (by decide)

lemma Inv.nodup (hI : Inv s) : s.positions.Nodup :=
  hI.positions.nodup_iff.mpr List.nodup_range

lemma Inv.filled_nodup (hI : Inv s) : s.filled.Nodup :=
  (List.nodup_append.mp hI.nodup).2.1

lemma Inv.mem_positions (hI : Inv s) : n ∈ s.positions ↔ n < s.taken := by
  rw [hI.positions.mem_iff, List.mem_range]

lemma seen_subset (h : n ∈ s.seen) : n ∈ s.filled := List.mem_of_mem_take h

/-- A published request that the handler has not seen. -/
def Unseen (s : State β) (n : ℕ) : Prop := n < s.published.length ∧ n ∉ s.seen

lemma Inv.waiter (hI : Inv s) (h : Unseen s n) :
    ∃ b r x, (s.pc b).waits = some (r, x, n) ∧ s.head n = some x.i0 := by
  obtain ⟨b, r, x, hw⟩ := hI.unseen n h.1 h.2
  refine ⟨b, r, x, hw, ?_⟩
  rw [State.head, (hI.waits b r x n hw).1]
  rfl

lemma waits_idx (h : (s.pc b).waits = some (r, x, n)) : (s.pc b).idx = some x :=
  Pc.idx_of_ready (Pc.ready_of_waits h)

lemma Inv.heads_nodup (hI : Inv s) {l : List ℕ} (hl : l.Nodup) (hu : ∀ n ∈ l, Unseen s n) :
    (l.map s.head).Nodup := by
  refine hl.map_on fun n hn n' hn' he => ?_
  obtain ⟨b, r, x, hw, hh⟩ := hI.waiter (hu n hn)
  obtain ⟨b', r', x', hw', hh'⟩ := hI.waiter (hu n' hn')
  rw [hh, hh'] at he
  have hb : b = b' := hI.disjoint b b' x x' x.i0 (waits_idx hw) (waits_idx hw') x.has0
    (Or.inl (Option.some.inj he))
  subst hb
  rw [hw] at hw'
  exact congrArg (fun q => q.2.2) (Option.some.inj hw')

lemma Inv.heads_lt (hI : Inv s) {l : List ℕ} (hu : ∀ n ∈ l, Unseen s n) :
    ∀ h ∈ l.map s.head, h ∈ (List.range NUM).map some := by
  intro h hh
  obtain ⟨n, hn, rfl⟩ := List.mem_map.mp hh
  obtain ⟨b, r, x, hw, hx⟩ := hI.waiter (hu n hn)
  rw [hx]
  exact List.mem_map_of_mem (List.mem_range.mpr ((hI.proper b x (waits_idx hw)).lt _ x.has0))

lemma Inv.bound (hI : Inv s) {l : List ℕ} (hl : l.Nodup) (hu : ∀ n ∈ l, Unseen s n) :
    l.length ≤ NUM := by
  have h := (hI.heads_nodup hl hu).length_le_of_subset (hI.heads_lt hu)
  simpa using h

lemma Inv.room (hI : Inv s) (hb : (s.pc b).idx = some x) (hno : (s.pc b).waits = none) {l : List ℕ}
    (hl : l.Nodup) (hu : ∀ n ∈ l, Unseen s n) : l.length < NUM := by
  have hnew : some x.i0 ∉ l.map s.head := by
    intro hm
    obtain ⟨n, hn, he⟩ := List.mem_map.mp hm
    obtain ⟨c, r, y, hw, hy⟩ := hI.waiter (hu n hn)
    rw [hy] at he
    have hbc : b = c := hI.disjoint b c x y x.i0 hb (waits_idx hw) x.has0
      (Or.inl (Option.some.inj he).symm)
    rw [← hbc, hno] at hw
    cases hw
  have hlt : ∀ h ∈ some x.i0 :: l.map s.head, h ∈ (List.range NUM).map some := by
    intro h hh
    rcases List.mem_cons.mp hh with rfl | hh
    · exact List.mem_map_of_mem (List.mem_range.mpr ((hI.proper b x hb).lt _ x.has0))
    · exact hI.heads_lt hu h hh
  have h := (List.nodup_cons.mpr ⟨hnew, hI.heads_nodup hl hu⟩).length_le_of_subset hlt
  simp only [List.length_cons, List.length_map, List.length_range] at h
  omega

lemma Inv.forget (hI : Inv s) {desc : ℕ → Desc β}
    (hd : ∀ b x i, (s.pc b).idx = some x → x.Has i → desc i = s.desc i) :
    Inv { s with desc := desc } := by
  refine { hI with formatted := fun b r x hb => ?_ }
  have hf := hI.formatted b r x hb
  have hx := Pc.idx_of_ready hb
  refine ⟨hf.op, ?_, ?_, ?_, hf.info⟩
  · exact (hd b x _ hx x.has0).trans hf.d0
  · exact (hd b x _ hx x.has1).trans hf.d1
  · exact (hd b x _ hx x.has2).trans hf.d2

lemma Inv.held (hI : Inv s) (hb : (s.pc b).idx = some x) {i : ℕ} (hi : x.Has i) :
    s.free i = false := by
  by_contra hf
  exact (hI.free i ((hI.proper b x hb).lt i hi)).mp (by simpa using hf) b x hb hi

/-! ### The device -/

lemma index_succ (k : ℕ) : BitVec.ofNat 16 k + 1 = BitVec.ofNat 16 (k + 1) := by
  exact (BitVec.ofNat_add k 1).symm

lemma Inv.take (hI : Inv s) : Inv (take s) := by
  unfold Virtio.take
  split_ifs with h
  · exact hI
  have hlt : s.taken < s.published.length := by
    refine Nat.lt_of_le_of_ne hI.taken_le fun he => h ?_
    rw [hI.last, hI.avail_idx, he]
  refine { hI with
    last := ?_, taken_le := hlt, positions := ?_, avail_ring := ?_, heads := ?_ }
  · dsimp only
    rw [hI.last, index_succ]
  · change ((s.pending ++ [_]).map Item.n ++ s.served.map Item.n ++ s.filled).Perm
      (List.range (s.taken + 1))
    rw [List.map_append, List.range_succ, List.append_assoc, List.append_assoc]
    refine List.Perm.trans ?_ (hI.positions.append_right [s.taken])
    rw [State.positions, List.append_assoc, List.append_assoc]
    refine List.Perm.append_left _ ?_
    rw [← List.append_assoc (s.served.map Item.n)]
    exact List.perm_append_comm
  · intro n hn hlen
    exact hI.avail_ring n (Nat.le_of_succ_le hn) hlen
  · rintro it (hit | hit)
    · rcases List.mem_append.mp hit with hit | hit
      · exact hI.heads it (Or.inl hit)
      · obtain rfl := List.mem_singleton.mp hit
        dsimp only
        rw [hI.last, slot]
        exact hI.avail_ring s.taken (Nat.le_refl _) hlt
    · exact hI.heads it (Or.inr hit)

lemma Inv.unseen_of_taken (hI : Inv s) (h : n ∈ s.pending.map Item.n ++ s.served.map Item.n) :
    Unseen s n := by
  have hn : n < s.taken := hI.mem_positions.mp (List.mem_append_left _ h)
  refine ⟨Nat.lt_of_lt_of_le hn hI.taken_le, fun hs => ?_⟩
  exact (List.nodup_append.mp hI.nodup).2.2 n h n (seen_subset hs) rfl

lemma Inv.serve (hI : Inv s) (it : Item) : Inv (serve it s) := by
  unfold Virtio.serve
  split_ifs with hit
  swap
  · exact hI
  have hmem : it.n ∈ s.pending.map Item.n ++ s.served.map Item.n :=
    List.mem_append_left _ (List.mem_map_of_mem hit)
  obtain ⟨b, r, x, hw, hh⟩ := hI.waiter (hI.unseen_of_taken hmem)
  have hhead : it.head = x.i0 := by
    rw [hI.heads it (Or.inl hit)] at hh
    exact Option.some.inj hh
  have hf := hI.formatted b r x (Pc.ready_of_waits hw)
  rw [hhead, hf.d0]
  dsimp only
  rw [hf.d1]
  dsimp only
  rw [hf.d2]
  dsimp only
  rw [hf.op]
  -- the status and the command are those of the caller that waits for the request
  refine { hI with formatted := ?_, positions := ?_, heads := ?_, done := ?_ }
  · intro c r' y hy
    have hc := hI.formatted c r' y hy
    refine ⟨hc.op, hc.d0, hc.d1, hc.d2, ?_⟩
    dsimp only
    by_cases he : y.i0 = x.i0
    · rw [he, Function.update_self, ← he]
      exact hc.info
    · rw [Function.update_of_ne he]
      exact hc.info
  · refine List.Perm.trans ?_ hI.positions
    change ((s.pending.erase it).map Item.n ++ (it.n :: s.served.map Item.n) ++ s.filled).Perm _
    refine List.Perm.append_right _ ?_
    refine List.perm_middle.trans ?_
    exact ((List.perm_cons_erase hit).map Item.n).symm.append_right _
  · rintro it' (hit' | hit')
    · exact hI.heads it' (Or.inl (List.mem_of_mem_erase hit'))
    · rcases List.mem_cons.mp hit' with rfl | hit'
      · exact hI.heads it' (Or.inl hit)
      · exact hI.heads it' (Or.inr hit')
  · intro c r' y n hwc hn
    dsimp only
    by_cases hc : c = b
    · subst hc
      rw [hw] at hwc
      obtain ⟨rfl, rfl, rfl⟩ : r = r' ∧ x = y ∧ it.n = n := by simpa using hwc
      rw [Function.update_self]
      exact ⟨rfl, List.mem_append_right _ (List.mem_singleton.mpr rfl)⟩
    · have hne : y.i0 ≠ x.i0 := fun he => hc
        (hI.disjoint c b y x y.i0 (waits_idx hwc) (waits_idx hw) y.has0 (Or.inl he))
      have hnn : n ≠ it.n := by
        rintro rfl
        have h1 := (hI.waits b r x _ hw).1
        rw [(hI.waits c r' y _ hwc).1] at h1
        exact hc (congrArg Prod.fst (Option.some.inj h1))
      have hold : n ∈ s.served.map Item.n ∨ n ∈ s.filled := by
        refine hn.imp_left fun h => ?_
        rcases List.mem_cons.mp h with h | h
        · exact absurd h hnn
        · exact h
      obtain ⟨h1, h2⟩ := hI.done c r' y n hwc hold
      rw [Function.update_of_ne hne]
      exact ⟨h1, List.mem_append_left _ h2⟩

lemma Inv.unseen_of_entered (hI : Inv s) (h : n ∈ s.filled.drop s.handled) : Unseen s n := by
  have hfilled : n ∈ s.filled := List.mem_of_mem_drop h
  have hn : n < s.taken := hI.mem_positions.mp (List.mem_append_right _ hfilled)
  refine ⟨Nat.lt_of_lt_of_le hn hI.taken_le, fun hs => ?_⟩
  have hnd := hI.filled_nodup
  rw [← List.take_append_drop s.handled s.filled] at hnd
  exact (List.nodup_append.mp hnd).2.2 n hs n h rfl

lemma Inv.fill (hI : Inv s) (it : Item) : Inv (fill it s) := by
  unfold Virtio.fill
  split_ifs with hit
  swap
  · exact hI
  have hmap : it.n ∈ s.served.map Item.n := List.mem_map_of_mem hit
  have hmem : it.n ∈ s.pending.map Item.n ++ s.served.map Item.n := List.mem_append_right _ hmap
  have hnew : it.n ∉ s.filled := fun h => (List.nodup_append.mp hI.nodup).2.2 it.n hmem it.n h rfl
  have hle : s.handled ≤ s.filled.length := Nat.le_trans hI.handled_le hI.flushed_le
  -- with this one, the entries that are not read are at most as many as descriptors
  have hroom : s.filled.length < s.handled + NUM := by
    have hnd : (it.n :: s.filled.drop s.handled).Nodup :=
      List.nodup_cons.mpr ⟨fun h => hnew (List.mem_of_mem_drop h),
        hI.filled_nodup.sublist (List.drop_sublist _ _)⟩
    have h := hI.bound hnd (by
      intro n hn
      rcases List.mem_cons.mp hn with rfl | hn
      · exact hI.unseen_of_taken hmem
      · exact hI.unseen_of_entered hn)
    rw [List.length_cons, List.length_drop] at h
    omega
  have hseen : (s.filled ++ [it.n]).take s.handled = s.seen := by
    rw [List.take_append_of_le_length hle]
    rfl
  refine { hI with
    next := ?_, flushed_le := ?_, positions := ?_, waits := ?_, unseen := ?_, used_ring := ?_
    heads := ?_, done := ?_ }
  · dsimp only
    rw [hI.next, index_succ, List.length_append]
    rfl
  · dsimp only
    rw [List.length_append]
    exact Nat.le_add_right_of_le hI.flushed_le
  · refine List.Perm.trans ?_ hI.positions
    change (s.pending.map Item.n ++ (s.served.erase it).map Item.n ++ (s.filled ++ [it.n])).Perm
      (s.pending.map Item.n ++ s.served.map Item.n ++ s.filled)
    rw [List.append_assoc, List.append_assoc]
    refine List.Perm.append_left _ ?_
    refine List.Perm.trans ?_ (((List.perm_cons_erase hit).map Item.n).symm.append_right s.filled)
    rw [← List.append_assoc]
    exact List.perm_append_comm
  · intro b r x n hw
    have h := hI.waits b r x n hw
    refine ⟨h.1, ?_⟩
    rw [State.seen]
    dsimp only
    rw [hseen]
    exact h.2
  · intro n hn hs
    refine hI.unseen n hn ?_
    rw [State.seen] at hs
    dsimp only at hs
    rwa [hseen] at hs
  · intro k n hk hn
    dsimp only at hk hn ⊢
    rw [hI.next, slot]
    rcases Nat.lt_trichotomy k s.filled.length with hlt | rfl | hgt
    · rw [List.getElem?_append_left hlt] at hn
      have hne : k % NUM ≠ s.filled.length % NUM := by
        unfold NUM at hroom ⊢
        omega
      rw [Function.update_of_ne hne]
      exact hI.used_ring k n hk hn
    · rw [List.getElem?_concat_length] at hn
      obtain rfl := Option.some.inj hn
      rw [Function.update_self]
      exact hI.heads it (Or.inr hit)
    · rw [List.getElem?_eq_none (by rw [List.length_append]; exact hgt)] at hn
      cases hn
  · rintro it' (hit' | hit')
    · exact hI.heads it' (Or.inl hit')
    · exact hI.heads it' (Or.inr (List.mem_of_mem_erase hit'))
  · intro b r x n hw hn
    refine hI.done b r x n hw ?_
    rcases hn with hn | hn
    · obtain ⟨it', hit', he⟩ := List.mem_map.mp hn
      exact Or.inl (he ▸ List.mem_map_of_mem (List.mem_of_mem_erase hit'))
    · rcases List.mem_append.mp hn with hn | hn
      · exact Or.inr hn
      · exact Or.inl (List.mem_singleton.mp hn ▸ hmap)

lemma Inv.flush (hI : Inv s) : Inv (flush s) := by
  unfold Virtio.flush
  split_ifs with h
  · exact hI
  have hlt : s.flushed < s.filled.length := by
    refine Nat.lt_of_le_of_ne hI.flushed_le fun he => h ?_
    rw [hI.flush_idx, hI.next, he]
  refine { hI with
    flush_idx := ?_, flushed_le := hlt, handled_le := Nat.le_succ_of_le hI.handled_le }
  dsimp only
  rw [hI.flush_idx, index_succ]

/-! ### The handler -/

lemma Inv.lock (hI : Inv s) {l : Option (Holder β)} (h0 : ∀ b, s.vdisk_lock ≠ some (.rw b))
    (h1 : ∀ b, l ≠ some (.rw b)) : Inv { s with vdisk_lock := l } := by
  refine { hI with inside := fun b => ?_ }
  exact iff_of_false (fun h => h0 b ((hI.inside b).mp h)) (h1 b)

/-- **The next completion** is that of a caller that waits for it. -/
lemma Inv.completion (hI : Inv s) (h : s.used_idx ≠ s.used.idx) :
    ∃ n b r x, s.filled[s.handled]? = some n ∧ n ∉ s.seen ∧ (s.pc b).waits = some (r, x, n) ∧
      s.used.ring (s.used_idx.toNat % NUM) = x.i0 ∧ s.info x.i0 = ⟨some b, 0⟩ := by
  have hlt : s.handled < s.filled.length := by
    refine Nat.lt_of_lt_of_le (Nat.lt_of_le_of_ne hI.handled_le fun he => h ?_) hI.flushed_le
    rw [hI.used_idx, hI.flush_idx, he]
  have hn : s.filled[s.handled]? = some s.filled[s.handled] := List.getElem?_eq_getElem hlt
  generalize s.filled[s.handled] = n at hn
  have hmem : n ∈ s.filled := List.mem_of_getElem? hn
  have hdrop : n ∈ s.filled.drop s.handled :=
    List.mem_of_getElem? (by rw [List.getElem?_drop, Nat.add_zero]; exact hn)
  have hun := hI.unseen_of_entered hdrop
  obtain ⟨b, r, x, hw, hh⟩ := hI.waiter hun
  have hring := hI.used_ring s.handled n (Nat.le_refl _) hn
  rw [hh] at hring
  refine ⟨n, b, r, x, hn, hun.2, hw, ?_, ?_⟩
  · rw [hI.used_idx, slot]
    exact (Option.some.inj hring).symm
  · have hb := (hI.formatted b r x (Pc.ready_of_waits hw)).info
    have hst := (hI.done b r x n hw (Or.inr hmem)).1
    cases hi : s.info x.i0
    rw [hi] at hb hst
    rw [← hb, ← hst]

lemma seen_succ (h : s.filled[s.handled]? = some n) :
    s.filled.take (s.handled + 1) = s.seen ++ [n] := by
  rw [List.take_add_one, h]
  rfl

section

variable [DecidableEq β]

/-- **A pass of the handler** does not panic. -/
lemma Inv.handle (hI : Inv s) : ∃ t, handle s = .ok t ∧ Inv t := by
  unfold Virtio.handle
  by_cases hl : s.vdisk_lock = some .intr
  swap
  · rw [if_neg hl]
    exact ⟨s, rfl, hI⟩
  rw [if_pos hl]
  by_cases h0 : s.used_idx = s.used.idx
  · rw [if_pos h0]
    exact ⟨_, rfl, hI.lock (fun b => by rw [hl]; nofun) nofun⟩
  rw [if_neg h0]
  obtain ⟨n, b, r, x, hn, hun, hw, hid, hinfo⟩ := hI.completion h0
  dsimp only
  rw [hid, hinfo]
  refine ⟨_, rfl, ?_⟩
  have hout : ∀ c, ¬ (s.pc c).Inside := fun c hc => by
    have := (hI.inside c).mp hc
    rw [hl] at this
    cases this
  refine { hI with
    armed := ?_, used_idx := ?_, handled_le := ?_, waits := ?_, unseen := ?_, used_ring := ?_ }
  · rintro c r' y (hc | hc)
    · exact absurd (by rw [hc]; trivial) (hout c)
    · exact absurd (by rw [hc]; trivial) (hout c)
  · dsimp only
    rw [hI.used_idx, index_succ]
  · refine Nat.lt_of_le_of_ne hI.handled_le fun he => h0 ?_
    rw [hI.used_idx, hI.flush_idx, he]
  · intro c r' y k hc
    obtain ⟨hpub, hdisk⟩ := hI.waits c r' y k hc
    refine ⟨hpub, ?_⟩
    rw [State.seen]
    dsimp only
    rw [seen_succ hn, List.mem_append, List.mem_singleton]
    by_cases hcb : c = b
    · subst hcb
      dsimp only at hc
      rw [hw] at hc
      obtain rfl : n = k := congrArg (fun q => q.2.2) (Option.some.inj hc)
      rw [Function.update_self]
      simp
    · have hkn : k ≠ n := by
        rintro rfl
        rw [(hI.waits b r x k hw).1] at hpub
        exact hcb (congrArg Prod.fst (Option.some.inj hpub)).symm
      rw [Function.update_of_ne hcb, hdisk]
      simp [hkn]
  · intro k hk hs
    refine hI.unseen k hk fun h => hs ?_
    rw [State.seen]
    dsimp only
    rw [seen_succ hn]
    exact List.mem_append_left _ h
  · intro k m hk hm
    exact hI.used_ring k m (Nat.le_of_succ_le hk) hm

/-! ### The callers -/

@[simp] lemma goto_pc (s : State β) (b : β) (k : Pc) : (s.goto b k).pc b = k := by
  change Function.update s.pc b k b = k
  rw [Function.update_self]

lemma goto_pc_ne (s : State β) (k : Pc) (h : c ≠ b) : (s.goto b k).pc c = s.pc c := by
  change Function.update s.pc b k c = s.pc c
  rw [Function.update_of_ne h]

lemma goto_all {P : β → Pc → Prop} {k : Pc} (hb : P b k) (hs : ∀ c, c ≠ b → P c (s.pc c)) (c : β) :
    P c ((s.goto b k).pc c) := by
  by_cases hc : c = b
  · subst hc
    rw [goto_pc]
    exact hb
  · rw [goto_pc_ne s k hc]
    exact hs c hc

lemma goto_same {α : Type} (f : Pc → α) {k : Pc} (h : f k = f (s.pc b)) (c : β) :
    f ((s.goto b k).pc c) = f (s.pc c) :=
  goto_all (P := fun c k => f k = f (s.pc c)) h (fun _ _ => rfl) c

/-- The caller goes on with the descriptors and the request it has, and takes or leaves the lock. -/
lemma Inv.goto (hI : Inv s) {l : Option (Holder β)} {k : Pc} (hidx : k.idx = (s.pc b).idx)
    (hwaits : k.waits = (s.pc b).waits)
    (hready : ∀ r x, k.ready = some (r, x) → Formatted s.desc s.ops s.info b r x)
    (hinside : ∀ c, ((s.goto b k).pc c).Inside ↔ l = some (.rw c))
    (harmed : ∀ r x, k = .offer r x ∨ k = .publish r x → s.disk b = true)
    (hoffered : ∀ r x, k = .publish r x → s.avail.ring (s.published.length % NUM) = x.i0) :
    Inv ({ s with vdisk_lock := l }.goto b k) := by
  have hown := hI.owned.congr (goto_same Pc.idx hidx)
  have hwaits' : ∀ c, ((s.goto b k).pc c).waits = (s.pc c).waits := goto_same Pc.waits hwaits
  refine { hI with
    proper := hown.proper, disjoint := hown.disjoint, free := hown.free
    formatted := ?_, inside := hinside, armed := ?_
    offered := ?_, waits := ?_, unseen := ?_, done := ?_ }
  · exact goto_all (P := fun c k => ∀ r x, k.ready = some (r, x) →
      Formatted s.desc s.ops s.info c r x) hready fun c _ => hI.formatted c
  · exact goto_all (P := fun c k => ∀ r x, k = .offer r x ∨ k = .publish r x → s.disk c = true)
      harmed fun c _ => hI.armed c
  · exact goto_all (P := fun _ k => ∀ r x, k = .publish r x →
      s.avail.ring (s.published.length % NUM) = x.i0) hoffered fun c _ => hI.offered c
  · intro c r x n hc
    exact hI.waits c r x n ((hwaits' c).symm.trans hc)
  · intro n hn hs
    obtain ⟨c, r, x, hc⟩ := hI.unseen n hn hs
    exact ⟨c, r, x, (hwaits' c).trans hc⟩
  · intro c r x n hc
    exact hI.done c r x n ((hwaits' c).symm.trans hc)

lemma Inv.stays (hI : Inv s) {k : Pc} (hb : (s.pc b).Inside ↔ k.Inside) (c : β) :
    ((s.goto b k).pc c).Inside ↔ s.vdisk_lock = some (.rw c) := by
  rw [← hI.inside c]
  exact goto_all (P := fun c k => k.Inside ↔ (s.pc c).Inside) hb.symm (fun _ _ => Iff.rfl) c

lemma Inv.gets (hI : Inv s) {k : Pc} (hl : s.vdisk_lock = none) (hk : k.Inside) (c : β) :
    ((s.goto b k).pc c).Inside ↔ some (Holder.rw b) = some (.rw c) := by
  by_cases hc : c = b
  · subst hc
    rw [goto_pc]
    exact iff_of_true hk rfl
  · rw [goto_pc_ne s k hc, hI.inside c, hl]
    refine iff_of_false nofun fun h => hc ?_
    exact (Holder.rw.inj (Option.some.inj h)).symm

lemma Inv.gives (hI : Inv s) {k : Pc} (hb : (s.pc b).Inside) (hk : ¬ k.Inside) (c : β) :
    ((s.goto b k).pc c).Inside ↔ none = some (Holder.rw c) := by
  refine iff_of_false ?_ nofun
  by_cases hc : c = b
  · subst hc
    rwa [goto_pc]
  · rw [goto_pc_ne s k hc, hI.inside c, (hI.inside b).mp hb]
    exact fun h => hc (Holder.rw.inj (Option.some.inj h)).symm

lemma Inv.call (hI : Inv s) (hb : s.pc b = .outside) (r : Request) : Inv (s.goto b (.alloc r)) := by
  refine hI.goto (by rw [hb]; rfl) (by rw [hb]; rfl) nofun (hI.stays ?_) ?_ nofun
  · rw [hb]
    exact iff_of_false id id
  · rintro r x (h | h) <;> cases h

/-- Three more descriptors have an owner. -/
lemma Inv.alloc (hI : Inv s) (hb : s.pc b = .alloc r) (hl : s.vdisk_lock = none) (hx : x.Proper)
    (hf : ∀ i, x.Has i → s.free i = true) :
    Inv ({ s with
      free := Function.update (Function.update (Function.update s.free
        x.i0 false) x.i1 false) x.i2 false
      vdisk_lock := some (.rw b) }.goto b (.format r x)) := by
  have hown : Owned (fun c => ((s.goto b (.format r x)).pc c).idx) _ :=
    hI.owned.allocate (b := b) hx hf (by rw [hb]; rfl) (by rw [goto_pc]; rfl)
      fun c hc => by rw [goto_pc_ne s _ hc]
  have hready : ∀ c, ((s.goto b (.format r x)).pc c).ready = (s.pc c).ready :=
    goto_same Pc.ready (by rw [hb]; rfl)
  have hwaits : ∀ c, ((s.goto b (.format r x)).pc c).waits = (s.pc c).waits :=
    goto_same Pc.waits (by rw [hb]; rfl)
  refine { hI with
    proper := hown.proper, disjoint := hown.disjoint, free := hown.free
    formatted := ?_, inside := hI.gets hl trivial
    armed := ?_, offered := ?_, waits := ?_, unseen := ?_, done := ?_ }
  · intro c r' y hc
    exact hI.formatted c r' y ((hready c).symm.trans hc)
  · refine goto_all (P := fun c k => ∀ r x, k = .offer r x ∨ k = .publish r x → s.disk c = true)
      ?_ fun c _ => hI.armed c
    rintro r x (h | h) <;> cases h
  · exact goto_all (P := fun _ k => ∀ r x, k = .publish r x →
      s.avail.ring (s.published.length % NUM) = x.i0) nofun fun c _ => hI.offered c
  · intro c r' y n hc
    exact hI.waits c r' y n ((hwaits c).symm.trans hc)
  · intro n hn hs
    obtain ⟨c, r', y, hc⟩ := hI.unseen n hn hs
    exact ⟨c, r', y, (hwaits c).trans hc⟩
  · intro c r' y n hc
    exact hI.done c r' y n ((hwaits c).symm.trans hc)

/-- The descriptors of a caller are formatted, and no other caller has one of them. -/
lemma Inv.format (hI : Inv s) (hb : s.pc b = .format r x) :
    Inv ((format b r x s).goto b (.offer r x)) := by
  have hx : (s.pc b).idx = some x := by rw [hb]; rfl
  have hp := hI.proper b x hx
  have hwaits : ∀ c, ((s.goto b (.offer r x)).pc c).waits = (s.pc c).waits :=
    goto_same Pc.waits (by rw [hb]; rfl)
  have hown := hI.owned.congr (goto_same Pc.idx (by rw [hb]; rfl) (k := .offer r x))
  have hother : ∀ c y i, c ≠ b → (s.pc c).idx = some y → y.Has i →
      i ≠ x.i0 ∧ i ≠ x.i1 ∧ i ≠ x.i2 := by
    intro c y i hc hy hi
    have h := fun hxi => hc (hI.disjoint c b y x i hy hx hi hxi)
    exact ⟨fun he => h (Or.inl he), fun he => h (Or.inr (Or.inl he)),
      fun he => h (Or.inr (Or.inr he))⟩
  refine { hI with
    proper := hown.proper, disjoint := hown.disjoint, free := hown.free
    formatted := ?_, inside := hI.stays ?_, armed := ?_
    offered := ?_, waits := ?_, unseen := ?_, done := ?_ }
  · refine goto_all (P := fun c k => ∀ r' y, k.ready = some (r', y) →
      Formatted (Virtio.format b r x s).desc (Virtio.format b r x s).ops
        (Virtio.format b r x s).info c r' y) ?_ fun c hc => ?_
    · intro r' y hy
      obtain ⟨rfl, rfl⟩ : r = r' ∧ x = y := by simpa [Pc.ready] using hy
      unfold Virtio.format
      refine ⟨?_, ?_, ?_, ?_, ?_⟩
      · exact Function.update_self _ _ _
      · dsimp only
        rw [Function.update_of_ne hp.ne02, Function.update_of_ne hp.ne01, Function.update_self]
      · dsimp only
        rw [Function.update_of_ne hp.ne12, Function.update_self]
      · exact Function.update_self _ _ _
      · dsimp only
        rw [Function.update_self]
    · intro r' y hy
      have hf := hI.formatted c r' y hy
      have hyi := Pc.idx_of_ready hy
      obtain ⟨a0, a1, a2⟩ := hother c y _ hc hyi y.has0
      obtain ⟨b0, b1, b2⟩ := hother c y _ hc hyi y.has1
      obtain ⟨c0, c1, c2⟩ := hother c y _ hc hyi y.has2
      unfold Virtio.format
      refine ⟨?_, ?_, ?_, ?_, ?_⟩
      · exact (Function.update_of_ne a0 _ _).trans hf.op
      · dsimp only
        rw [Function.update_of_ne a2, Function.update_of_ne a1, Function.update_of_ne a0, hf.d0]
      · dsimp only
        rw [Function.update_of_ne b2, Function.update_of_ne b1, Function.update_of_ne b0, hf.d1]
      · dsimp only
        rw [Function.update_of_ne c2, Function.update_of_ne c1, Function.update_of_ne c0, hf.d2]
      · dsimp only
        rw [Function.update_of_ne a0, hf.info]
  · rw [hb]
    exact iff_of_true trivial trivial
  · refine goto_all (P := fun c k => ∀ r' y, k = .offer r' y ∨ k = .publish r' y →
      Function.update s.disk b true c = true) (fun _ _ _ => Function.update_self _ _ _)
        fun c hc r' y hy => ?_
    rw [Function.update_of_ne hc]
    exact hI.armed c r' y hy
  · exact goto_all (P := fun _ k => ∀ r x, k = .publish r x →
      s.avail.ring (s.published.length % NUM) = x.i0) nofun fun c _ => hI.offered c
  · intro c r' y n hc
    have hc' := (hwaits c).symm.trans hc
    have hcb : c ≠ b := by
      rintro rfl
      rw [hb] at hc'
      cases hc'
    refine ⟨(hI.waits c r' y n hc').1, ?_⟩
    change Function.update s.disk b true c = true ↔ _
    rw [Function.update_of_ne hcb]
    exact (hI.waits c r' y n hc').2
  · intro n hn hs
    obtain ⟨c, r', y, hc⟩ := hI.unseen n hn hs
    exact ⟨c, r', y, (hwaits c).trans hc⟩
  · intro c r' y n hc hn
    have hc' := (hwaits c).symm.trans hc
    have hcb : c ≠ b := by
      rintro rfl
      rw [hb] at hc'
      cases hc'
    have h := hI.done c r' y n hc' hn
    refine ⟨?_, h.2⟩
    change (Function.update s.info x.i0 _ y.i0).status = 0
    rw [Function.update_of_ne (hother c y _ hcb (waits_idx hc') y.has0).1]
    exact h.1

/-- The entry of the avail ring that is written is not one that the device has yet to take. -/
lemma Inv.offer (hI : Inv s) (hb : s.pc b = .offer r x) :
    Inv ({ s with
      avail.ring := Function.update s.avail.ring (s.avail.idx.toNat % NUM) x.i0 }.goto b
        (.publish r x)) := by
  have hroom : s.published.length < s.taken + NUM := by
    have h := hI.room (l := List.range' s.taken (s.published.length - s.taken))
      (b := b) (x := x) (by rw [hb]; rfl) (by rw [hb]; rfl) List.nodup_range' (by
        intro n hn
        obtain ⟨h1, h2⟩ := List.mem_range'_1.mp hn
        have hle := hI.taken_le
        refine ⟨by omega, fun hs => ?_⟩
        have := hI.mem_positions.mp (List.mem_append_right _ (seen_subset hs))
        omega)
    rw [List.length_range'] at h
    omega
  have hring : ∀ n, s.taken ≤ n → n < s.published.length →
      n % NUM ≠ s.published.length % NUM := by
    intro n h1 h2
    unfold NUM at hroom ⊢
    omega
  have hslot : s.avail.idx.toNat % NUM = s.published.length % NUM := by
    rw [hI.avail_idx, slot]
  have hI' : Inv { s with
      avail.ring := Function.update s.avail.ring (s.avail.idx.toNat % NUM) x.i0 } := by
    refine { hI with offered := ?_, avail_ring := ?_ }
    · intro c r' y hc
      change s.pc c = .publish r' y at hc
      obtain rfl : c = b := hI.only (by rw [hb]; trivial) (by rw [hc]; trivial)
      rw [hc] at hb
      cases hb
    · intro n h1 h2
      dsimp only
      rw [hslot, Function.update_of_ne (hring n h1 h2)]
      exact hI.avail_ring n h1 h2
  refine hI'.goto (by change _ = (s.pc b).idx; rw [hb]; rfl)
    (by change _ = (s.pc b).waits; rw [hb]; rfl) ?_ (hI'.stays ?_) ?_ ?_
  · intro r' y hy
    exact hI.formatted b r' y (by rw [hb]; exact hy)
  · change (s.pc b).Inside ↔ _
    rw [hb]
    exact iff_of_true trivial trivial
  · exact fun _ _ _ => hI.armed b r x (Or.inl hb)
  · intro r' y hy
    obtain ⟨rfl, rfl⟩ := Pc.publish.inj hy
    dsimp only
    rw [hslot, Function.update_self]

/-- The request gets its place. -/
lemma Inv.publish (hI : Inv s) (hb : s.pc b = .publish r x) :
    Inv ({ s with
      avail.idx := s.avail.idx + 1
      published := s.published ++ [(b, x.i0)] }.goto b (.check r x s.published.length)) := by
  have hown := hI.owned.congr
    (goto_same Pc.idx (by rw [hb]; rfl) (k := .check r x s.published.length))
  have hready : ∀ c, ((s.goto b (.check r x s.published.length)).pc c).ready = (s.pc c).ready :=
    goto_same Pc.ready (by rw [hb]; rfl)
  have hold : ∀ n, n < s.published.length →
      (s.published ++ [(b, x.i0)])[n]? = s.published[n]? := fun n hn =>
    List.getElem?_append_left hn
  have hnew : (s.published ++ [(b, x.i0)])[s.published.length]? = some (b, x.i0) :=
    List.getElem?_concat_length
  have hseen : ∀ n, n ∈ s.filled → n < s.published.length := fun n hn =>
    Nat.lt_of_lt_of_le (hI.mem_positions.mp (List.mem_append_right _ hn)) hI.taken_le
  have hhead : ∀ n h, s.head n = some h →
      ((s.published ++ [(b, x.i0)])[n]?.map Prod.snd) = some h := by
    intro n h hn
    have hlt : n < s.published.length := by
      by_contra hge
      rw [State.head, List.getElem?_eq_none (Nat.not_lt.mp hge)] at hn
      cases hn
    rw [hold n hlt]
    exact hn
  refine { hI with
    proper := hown.proper, disjoint := hown.disjoint, free := hown.free
    formatted := ?_, inside := hI.stays ?_, armed := ?_
    offered := ?_, avail_idx := ?_, taken_le := ?_, waits := ?_, unseen := ?_, avail_ring := ?_
    used_ring := ?_, heads := ?_, done := ?_ }
  · intro c r' y hc
    exact hI.formatted c r' y ((hready c).symm.trans hc)
  · rw [hb]
    exact iff_of_true trivial trivial
  · refine goto_all (P := fun c k => ∀ r' y, k = .offer r' y ∨ k = .publish r' y →
      s.disk c = true) ?_ fun c _ => hI.armed c
    rintro r' y (h | h) <;> cases h
  · refine goto_all (P := fun _ k => ∀ r' y, k = .publish r' y →
      s.avail.ring ((s.published ++ [(b, x.i0)]).length % NUM) = y.i0) nofun fun c hc r' y hy => ?_
    exact absurd (hI.only (by rw [hb]; trivial) (by rw [hy]; trivial)) hc
  · change s.avail.idx + 1 = _
    rw [hI.avail_idx, index_succ]
    change _ = BitVec.ofNat 16 (s.published ++ [(b, x.i0)]).length
    rw [List.length_append]
    rfl
  · change s.taken ≤ (s.published ++ [(b, x.i0)]).length
    rw [List.length_append]
    exact Nat.le_add_right_of_le hI.taken_le
  · refine goto_all (P := fun c k => ∀ r' y n, k.waits = some (r', y, n) →
      (s.published ++ [(b, x.i0)])[n]? = some (c, y.i0) ∧ (s.disk c = true ↔ n ∉ s.seen))
        ?_ fun c _ r' y n hc => ?_
    · intro r' y n hy
      obtain ⟨rfl, rfl, rfl⟩ : r = r' ∧ x = y ∧ s.published.length = n := by
        simpa [Pc.waits] using hy
      refine ⟨hnew, iff_of_true (hI.armed b r x (Or.inr hb)) fun hs => ?_⟩
      exact Nat.lt_irrefl _ (hseen _ (seen_subset hs))
    · obtain ⟨h1, h2⟩ := hI.waits c r' y n hc
      have hlt : n < s.published.length := (List.getElem?_eq_some_iff.mp h1).1
      exact ⟨(hold n hlt).trans h1, h2⟩
  · intro n hn hs
    change n < (s.published ++ [(b, x.i0)]).length at hn
    rw [List.length_append, List.length_singleton] at hn
    rcases Nat.lt_succ_iff_lt_or_eq.mp hn with hlt | rfl
    · obtain ⟨c, r', y, hc⟩ := hI.unseen n hlt hs
      refine ⟨c, r', y, ?_⟩
      have hcb : c ≠ b := by
        rintro rfl
        rw [hb] at hc
        cases hc
      rw [← hc]
      exact congrArg Pc.waits (goto_pc_ne s _ hcb)
    · exact ⟨b, r, x, congrArg Pc.waits (goto_pc s b _)⟩
  · intro n h1 h2
    change n < (s.published ++ [(b, x.i0)]).length at h2
    change ((s.published ++ [(b, x.i0)])[n]?.map Prod.snd) = some (s.avail.ring (n % NUM))
    rw [List.length_append, List.length_singleton] at h2
    rcases Nat.lt_succ_iff_lt_or_eq.mp h2 with hlt | rfl
    · exact hhead n _ (hI.avail_ring n h1 hlt)
    · rw [hnew, hI.offered b r x hb]
      rfl
  · intro k n hk hn
    exact hhead n _ (hI.used_ring k n hk hn)
  · intro it hit
    exact hhead it.n _ (hI.heads it hit)
  · refine goto_all (P := fun c k => ∀ r' y n, k.waits = some (r', y, n) →
      n ∈ s.served.map Item.n ∨ n ∈ s.filled →
        (s.info y.i0).status = 0 ∧ (n, r'.command c) ∈ s.done) ?_ fun c _ => hI.done c
    intro r' y n hy hn
    obtain ⟨rfl, rfl, rfl⟩ : r = r' ∧ x = y ∧ s.published.length = n := by
      simpa [Pc.waits] using hy
    have hmem : s.published.length ∈ s.positions := by
      rcases hn with h | h
      · exact List.mem_append_left _ (List.mem_append_right _ h)
      · exact List.mem_append_right _ h
    have := hI.mem_positions.mp hmem
    have := hI.taken_le
    omega

/-- A request that is completed: its caller gives the descriptors back and leaves. -/
lemma Inv.finish (hI : Inv s) {n : ℕ} (hb : s.pc b = .check r x n) (hd : s.disk b = false) :
    ∃ t, free_chain (NUM + 1) x.i0
        { s with info := Function.update s.info x.i0 { s.info x.i0 with b := none } } = .ok t ∧
      Inv ({ t with vdisk_lock := none }.goto b .outside) := by
  have hx : (s.pc b).idx = some x := by rw [hb]; rfl
  have hwb : (s.pc b).waits = some (r, x, n) := by rw [hb]; rfl
  have hp := hI.proper b x hx
  have hf := hI.formatted b r x (Pc.ready_of_waits hwb)
  obtain ⟨h0, h1, h2⟩ := hf.chain
  obtain ⟨desc, hdesc, hfree⟩ := free_chain_eq (s := { s with
    info := Function.update s.info x.i0 { s.info x.i0 with b := none } }) hp
      (fun i hi => hI.held hx hi) h0 h1 h2
  refine ⟨_, hfree, ?_⟩
  have hout : ∀ {α : Type} (f : Pc → Option α) (c : β) (a : α), f .outside = none →
      (f ((s.goto b .outside).pc c) = some a ↔ c ≠ b ∧ f (s.pc c) = some a) := by
    intro α f c a hno
    by_cases hc : c = b
    · subst hc
      rw [goto_pc, hno]
      simp
    · rw [goto_pc_ne s _ hc]
      simp [hc]
  have hown : Owned (fun c => ((s.goto b .outside).pc c).idx) _ :=
    hI.owned.release hx (by rw [goto_pc]; rfl) fun c hc => by rw [goto_pc_ne s _ hc]
  have hother : ∀ c y i, c ≠ b → (s.pc c).idx = some y → y.Has i → ¬ x.Has i :=
    fun c y i hc hy hi hxi => hc (hI.disjoint c b y x i hy hx hi hxi)
  refine { hI with
    proper := hown.proper, disjoint := hown.disjoint, free := hown.free
    formatted := ?_, inside := hI.gives ?_ id, armed := ?_
    offered := ?_, waits := ?_, unseen := ?_, done := ?_ }
  · intro c r' y hc
    obtain ⟨hcb, hy⟩ := (hout Pc.ready c (r', y) rfl).mp hc
    have hfc := hI.formatted c r' y hy
    have hne := fun i => hother c y i hcb (Pc.idx_of_ready hy)
    refine ⟨hfc.op, ?_, ?_, ?_, ?_⟩
    · exact (hdesc _ (hne _ y.has0)).trans hfc.d0
    · exact (hdesc _ (hne _ y.has1)).trans hfc.d1
    · exact (hdesc _ (hne _ y.has2)).trans hfc.d2
    · change (Function.update s.info x.i0 _ y.i0).b = some c
      rw [Function.update_of_ne fun he => hne _ y.has0 (Or.inl he)]
      exact hfc.info
  · rw [hb]
    trivial
  · refine goto_all (P := fun c k => ∀ r x, k = .offer r x ∨ k = .publish r x → s.disk c = true)
      ?_ fun c _ => hI.armed c
    rintro r x (h | h) <;> cases h
  · exact goto_all (P := fun _ k => ∀ r x, k = .publish r x →
      s.avail.ring (s.published.length % NUM) = x.i0) nofun fun c _ => hI.offered c
  · intro c r' y k hc
    exact hI.waits c r' y k ((hout Pc.waits c (r', y, k) rfl).mp hc).2
  · intro k hk hs
    obtain ⟨c, r', y, hc⟩ := hI.unseen k hk hs
    refine ⟨c, r', y, (hout Pc.waits c (r', y, k) rfl).mpr ⟨?_, hc⟩⟩
    -- the caller that leaves has seen its completion
    rintro rfl
    rw [hwb] at hc
    obtain rfl : n = k := congrArg (fun q => q.2.2) (Option.some.inj hc)
    have := (hI.waits c r x n hwb).2.mpr hs
    rw [hd] at this
    cases this
  · intro c r' y k hc hk
    obtain ⟨hcb, hy⟩ := (hout Pc.waits c (r', y, k) rfl).mp hc
    have h := hI.done c r' y k hy hk
    refine ⟨?_, h.2⟩
    change (Function.update s.info x.i0 _ y.i0).status = 0
    rw [Function.update_of_ne fun he => hother c y _ hcb (waits_idx hy) y.has0 (Or.inl he)]
    exact h.1

/-- **A caller goes on** without a panic. -/
lemma Inv.go (hI : Inv s) (b : β) : ∃ t, go b s = .ok t ∧ Inv t := by
  unfold Virtio.go
  cases hb : s.pc b with
  | outside => exact ⟨s, rfl, hI⟩
  | alloc r =>
    dsimp only
    by_cases hl : s.vdisk_lock = none
    · rw [if_pos hl]
      rcases alloc3_desc_cases s with ⟨x, hx, hf, he⟩ | ⟨desc, hd, he⟩
      · rw [he]
        exact ⟨_, rfl, hI.alloc hb hl hx hf⟩
      · rw [he]
        exact ⟨_, rfl, hI.forget fun c x i hc hi => hd i (hI.held hc hi)⟩
    · rw [if_neg hl]
      exact ⟨s, rfl, hI⟩
  | format r x => exact ⟨_, rfl, hI.format hb⟩
  | offer r x => exact ⟨_, rfl, hI.offer hb⟩
  | publish r x => exact ⟨_, rfl, hI.publish hb⟩
  | check r x n =>
    dsimp only
    cases hd : s.disk b with
    | true =>
      refine ⟨_, rfl, hI.goto (by rw [hb]; rfl) (by rw [hb]; rfl) ?_ (hI.gives ?_ id) ?_ nofun⟩
      · exact fun r' y hy => hI.formatted b r' y (by rw [hb]; exact hy)
      · rw [hb]
        trivial
      · rintro r x (h | h) <;> cases h
    | false =>
      obtain ⟨t, ht, hIt⟩ := hI.finish hb hd
      refine ⟨_, ?_, hIt⟩
      change free_chain _ _ _ >>= _ = _
      rw [ht]
      rfl
  | sleep r x n =>
    dsimp only
    by_cases hl : s.vdisk_lock = none
    · rw [if_pos hl]
      refine ⟨_, rfl, hI.goto (by rw [hb]; rfl) (by rw [hb]; rfl) ?_ (hI.gets hl trivial) ?_ nofun⟩
      · exact fun r' y hy => hI.formatted b r' y (by rw [hb]; exact hy)
      · rintro r x (h | h) <;> cases h
    · rw [if_neg hl]
      exact ⟨s, rfl, hI⟩

/-- **A step** does not panic. -/
lemma Inv.step (hI : Inv s) (a : Act β) : ∃ t, step s a = .ok t ∧ Inv t := by
  cases a with
  | call b r =>
    refine ⟨_, rfl, ?_⟩
    cases hb : s.pc b with
    | outside => exact hI.call hb r
    | _ => exact hI
  | go b => exact hI.go b
  | intr =>
    refine ⟨_, rfl, ?_⟩
    split_ifs with hl
    · exact hI.lock (fun b => by rw [hl]; nofun) nofun
    · exact hI
  | handle => exact hI.handle
  | take => exact ⟨_, rfl, hI.take⟩
  | serve it => exact ⟨_, rfl, hI.serve it⟩
  | fill it => exact ⟨_, rfl, hI.fill it⟩
  | flush => exact ⟨_, rfl, hI.flush⟩

lemma Inv.run (hI : Inv s) (as : List (Act β)) : ∃ t, run s as = .ok t ∧ Inv t := by
  induction as generalizing s with
  | nil => exact ⟨s, rfl, hI⟩
  | cons a as ih =>
    obtain ⟨t, ht, hIt⟩ := hI.step a
    obtain ⟨u, hu, hIu⟩ := ih hIt
    refine ⟨u, ?_, hIu⟩
    unfold Virtio.run
    rw [List.foldlM_cons, ht]
    exact hu

/-- What the driver and the device agree on: every caller has three descriptors of its own, and the
others are free; who finds its buffer done has had its own request, which is number `n`, carried
out; and what has not been read is still in its ring. -/
structure Agreed (s : State β) : Prop where
  proper : ∀ b x, (s.pc b).idx = some x → x.Proper
  disjoint : ∀ b c x y i, (s.pc b).idx = some x → (s.pc c).idx = some y → x.Has i → y.Has i → b = c
  free : ∀ i, i < NUM → (s.free i = true ↔ ∀ b x, (s.pc b).idx = some x → ¬ x.Has i)
  own : ∀ b r x n, (s.pc b).waits = some (r, x, n) → s.published[n]? = some (b, x.i0) ∧
    (s.disk b = false → (n, r.command b) ∈ s.done ∧ n ∈ s.filled)
  once : s.filled.Nodup
  avail : s.avail.idx = BitVec.ofNat 16 s.published.length ∧ s.last = BitVec.ofNat 16 s.taken ∧
    ∀ n, s.taken ≤ n → n < s.published.length → s.head n = some (s.avail.ring (n % NUM))
  used : s.next = BitVec.ofNat 16 s.filled.length ∧ s.used_idx = BitVec.ofNat 16 s.handled ∧
    ∀ k n, s.handled ≤ k → s.filled[k]? = some n → s.head n = some (s.used.ring (k % NUM))

omit [DecidableEq β] in
lemma Inv.agreed (hI : Inv s) : Agreed s := by
  refine ⟨hI.proper, hI.disjoint, hI.free, fun b r x n hw => ?_, hI.filled_nodup,
    ⟨hI.avail_idx, hI.last, hI.avail_ring⟩, hI.next, hI.used_idx, hI.used_ring⟩
  obtain ⟨hpub, hdisk⟩ := hI.waits b r x n hw
  refine ⟨hpub, fun hd => ?_⟩
  have hseen : n ∈ s.seen := by
    by_contra hs
    rw [hdisk.mpr hs] at hd
    cases hd
  exact ⟨(hI.done b r x n hw (Or.inr (seen_subset hseen))).2, seen_subset hseen⟩

/-- **Disk completions reach the request that issued them**, for any callers and in any order of
steps of the callers, the interrupt handler and the device; nothing panics. -/
theorem completions_reach_requests (as : List (Act β)) :
    ∃ s, run boot as = .ok s ∧ Agreed s := by
  obtain ⟨s, hrun, hI⟩ := boot_inv.run as
  exact ⟨s, hrun, hI.agreed⟩

end

end Xv6.Virtio
