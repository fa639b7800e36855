import Xv6.Exec
import Xv6.Create
import Xv6.Copyout

/-!
The page table `exec` builds is an address space of its own all along: no page that was
referenced before the call gets mapped or written, and on every path to `bad` all pages taken
are given back.
-/

namespace Xv6.Image

open Xv6.ByteMem Xv6.Riscv Xv6.Kalloc Xv6.Vm Xv6.Wp Xv6.PageTable Xv6.Walk Xv6.Unmap
open Xv6.AddrSpace Xv6.Grow Xv6.Cow Xv6.Copyout Xv6.Create Xv6.Process Xv6.Exec

variable {L : Layout} {root : ℕ} {A : PTab} {s s' s0 : KState} {U : ℕ → ℕ} {E : Panic → Prop}
  {tf sz : ℕ} {e : Word} {v : ℕ}

/-- The image under construction, with `sz` bytes; `U` counts what was referenced before. -/
structure Building (L : Layout) (root tf : ℕ) (U : ℕ → ℕ) (s0 : KState) (A : PTab) (sz : ℕ)
    (s : KState) : Prop where
  as : AS L s root A U (pgs sz) tf
  own : ∀ p, U p ≠ 0 → leaves A.leaf p = 0
  keeps : Keeps U s0 s
  le : sz ≤ 2 ^ 27

/-- Every page so far is open to the user. -/
def Open (A : PTab) (sz : ℕ) : Prop := ∀ v < pgs sz, UserOk (A.leaf v)

lemma Building.unshared (h : Building L root tf U s0 A sz s) (hv : v < pgs sz) :
    U (PTE2PA (A.leaf v)) = 0 := by
  by_contra hc
  have h1 := h.own _ hc
  have h2 := Space.leaves_user h.as.space hv
  omega

lemma Building.priv (h : Building L root tf U s0 A sz s) : Priv U A.leaf (pgs sz) :=
  fun _ hv _ => h.unshared hv

lemma Building.put (h : Building L root tf U s0 A sz s) (hv : v < pgs sz) {off : ℕ}
    {bs : List Byte} (hoff : off + bs.length ≤ PGSIZE) :
    Building L root tf U s0 A sz
      { s with mem := put s.mem (PTE2PA (A.leaf v) + off) bs } := by
  refine ⟨AS.put h.as hv hoff, h.own, fun x hx => ?_, h.le⟩
  have hne : PGROUNDDOWN x ≠ PTE2PA (A.leaf v) := fun hc => hx (by rw [hc]; exact h.unshared hv)
  simp only
  rw [put_other (h.as.space.user v hv).range.1 hoff hne]
  exact h.keeps x hx

lemma newEntry_userOk {p : ℕ} {xperm : Word} (hp : InRange L p) (hx : Perm xperm) :
    UserOk (newEntry p xperm) := by
  refine ⟨(newEntry_user hp hx).valid, ?_⟩
  rw [has_U, newEntry_bit hp (by omega), BitVec.getLsbD_or, BitVec.getLsbD_or,
    BitVec.getLsbD_or]
  simp [PTE_U]

/-- `uvmalloc` on the image: no change of size when it returns `0`. -/
lemma Building.alloc {xperm : Word} {newsz : ℕ} (h : Building L root tf U s0 A sz s)
    (hx : Perm xperm) :
    wp (uvmalloc root sz newsz xperm) (fun r s' => ∃ A',
      (r = 0 ∧ Building L root tf U s0 A' sz s') ∨
      (r ≠ 0 ∧ newsz ≤ r ∧ (r = newsz ∨ newsz < sz) ∧ Building L root tf U s0 A' r s' ∧
        (Open A sz → Open A' r))) E s := by
  have hle := h.le
  refine wp_post (uvmalloc_spec hx h.as (by omega)) ?_
  rintro r s' (⟨hlt, rfl, rfl⟩ | ⟨hle', rfl, ⟨A', h1, hleaf⟩, hk⟩ | ⟨hle', rfl, hb, A', hg⟩)
  · exact ⟨A, Or.inr ⟨by omega, hlt.le, Or.inr hlt, h, id⟩⟩
  · refine ⟨A', Or.inl ⟨rfl, h1, fun p hp => ?_, h.keeps.trans hk fun p hp => ?_, hle⟩⟩
    · rw [hleaf]; exact h.own p hp
    · rw [Pi.add_apply]; omega
  · have hbuild : Building L root tf U s0 A' r s' := by
      refine ⟨hg.as, fun p hp => ?_, h.keeps.trans hg.keeps fun p hp => ?_, hb⟩
      · have h1 := hg.noNew p hp
        have h2 := h.own p hp
        omega
      · rw [Pi.add_apply]; omega
    by_cases hr : r = 0
    · have hz : sz = r := by omega
      rw [← hz] at hbuild hr
      exact ⟨A', Or.inl ⟨by omega, hbuild⟩⟩
    · refine ⟨A', Or.inr ⟨hr, le_rfl, Or.inl rfl, hbuild, fun ho v hv => ?_⟩⟩
      by_cases hvs : v < pgs sz
      · rw [hg.old hvs]; exact ho v hvs
      · rw [hg.entry v (by omega) hv]
        exact newEntry_userOk (hg.as.space.user v hv).range hx

/-! ### Loading a segment -/

lemma loadsegLoop_spec {ip : Inode} {va offset fsz : ℕ} (k : ℕ) :
    ∀ {i : ℕ} {s : KState}, Building L root tf U s0 A sz s → Open A sz → va + fsz ≤ sz →
    i % PGSIZE = 0 → fsz + PGSIZE ≤ i + k * PGSIZE → i < fsz + PGSIZE →
    wp (loadsegLoop ip root va offset fsz k i)
      (fun _ s' => Building L root tf U s0 A sz s') E s := by
  induction k with
  | zero => intro i s _ _ _ _ h1 h2; omega
  | succ k ih =>
      intro i s h ho hsz hi hk hik
      have hle := h.le
      unfold loadsegLoop
      by_cases hlt : i < fsz
      · have hu : u64 (va + i) = va + i := by unfold u64; omega
        have hva : va + i < MAXVA := by unfold MAXVA; omega
        have hpg : (va + i) / PGSIZE < pgs sz := by
          rw [pgs_eq (by unfold PGSIZE; omega)]; unfold PGSIZE; omega
        have hpa : userPa A.leaf (va + i) = PTE2PA (A.leaf ((va + i) / PGSIZE)) :=
          if_pos ⟨hva, ho _ hpg⟩
        have hnext : u32 (i + PGSIZE) = i + PGSIZE := by unfold u32 PGSIZE; omega
        rw [if_pos hlt, hu, wp_bind, wp_of_run (walkaddr_read h.as.owns.wf h.as.owns.rep _), hpa,
          if_neg (h.as.space.user _ hpg).range.pos.ne', hnext]
        dsimp only
        set n := if fsz - i < PGSIZE then fsz - i else PGSIZE with hn
        have hlen := ip.length_le (u32 (offset + i)) n
        have hnle : n ≤ PGSIZE := by rw [hn]; split_ifs <;> omega
        rw [wp_bind, wp_modify]
        have hput := h.put hpg (show 0 + (ip.readi (u32 (offset + i)) n).length ≤ PGSIZE by omega)
        rw [Nat.add_zero] at hput
        by_cases hshort : (ip.readi (u32 (offset + i)) n).length ≠ n
        · rw [if_pos hshort, wp_pure]
          exact hput
        · rw [if_neg hshort]
          refine ih hput ho hsz ?_ ?_ ?_
          · unfold PGSIZE at *; omega
          · rw [Nat.add_mul, Nat.one_mul] at hk; omega
          · omega
      · rw [if_neg hlt, wp_pure]
        exact h

lemma perm_flags2perm (flags : ℕ) : Perm (flags2perm flags) := by
  unfold flags2perm
  have h0 : IsFlags 0 := fun k _ => by simp
  refine ⟨isFlags_or ?_ ?_, ?_⟩
  · split_ifs
    · exact isFlags_X
    · exact h0
  · split_ifs
    · exact isFlags_W
    · exact h0
  · rw [BitVec.getLsbD_or]
    split_ifs <;> rfl

lemma perm_W : Perm PTE_W := ⟨isFlags_W, rfl⟩

/-- What a step of `exec` leaves: the image with the size it returns, open to the user as long
as no guard page is made. -/
def Step (L : Layout) (root tf : ℕ) (U : ℕ → ℕ) (s0 : KState) (sz : ℕ) (s : KState) : Prop :=
  ∃ A, Building L root tf U s0 A sz s ∧ Open A sz

lemma field_lt (bs : List Byte) (off n : ℕ) : field bs off n < 256 ^ n := by
  unfold field
  induction n with
  | zero => simp
  | succ n ih =>
      have hb := (bs.getD (off + n) 0).isLt
      rw [List.range_succ, List.map_append, List.sum_append, List.map_singleton,
        List.sum_singleton, pow_succ]
      have : (bs.getD (off + n) 0).toNat * 256 ^ n ≤ 255 * 256 ^ n :=
        Nat.mul_le_mul_right _ (by omega)
      omega

lemma execSegment_spec {ip : Inode} {ph : Proghdr} (hph : ph.memsz < 2 ^ 64)
    (h : Step L root tf U s0 sz s) :
    wp (execSegment ip root ph sz) (fun r s' =>
      (r.1 = true → Step L root tf U s0 r.2 s') ∧ ∃ A, Building L root tf U s0 A r.2 s') E s := by
  obtain ⟨A, hb, ho⟩ := h
  have hstay : ∀ b : Bool, wp (pure (b, sz) : K (Bool × ℕ)) (fun r s' =>
      (r.1 = true → Step L root tf U s0 r.2 s') ∧ ∃ A, Building L root tf U s0 A r.2 s') E s :=
    fun b => ⟨fun _ => ⟨A, hb, ho⟩, A, hb⟩
  unfold execSegment
  by_cases h1 : ph.type ≠ ELF_PROG_LOAD
  · rw [if_pos h1]; exact hstay true
  rw [if_neg h1]
  by_cases h2 : ph.memsz < ph.filesz
  · rw [if_pos h2]; exact hstay false
  rw [if_neg h2]
  by_cases h3 : u64 (ph.vaddr + ph.memsz) < ph.vaddr
  · rw [if_pos h3]; exact hstay false
  rw [if_neg h3]
  by_cases h4 : ph.vaddr % PGSIZE ≠ 0
  · rw [if_pos h4]; exact hstay false
  rw [if_neg h4, wp_bind]
  refine wp_post (hb.alloc (perm_flags2perm ph.flags)) ?_
  rintro r s1 ⟨A1, ⟨rfl, hb1⟩ | ⟨hr, hge, -, hb1, ho1⟩⟩
  · rw [if_pos rfl, wp_pure]
    exact ⟨fun hc => absurd hc (by simp), A1, hb1⟩
  · rw [if_neg hr, wp_bind]
    unfold loadseg
    have hfs : u32 ph.filesz ≤ ph.filesz := Nat.mod_le _ _
    refine wp_post (loadsegLoop_spec _ hb1 (ho1 ho) ?_ (Nat.zero_mod _) ?_ ?_) ?_
    · -- a segment that wraps around ends below its start, unless it is longer than memory
      have hle := hb1.le
      have : ph.vaddr + ph.memsz < 2 ^ 64 ∨ 2 ^ 64 ≤ ph.vaddr + ph.memsz := by omega
      rcases this with h5 | h5
      · have : u64 (ph.vaddr + ph.memsz) = ph.vaddr + ph.memsz := Nat.mod_eq_of_lt h5
        omega
      · unfold u64 at h3 hge
        unfold u32 at hfs ⊢
        omega
    · unfold PGSIZE; omega
    · unfold PGSIZE; omega
    · rintro q s2 hb2
      rw [wp_pure]
      exact ⟨fun _ => ⟨A1, hb2, ho1 ho⟩, A1, hb2⟩

lemma execLoad_spec {ip : Inode} (k : ℕ) : ∀ {off sz : ℕ} {s : KState},
    Step L root tf U s0 sz s →
    wp (execLoad ip root k off sz) (fun r s' =>
      (r.1 = true → Step L root tf U s0 r.2 s') ∧ ∃ A, Building L root tf U s0 A r.2 s') E s := by
  induction k with
  | zero =>
      intro off sz s h
      obtain ⟨A, hb, ho⟩ := h
      exact ⟨fun _ => ⟨A, hb, ho⟩, A, hb⟩
  | succ k ih =>
      intro off sz s h
      unfold execLoad
      dsimp only
      by_cases hlen : (ip.readi off sizeofProghdr).length ≠ sizeofProghdr
      · obtain ⟨A, hb, ho⟩ := h
        rw [if_pos hlen, wp_pure]
        exact ⟨fun _ => ⟨A, hb, ho⟩, A, hb⟩
      · rw [if_neg hlen, wp_bind]
        have hph : (proghdr (ip.readi off sizeofProghdr)).memsz < 2 ^ 64 := field_lt _ 40 8
        refine wp_post (execSegment_spec hph h) ?_
        rintro r s1 ⟨h1, A1, hb1⟩
        by_cases hr : r.1 = true
        · rw [if_pos hr]
          exact ih (h1 hr)
        · rw [if_neg hr, wp_pure]
          exact ⟨fun hc => absurd hc (by simp), A1, hb1⟩

/-! ### Stack and arguments -/

/-- The entry of the guard page: `PTE_U` is cleared. -/
def guardEntry (e : Word) : Word := e &&& ~~~PTE_U

lemma guardEntry_bit (e : Word) {k : ℕ} (hk : k < 64) :
    (guardEntry e).getLsbD k = (e.getLsbD k && decide (k ≠ 4)) := by
  unfold guardEntry
  rw [BitVec.getLsbD_and, BitVec.getLsbD_not, PTE_U, BitVec.getLsbD_shiftLeft,
    BitVec.getLsbD_one]
  simp only [hk]
  by_cases h4 : k = 4
  · subst h4; simp
  · have : ¬ (4 ≤ k ∧ k - 4 = 0) := by omega
    rcases Nat.lt_or_ge k 4 with h | h
    · simp [h, h4]
    · simp [h4, show k - 4 ≠ 0 by omega]

lemma guardEntry_pa (e : Word) : PTE2PA (guardEntry e) = PTE2PA e := by
  have : guardEntry e >>> 10 = e >>> 10 := by
    apply BitVec.eq_of_getLsbD_eq
    intro i hi
    rw [BitVec.getLsbD_ushiftRight, BitVec.getLsbD_ushiftRight]
    rcases Nat.lt_or_ge (10 + i) 64 with h | h
    · rw [guardEntry_bit e h, decide_eq_true (by omega), Bool.and_true]
    · rw [BitVec.getLsbD_of_ge _ _ h, BitVec.getLsbD_of_ge _ _ h]
  unfold PTE2PA
  rw [this]

lemma guardEntry_user (he : UserLeaf L e) : UserLeaf L (guardEntry e) := by
  have hbit : ∀ k, k < 64 → k ≠ 4 → (guardEntry e).getLsbD k = e.getLsbD k := fun k hk h4 => by
    rw [guardEntry_bit e hk, decide_eq_true h4, Bool.and_true]
  obtain ⟨h1, h2, h3, h4⟩ := he
  rw [has_V] at h2
  rw [has_R] at h3
  rw [has_W, has_COW] at h4
  refine ⟨by rw [guardEntry_pa]; exact h1, ?_, ?_, ?_⟩
  · rw [has_V, hbit 0 (by omega) (by omega)]; exact h2
  · rw [has_R, hbit 1 (by omega) (by omega)]; exact h3
  · rw [has_W, has_COW, hbit 2 (by omega) (by omega), hbit 5 (by omega) (by omega)]; exact h4

/-- **`uvmclear`** on a page of the image. -/
lemma Building.clear (h : Building L root tf U s0 A sz s) {va : ℕ} (hva : va < MAXVA)
    (hv : va / PGSIZE < pgs sz) :
    wp (uvmclear root va) (fun _ s' => ∃ A', Building L root tf U s0 A' sz s') E s := by
  have he := h.as.space.user _ hv
  have hne := pteAddr_ne_zero h.as.owns.wf (valid_ne_zero he.valid)
  unfold uvmclear
  rw [wp_bind, wp_of_run (walk_read h.as.owns.wf h.as.owns.rep hva), if_neg hne, wp_bind, wp_ld,
    ld_pteAddr h.as.owns.rep hne, wp_st]
  obtain ⟨h1, hk1⟩ := h.as.owns.st_leaf hne (guardEntry (A.leaf (va / PGSIZE)))
  have hl : leaves (setLeaf A (va / PGSIZE) (guardEntry (A.leaf (va / PGSIZE)))).leaf =
      leaves A.leaf := by
    funext p
    have := leaves_update (f := A.leaf) (h.as.space.lt_tfv hv.le)
      (guardEntry (A.leaf (va / PGSIZE))) p
    have hm : Maps (guardEntry (A.leaf (va / PGSIZE))) p ↔ Maps (A.leaf (va / PGSIZE)) p := by
      unfold Maps
      rw [(guardEntry_user he).valid, he.valid, guardEntry_pa]
    by_cases hmp : Maps (A.leaf (va / PGSIZE)) p
    · rw [if_pos hmp, if_pos (hm.mpr hmp)] at this
      simp only [setLeaf]; omega
    · rw [if_neg hmp, if_neg (mt hm.mp hmp)] at this
      simp only [setLeaf]; omega
  refine ⟨_, ⟨by rw [hl]; exact h1, ?_⟩, by rw [hl]; exact h.own,
    h.keeps.trans hk1 fun p hp => ?_, h.le⟩
  · refine Space.replace h.as.space hv (guardEntry_user he) fun w hw hwv hc => ?_
    rw [guardEntry_pa] at hc
    exact hwv (h.as.space.inj w hw _ hv hc)
  · rw [Pi.add_apply]; omega

lemma Building.copyout (h : Building L root tf U s0 A sz s) {dstva : ℕ} {src : List Byte} :
    wp (copyout root dstva src) (fun r s' => ∃ A', Building L root tf U s0 A' sz s' ∧
      (0 ≤ r → (∀ va, dstva ≤ va → va < dstva + src.length → va / PGSIZE < pgs sz) ∧
        ∀ va, va / PGSIZE < pgs sz → rd A'.leaf s'.mem va =
          if dstva ≤ va ∧ va < dstva + src.length then src.getD (va - dstva) 0
          else rd A.leaf s.mem va)) E s := by
  refine wp_post (copyout_spec h.as h.priv) ?_
  rintro r s1 ⟨A1, m, hc, hr, -⟩
  refine ⟨A1, ⟨hc.as, fun p hp => ?_, fun x hx => ?_, h.le⟩, fun h0 => ?_⟩
  · have h1 := hc.noNew p hp
    have h2 := h.own p hp
    omega
  · rw [hc.kept x (Or.inl hx) fun w hw _ hpg => ?_]
    · exact h.keeps x hx
    · obtain ⟨-, -, hok, -⟩ := visits_spec _ w hw
      have := h.unshared (Space.lt_np h.as.space hok.1 (Or.inl hok.2))
      rw [hpg] at hx
      exact absurd this hx
  · have hm : m = src.length := by omega
    rw [← hm]
    exact ⟨hc.within, hc.rd⟩

/-- The strings `argv` stand in the memory `f` at the addresses given, each with its terminator, one
below the other from `top` down to `sp`, at multiples of `16` as close to each other as these
allow. -/
def Placed (f : ℕ → Byte) : ℕ → List (List Byte) → List ℕ → ℕ → Prop
  | top, [], [], sp => sp = top
  | top, arg :: argv, p :: ps, sp =>
    p % 16 = 0 ∧ p + (arg.length + 1) ≤ top ∧ top < p + (arg.length + 1) + 16 ∧
      (∀ k < arg.length + 1, f (p + k) = (arg ++ [0]).getD k 0) ∧ Placed f p argv ps sp
  | _, _, _, _ => False

lemma Placed.le {f : ℕ → Byte} {argv : List (List Byte)} : ∀ {top : ℕ} {ps : List ℕ} {sp : ℕ},
    Placed f top argv ps sp → sp ≤ top := by
  induction argv with
  | nil =>
    intro top ps sp h
    cases ps with
    | nil => exact le_of_eq h
    | cons p ps => exact h.elim
  | cons arg argv ih =>
    intro top ps sp h
    cases ps with
    | nil => exact h.elim
    | cons p ps =>
      obtain ⟨-, h1, -, -, h2⟩ := h
      have := ih h2
      omega

lemma Placed.congr {f g : ℕ → Byte} {argv : List (List Byte)} : ∀ {top : ℕ} {ps : List ℕ} {sp : ℕ},
    Placed f top argv ps sp → (∀ va, sp ≤ va → va < top → g va = f va) →
    Placed g top argv ps sp := by
  induction argv with
  | nil =>
    intro top ps sp h _
    cases ps with
    | nil => exact h
    | cons p ps => exact h.elim
  | cons arg argv ih =>
    intro top ps sp h hg
    cases ps with
    | nil => exact h.elim
    | cons p ps =>
      obtain ⟨h1, h2, h3, h4, h5⟩ := h
      have hle := h5.le
      refine ⟨h1, h2, h3, fun k hk => ?_, ih h5 fun va hlo hhi => hg va hlo (by omega)⟩
      rw [hg _ (by omega) (by omega)]
      exact h4 k hk

/-- **Pushing the arguments**: a failure leaves an image, a success has the strings in place above
the new stack pointer and changes nothing above the old one. -/
lemma pushArgs_spec {stackbase : ℕ} (argv : List (List Byte)) : ∀ {A : PTab} {s : KState}
    {sp : ℕ} {ustack : List ℕ}, Building L root tf U s0 A sz s → sp ≤ sz →
    (argv ≠ [] ∨ sp % 16 = 0) → stackbase ≤ sp →
    wp (pushArgs root stackbase argv sp ustack) (fun r s' => ∃ A', Building L root tf U s0 A' sz s' ∧
      ∀ q us, r = some (q, us) → ∃ ps, us = ustack ++ ps ∧
        Placed (rd A'.leaf s'.mem) sp argv ps q ∧ stackbase ≤ q ∧ q % 16 = 0 ∧
        ∀ va, sp ≤ va → va / PGSIZE < pgs sz → rd A'.leaf s'.mem va = rd A.leaf s.mem va) E s := by
  induction argv with
  | nil =>
    intro A s sp ustack h hsp hal hbase
    refine ⟨A, h, fun q us hq => ?_⟩
    obtain ⟨rfl, rfl⟩ := Prod.mk.inj (Option.some.inj hq)
    exact ⟨[], by simp, rfl, hbase, hal.resolve_left (by simp), fun _ _ _ => rfl⟩
  | cons arg argv ih =>
    intro A s sp ustack h hsp _ _
    have hle := h.le
    unfold pushArgs
    dsimp only
    split_ifs with hmax hlow
    · exact ⟨A, h, fun q us hq => by cases hq⟩
    · exact ⟨A, h, fun q us hq => by cases hq⟩
    · rw [wp_bind]
      refine wp_post h.copyout ?_
      rintro r s1 ⟨A1, h1, hcopy⟩
      split_ifs with hr
      · exact ⟨A1, h1, fun q us hq => by cases hq⟩
      · obtain ⟨hin, hrd⟩ := hcopy (by omega)
        rw [List.length_append, List.length_singleton] at hin hrd
        set p := sub64 sp (arg.length + 1) - sub64 sp (arg.length + 1) % 16 with hp
        -- the pointer did not wrap, since the bytes are within the image
        have hnp : pgs sz ≤ 2 ^ 15 := by
          rw [pgs_eq (by unfold PGSIZE; omega)]
          omega
        have hlo := hin p le_rfl (by omega)
        have hhi := hin (p + arg.length) (by omega) (by omega)
        have hval : p = (sp - (arg.length + 1)) / 16 * 16 ∧ arg.length + 1 ≤ sp := by
          unfold sub64 u64 at hp
          unfold PGSIZE at hlo hhi
          omega
        refine wp_post (ih h1 (by omega) (Or.inr (by omega)) (by omega)) ?_
        rintro q s2 ⟨A2, h2, hq⟩
        refine ⟨A2, h2, fun sp' us hsp' => ?_⟩
        obtain ⟨ps, rfl, hpl, hb, ha, hrd2⟩ := hq sp' us hsp'
        refine ⟨p :: ps, by simp, ⟨by omega, by omega, by omega, fun k hk => ?_, hpl⟩, hb, ha,
          fun va hva hpg => ?_⟩
        · have hpg := hin (p + k) (by omega) (by omega)
          rw [hrd2 _ (by omega) hpg, hrd _ hpg, if_pos ⟨by omega, by omega⟩, Nat.add_sub_cancel_left]
        · rw [hrd2 va (by omega) hpg, hrd va hpg, if_neg (by omega)]

/-- Strings and pointers are in the stack page of an image of `sz` bytes. -/
structure Stacked (f : ℕ → Byte) (sz : ℕ) (argv : List (List Byte)) (ps : List ℕ) (q sp : ℕ) :
    Prop where
  page : sz % PGSIZE = 0
  two : 2 * PGSIZE ≤ sz
  strings : Placed f sz argv ps q
  base : sz - PGSIZE ≤ sp
  aligned : q % 16 = 0
  sp_eq : sp = (q - 8 * (ps.length + 1)) / 16 * 16
  fits : 8 * (ps.length + 1) ≤ q
  array : ∀ k < 8 * (ps.length + 1), f (sp + k) = ((ps ++ [0]).flatMap (leBytes 8)).getD k 0

lemma Stacked.above {f : ℕ → Byte} {argv : List (List Byte)} {ps : List ℕ} {q sp : ℕ}
    (h : Stacked f sz argv ps q sp) : sp + 8 * (ps.length + 1) ≤ q := by
  have h1 := h.sp_eq
  have h2 := h.fits
  omega

lemma Stacked.congr {f g : ℕ → Byte} {argv : List (List Byte)} {ps : List ℕ} {q sp : ℕ}
    (h : Stacked f sz argv ps q sp) (hg : ∀ va, sp ≤ va → va < sz → g va = f va) :
    Stacked g sz argv ps q sp := by
  have habove := h.above
  have hle := h.strings.le
  refine ⟨h.page, h.two, h.strings.congr fun va hlo hhi => hg va (by omega) hhi, h.base, h.aligned,
    h.sp_eq, h.fits, fun k hk => ?_⟩
  rw [hg _ (by omega) (by omega)]
  exact h.array k hk

lemma length_leBytes (n x : ℕ) : (leBytes n x).length = n := by simp [leBytes]

lemma length_words (ws : List ℕ) : (ws.flatMap (leBytes 8)).length = 8 * ws.length := by
  induction ws with
  | nil => rfl
  | cons w ws ih =>
    rw [List.flatMap_cons, List.length_append, ih, length_leBytes, List.length_cons]
    omega

lemma pushUstack_spec {stackbase q : ℕ} {ps : List ℕ} {argv : List (List Byte)}
    (h : Building L root tf U s0 A sz s) (hpage : sz % PGSIZE = 0) (htwo : 2 * PGSIZE ≤ sz)
    (hbase : stackbase = sz - PGSIZE) (hal : q % 16 = 0)
    (hpl : Placed (rd A.leaf s.mem) sz argv ps q) :
    wp (pushUstack root stackbase q ps) (fun r s' => ∃ A', Building L root tf U s0 A' sz s' ∧
      ∀ sp, r = some sp → Stacked (rd A'.leaf s'.mem) sz argv ps q sp) E s := by
  have hle := h.le
  have hqle := hpl.le
  unfold pushUstack
  dsimp only
  split_ifs with hlow
  · exact ⟨A, h, fun sp hsp => by cases hsp⟩
  · rw [wp_bind]
    refine wp_post h.copyout ?_
    rintro r s1 ⟨A1, h1, hcopy⟩
    split_ifs with hr
    · exact ⟨A1, h1, fun sp hsp => by cases hsp⟩
    · refine ⟨A1, h1, fun sp hsp => ?_⟩
      obtain ⟨hin, hrd⟩ := hcopy (by omega)
      rw [length_words, List.length_append, List.length_singleton] at hin hrd
      have hlen : (ps ++ [0]).length = ps.length + 1 := by simp
      rw [hlen] at hsp hlow
      have hspeq := Option.some.inj hsp
      rw [hspeq] at hin hrd hlow
      have hnp : pgs sz ≤ 2 ^ 15 := by
        rw [pgs_eq (by unfold PGSIZE; omega)]
        omega
      have hlo := hin sp le_rfl (by omega)
      have hhi := hin (sp + 8 * ps.length) (by omega) (by omega)
      have hval : sp = (q - 8 * (ps.length + 1)) / 16 * 16 ∧ 8 * (ps.length + 1) ≤ q := by
        unfold sub64 u64 at hspeq
        unfold PGSIZE at hlo hhi
        omega
      have hrdq : ∀ va, q ≤ va → va < sz → rd A1.leaf s1.mem va = rd A.leaf s.mem va := by
        intro va hva hvs
        have hpg : va / PGSIZE < pgs sz := by
          rw [pgs_eq (by unfold PGSIZE; omega)]
          unfold PGSIZE
          omega
        rw [hrd va hpg, if_neg (by omega)]
      refine ⟨hpage, htwo, hpl.congr hrdq, by omega, hal, hval.1, hval.2, fun k hk => ?_⟩
      rw [hrd _ (hin (sp + k) (by omega) (by omega)), if_pos ⟨by omega, by omega⟩,
        Nat.add_sub_cancel_left]

lemma pgs_roundup {sz : ℕ} (h : sz ≤ 2 ^ 27) : pgs (PGROUNDUP sz) = pgs sz := by
  unfold pgs PGROUNDUP u64 PGSIZE; omega

lemma execStack_spec {argv : List (List Byte)} (h : Building L root tf U s0 A sz s) :
    wp (execStack root sz argv) (fun r s' => ∃ A', Building L root tf U s0 A' r.2 s' ∧
      ∀ sp, r.1 = some sp → ∃ ps q, Stacked (rd A'.leaf s'.mem) r.2 argv ps q sp) E s := by
  have hle := h.le
  have h0 : Building L root tf U s0 A (PGROUNDUP sz) s := by
    refine ⟨by rw [pgs_roundup hle]; exact h.as, h.own, h.keeps, ?_⟩
    unfold PGROUNDUP u64 PGSIZE; omega
  have hle0 := h0.le
  have hal := roundup_aligned sz
  unfold execStack
  dsimp only
  rw [wp_bind]
  refine wp_post (h0.alloc perm_W) ?_
  rintro r s1 ⟨A1, ⟨rfl, hb1⟩ | ⟨hr, hge, hcase, hb1, -⟩⟩
  · rw [if_pos rfl, wp_pure]
    exact ⟨A1, hb1, fun sp hsp => by cases hsp⟩
  · have hu : u64 (PGROUNDUP sz + 2 * PGSIZE) = PGROUNDUP sz + 2 * PGSIZE := by
      unfold u64 PGSIZE; omega
    rw [hu] at hge hcase
    have hle1 := hb1.le
    have hsub : sub64 r (2 * PGSIZE) = r - 2 * PGSIZE := by
      unfold sub64 u64 PGSIZE at *; omega
    have hpg : (r - 2 * PGSIZE) / PGSIZE < pgs r := by
      rw [pgs_eq (by unfold PGSIZE; omega)]; unfold PGSIZE at *; omega
    have hbase : sub64 r PGSIZE = r - PGSIZE := by
      have hpos : PGSIZE ≤ r := by omega
      have hlt : r < 2 ^ 64 := by omega
      unfold sub64 u64
      omega
    have hpage : r % PGSIZE = 0 := by
      have hr2 : r = PGROUNDUP sz + 2 * PGSIZE := by
        rcases hcase with hcase | hcase
        · exact hcase
        · omega
      rw [hr2, Nat.add_mul_mod_self_right]
      exact hal
    rw [if_neg hr, wp_bind, hsub]
    refine wp_post (hb1.clear (by unfold MAXVA; omega) hpg) ?_
    rintro _ s2 ⟨A2, hb2⟩
    rw [wp_bind, hbase]
    refine wp_post (pushArgs_spec argv hb2 le_rfl (Or.inr (by unfold PGSIZE at hpage; omega))
      (Nat.sub_le _ _)) ?_
    rintro q s3 ⟨A3, hb3, hargs⟩
    rcases q with _ | ⟨sp, ustack⟩
    · exact ⟨A3, hb3, fun sp hsp => by cases hsp⟩
    · obtain ⟨ps, hps, hpl, -, hal3, -⟩ := hargs sp ustack rfl
      rw [List.nil_append] at hps
      subst hps
      dsimp only
      rw [wp_bind]
      refine wp_post (pushUstack_spec hb3 hpage (by unfold PGSIZE at *; omega) rfl hal3 hpl) ?_
      rintro q s4 ⟨A4, hb4, hst⟩
      exact ⟨A4, hb4, fun sp' hsp' => ⟨_, _, hst sp' hsp'⟩⟩

/-! ### The image -/

/-- **`exec` up to the commitment**: a new address space next to everything that was there, or
nothing at all. -/
lemma execImage_spec {ip : Inode} {argv : List (List Byte)} (h : Acct L s U)
    (htf : InRange L tf) :
    wp (execImage L ip tf argv) (fun r s' =>
      (r = none ∧ Acct L s' U ∧ Keeps U s s') ∨
      (∃ im A, r = some im ∧ Building L im.pagetable tf U s A im.sz s' ∧
        ∃ ps q, Stacked (rd A.leaf s'.mem) im.sz argv ps q im.sp)) E s := by
  unfold execImage
  dsimp only
  split_ifs
  · exact Or.inl ⟨rfl, h, Keeps.refl⟩
  rw [wp_bind]
  refine wp_post (proc_pagetable_spec h htf) ?_
  rintro root s1 (⟨rfl, h1, hk1, -⟩ | ⟨A, h1, hleaf, hk1, -⟩)
  · rw [if_pos rfl]
    exact Or.inl ⟨rfl, h1, hk1⟩
  · rw [if_neg h1.owns.root_ne, wp_bind]
    have hfree : ∀ {A' : PTab} {sz : ℕ} {s' : KState}, Building L root tf U s A' sz s' →
        wp (do proc_freepagetable root sz; pure none) (fun (r : Option Image) s' =>
          (r = none ∧ Acct L s' U ∧ Keeps U s s') ∨
          (∃ im A, r = some im ∧ Building L im.pagetable tf U s A im.sz s' ∧
            ∃ ps q, Stacked (rd A.leaf s'.mem) im.sz argv ps q im.sp)) E s' := by
      intro A' sz s' hb
      rw [wp_bind]
      refine wp_post (proc_freepagetable_spec hb.as) ?_
      rintro _ s2 ⟨h2, hk2⟩
      exact Or.inl ⟨rfl, h2, hb.keeps.trans hk2 fun _ => id⟩
    have hstart : Step L root tf U s 0 s1 := by
      refine ⟨A, ⟨by rw [pgs_zero]; exact h1, fun p _ => ?_, hk1, by norm_num⟩, fun v hv => ?_⟩
      · rw [hleaf, leaves_fixedLeaf]; rfl
      · rw [pgs_zero] at hv; omega
    refine wp_post (execLoad_spec _ hstart) ?_
    rintro r s2 ⟨-, A2, hb2⟩
    by_cases hr : (!r.1) = true
    · rw [if_pos hr]
      exact hfree hb2
    · rw [if_neg hr, wp_bind]
      refine wp_post (execStack_spec hb2) ?_
      rintro q s3 ⟨A3, hb3, hst⟩
      rcases hq : q.1 with _ | sp
      · exact hfree hb3
      · exact Or.inr ⟨_, A3, rfl, hb3, hst sp hq⟩

end Xv6.Image
