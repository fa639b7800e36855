import Xv6.ConsoleLine

/-!
The console is a terminal. `r`, `w` and `e` run free modulo `2 ^ 32`, and `INPUT_BUF_SIZE` divides
that, so a character keeps its slot when they wrap.
-/

namespace Xv6.Console

open Xv6.ByteMem

variable {P : Type} [DecidableEq P] {t t' : Tty P} {d : Cons} {p q : P} {s s' : St P}
  {log : List (Event P)} {ev : Event P} {c : Byte} {n target : BitVec 32}

/-! ### The ring -/

/-- The ring holds what the terminal holds: `[r, w)` is the committed input that is not taken,
`[w, e)` the line being edited. -/
structure Shows (d : Cons) (t : Tty P) : Prop where
  taken : t.taken ≤ t.committed.length
  unread : (d.w - d.r).toNat = t.committed.length - t.taken
  total : (d.e - d.r).toNat = t.held.length
  le : t.held.length ≤ INPUT_BUF_SIZE
  bytes : ∀ k (h : k < t.held.length), d.buf ((d.r.toNat + k) % INPUT_BUF_SIZE) = t.held[k]

omit [DecidableEq P] in
lemma held_length (t : Tty P) :
    t.held.length = t.committed.length - t.taken + t.line.length := by
  unfold Tty.held
  rw [List.length_append, List.length_drop]

lemma slot_eq (i r : BitVec 32) :
    i.toNat % INPUT_BUF_SIZE = (r.toNat + (i - r).toNat) % INPUT_BUF_SIZE := by
  have h1 := i.isLt
  have h2 := r.isLt
  rw [BitVec.toNat_sub, INPUT_BUF_SIZE]
  omega

section
omit [DecidableEq P]

lemma Shows.line_length (h : Shows d t) : (d.e - d.w).toNat = t.line.length := by
  have h1 := h.unread
  have h2 := h.total
  have h3 := h.le
  rw [held_length] at h2 h3
  rw [INPUT_BUF_SIZE] at h3
  bv_omega

lemma Shows.line_nil (h : Shows d t) : d.e = d.w ↔ t.line = [] := by
  rw [← List.length_eq_zero_iff, ← h.line_length]
  bv_omega

lemma Shows.last (h : Shows d t) (hne : t.line ≠ []) : d.at (d.e - 1) = t.line.getLast hne := by
  have hlen := held_length t
  have htot := h.total
  have hle := h.le
  have hpos := List.length_pos_iff.mpr hne
  have hlt : t.held.length - 1 < t.held.length := by omega
  have hslot : (d.e - 1 - d.r).toNat = t.held.length - 1 := by
    rw [INPUT_BUF_SIZE] at hle
    bv_omega
  have hheld : t.held ≠ [] := List.ne_nil_of_length_pos (by omega)
  unfold Cons.at
  rw [slot_eq _ d.r, hslot, h.bytes _ hlt, ← List.getLast_eq_getElem hheld]
  exact List.getLast_append_of_ne_nil _ hne

lemma Shows.erase (h : Shows d t) (hne : t.line ≠ []) :
    Shows { d with e := d.e - 1 } { t with line := t.line.dropLast } := by
  have hlen := held_length t
  have htot := h.total
  have hle := h.le
  have hpos := List.length_pos_iff.mpr hne
  have hheld : ({ t with line := t.line.dropLast } : Tty P).held = t.held.dropLast := by
    unfold Tty.held
    exact (List.dropLast_append_of_ne_nil hne).symm
  refine ⟨h.taken, h.unread, ?_, ?_, fun k hk => ?_⟩
  · rw [hheld, List.length_dropLast, ← htot]
    dsimp only
    rw [INPUT_BUF_SIZE] at hle
    bv_omega
  · rw [hheld, List.length_dropLast]
    omega
  · rw [hheld, List.length_dropLast] at hk
    dsimp only
    rw [h.bytes k (by omega)]
    simp only [hheld, List.getElem_dropLast]

lemma Shows.kill (k : ℕ) : ∀ {d : Cons} {t : Tty P}, Shows d t → NL ∉ t.line →
    t.line.length = k → Shows (killLine k d) { t with line := [] } := by
  induction k with
  | zero =>
    intro d t h _ hk
    rw [List.length_eq_zero_iff] at hk
    rw [← hk]
    exact h
  | succ k ih =>
    intro d t h hplain hk
    have hne : t.line ≠ [] := by
      rw [← List.length_pos_iff]
      omega
    have hew : d.e ≠ d.w := fun hc => hne (h.line_nil.mp hc)
    have hnl : d.at (d.e - 1) ≠ NL := by
      rw [h.last hne]
      exact fun hc => hplain (hc ▸ List.getLast_mem hne)
    rw [killLine, if_pos ⟨hew, hnl⟩]
    exact ih (t := { t with line := t.line.dropLast }) (h.erase hne)
      (fun hc => hplain (List.mem_of_mem_dropLast hc))
      (by rw [List.length_dropLast]; omega)

/-- A character is stored behind the line. -/
lemma Shows.store (h : Shows d t) (hlt : t.held.length < INPUT_BUF_SIZE) (c : Byte) :
    Shows (d.store c) { t with line := t.line ++ [c] } := by
  have htot := h.total
  have hheld : ({ t with line := t.line ++ [c] } : Tty P).held = t.held ++ [c] := by
    unfold Tty.held
    exact (List.append_assoc _ _ _).symm
  rw [INPUT_BUF_SIZE] at hlt
  refine ⟨h.taken, h.unread, ?_, ?_, fun k hk => ?_⟩
  · rw [hheld, List.length_append, List.length_singleton, ← htot]
    unfold Cons.store
    dsimp only
    bv_omega
  · rw [hheld, List.length_append, List.length_singleton, INPUT_BUF_SIZE]
    omega
  · rw [hheld, List.length_append, List.length_singleton] at hk
    unfold Cons.store
    simp only [hheld]
    have hslot := slot_eq d.e d.r
    rw [htot] at hslot
    by_cases hlast : k = t.held.length
    · subst hlast
      rw [← hslot, Function.update_self, List.getElem_append_right le_rfl]
      simp
    · rw [Function.update_of_ne, h.bytes k (by omega), List.getElem_append_left]
      rw [hslot, INPUT_BUF_SIZE]
      omega

lemma Shows.commit (h : Shows d t) :
    Shows { d with w := d.e } { t with committed := t.committed ++ t.line, line := [] } := by
  have hheld : ({ t with committed := t.committed ++ t.line, line := [] } : Tty P).held =
      t.held := by
    unfold Tty.held
    dsimp only
    rw [List.append_nil, List.drop_append_of_le_length h.taken]
  have hlen := held_length t
  have htaken := h.taken
  refine ⟨?_, ?_, ?_, ?_, fun k hk => ?_⟩
  · dsimp only
    rw [List.length_append]
    omega
  · dsimp only
    rw [h.total, hlen, List.length_append]
    omega
  · rw [hheld]
    exact h.total
  · rw [hheld]
    exact h.le
  · simp only [hheld]
    exact h.bytes k (by rwa [hheld] at hk)

lemma key_held (hP : c ≠ ctrlP) (hU : c ≠ ctrlU) (hE : ¬ (c = ctrlH ∨ c = DEL)) (h0 : c ≠ 0)
    (hlt : t.held.length ≠ INPUT_BUF_SIZE) : t.key c =
      if (if c = CR then NL else c) = NL ∨ (if c = CR then NL else c) = ctrlD ∨
          t.held.length + 1 = INPUT_BUF_SIZE then
        { t with committed := t.committed ++ (t.line ++ [if c = CR then NL else c]), line := [] }
      else { t with line := t.line ++ [if c = CR then NL else c] } := by
  unfold Tty.key
  rw [if_neg hP, if_neg hU, if_neg hE, if_neg (not_or.mpr ⟨h0, hlt⟩)]

/-- **The handler edits the line.** -/
lemma Shows.key (h : Shows d t) (hplain : NL ∉ t.line) (c : Byte) :
    Shows (consoleintr d c).1 (t.key c) ∧ NL ∉ (t.key c).line := by
  unfold consoleintr
  by_cases hP : c = ctrlP
  · rw [Tty.key, if_pos hP, if_pos hP]
    exact ⟨h, hplain⟩
  by_cases hU : c = ctrlU
  · rw [Tty.key, if_neg hP, if_neg hP, if_pos hU, if_pos hU, h.line_length]
    exact ⟨h.kill _ hplain rfl, by simp⟩
  by_cases hE : c = ctrlH ∨ c = DEL
  · rw [Tty.key, if_neg hP, if_neg hP, if_neg hU, if_neg hU, if_pos hE, if_pos hE]
    refine ⟨?_, fun hc => hplain (List.mem_of_mem_dropLast hc)⟩
    by_cases hew : d.e = d.w
    · have hnil := h.line_nil.mp hew
      rw [if_neg (not_not.mpr hew), hnil, List.dropLast_nil, ← hnil]
      exact h
    · rw [if_pos hew]
      exact h.erase fun hc => hew (h.line_nil.mpr hc)
  rw [if_neg hP, if_neg hU, if_neg hE]
  have htot := h.total
  have hle := h.le
  by_cases hroom : c ≠ 0 ∧ d.e - d.r < 128#32
  · have hlt : t.held.length < INPUT_BUF_SIZE := by
      have h2 := hroom.2
      rw [INPUT_BUF_SIZE]
      bv_omega
    rw [if_pos hroom, key_held hP hU hE hroom.1 hlt.ne]
    dsimp only
    set b := if c = CR then NL else c
    have hstore := h.store hlt b
    have hfull : (d.store b).e - (d.store b).r = 128#32 ↔ t.held.length + 1 = INPUT_BUF_SIZE := by
      unfold Cons.store
      dsimp only
      rw [INPUT_BUF_SIZE] at hlt ⊢
      constructor
      · intro he
        bv_omega
      · intro he
        bv_omega
    simp only [hfull]
    by_cases hcommit : b = NL ∨ b = ctrlD ∨ t.held.length + 1 = INPUT_BUF_SIZE
    · rw [if_pos hcommit, if_pos hcommit]
      exact ⟨hstore.commit, by simp⟩
    · rw [if_neg hcommit, if_neg hcommit]
      refine ⟨hstore, ?_⟩
      simp only [List.mem_append, List.mem_singleton, not_or]
      exact ⟨hplain, fun hc => hcommit (Or.inl hc.symm)⟩
  · rw [if_neg hroom, Tty.key, if_neg hP, if_neg hU, if_neg hE, if_pos]
    · exact ⟨h, hplain⟩
    · by_cases h0 : c = 0
      · exact Or.inl h0
      · right
        have h2 : ¬ d.e - d.r < 128#32 := fun hc => hroom ⟨h0, hc⟩
        rw [INPUT_BUF_SIZE] at hle ⊢
        bv_omega

/-! ### Taking a character -/

/-- There is a character to take exactly when `r` and `w` differ, and it is the one at `r`. -/
lemma Shows.next (h : Shows d t) (hne : d.r ≠ d.w) :
    t.committed[t.taken]? = some (d.at d.r) ∧
      Shows { d with r := d.r + 1 } { t with taken := t.taken + 1 } := by
  have hlen := held_length t
  have htaken := h.taken
  have hunread := h.unread
  have htot := h.total
  have hle := h.le
  have hlt : t.taken < t.committed.length := by bv_omega
  have hheld : t.held = t.committed[t.taken] ::
      ({ t with taken := t.taken + 1 } : Tty P).held := by
    unfold Tty.held
    dsimp only
    rw [List.drop_eq_getElem_cons hlt]
    rfl
  have hlen1 : t.held.length = ({ t with taken := t.taken + 1 } : Tty P).held.length + 1 := by
    rw [hheld]
    rfl
  rw [INPUT_BUF_SIZE] at hle
  refine ⟨?_, ?_, ?_, ?_, ?_, fun k hk => ?_⟩
  · have h0 := h.bytes 0 (by omega)
    simp only [hheld, List.getElem_cons_zero] at h0
    rw [List.getElem?_eq_getElem hlt]
    exact congrArg some h0.symm
  · dsimp only
    omega
  · dsimp only
    bv_omega
  · rw [← Nat.add_right_cancel_iff (n := 1), ← hlen1, ← htot]
    dsimp only
    bv_omega
  · rw [INPUT_BUF_SIZE]
    omega
  · have hk1 := h.bytes (k + 1) (by omega)
    simp only [hheld, List.getElem_cons_succ] at hk1
    rw [← hk1]
    dsimp only
    congr 1
    rw [BitVec.toNat_add, INPUT_BUF_SIZE]
    have hone : (1 : BitVec 32).toNat = 1 := rfl
    omega

lemma Shows.empty (h : Shows d t) (heq : d.r = d.w) : t.taken = t.committed.length := by
  have h1 := h.unread
  have h2 := h.taken
  bv_omega

end

/-! ### The readers -/

/-- A call for `target` bytes has `n` to go. -/
def Left (n target : BitVec 32) : Prop :=
  target.toInt ≤ 0 ∧ n = target ∨ 0 < target.toInt ∧ n.toNat ≤ target.toNat

/-- What is known of a reader at a program counter. -/
def PcOk (r : Option Reading) : Pc → Prop
  | .user => r = none
  | .acquire n target | .loop n target | .asleep n target =>
    r = some ⟨target.toInt.toNat, (target - n).toNat, false⟩ ∧ Left n target
  | .done n target => ∃ ended, r = some ⟨target.toInt.toNat, (target - n).toNat, ended⟩ ∧
      Left n target ∧ (ended = true ∨ (target - n).toNat = target.toInt.toNat)

/-- The terminal that accepts the history so far, and that the console shows. -/
structure Rel (s : St P) (t : Tty P) : Prop where
  after : Tty.after s.log = some t
  shows : Shows s.cons t
  plain : NL ∉ t.line
  pc : ∀ p, PcOk (t.reading p) (s.pc p)

lemma toInt_pos (h : 0 < n.toInt) : n.toInt = n.toNat := by
  have hlt := n.isLt
  rw [BitVec.toInt_eq_toNat_cond] at h ⊢
  split_ifs at h ⊢
  · rfl
  · omega

lemma Left.pos (h : Left n target) (hn : 0 < n.toInt) :
    0 < target.toInt ∧ n.toNat ≤ target.toNat ∧ (target - n).toNat < target.toInt.toNat ∧
      (n < target ↔ (target - n).toNat ≠ 0) := by
  have h1 := toInt_pos hn
  rcases h with ⟨h2, rfl⟩ | ⟨h2, h3⟩
  · omega
  · have h4 := toInt_pos h2
    refine ⟨h2, h3, ?_, ?_⟩
    · rw [h4]
      bv_omega
    · bv_omega

lemma Left.next (h : Left n target) (hn : 0 < n.toInt) :
    Left (n - 1) target ∧ (target - (n - 1)).toNat = (target - n).toNat + 1 := by
  have h1 := toInt_pos hn
  obtain ⟨h2, h3, -, -⟩ := h.pos hn
  refine ⟨Or.inr ⟨h2, ?_⟩, ?_⟩
  · bv_omega
  · bv_omega

lemma Left.none (h : Left n target) (hn : ¬ 0 < n.toInt) :
    (target - n).toNat = target.toInt.toNat := by
  rcases h with ⟨h1, rfl⟩ | ⟨h1, h2⟩
  · rw [BitVec.sub_self]
    have := Int.toNat_of_nonpos h1
    rw [this]
    rfl
  · have h3 := toInt_pos h1
    have h4 := target.isLt
    have hn0 : n.toNat = 0 := by
      rw [BitVec.toInt_eq_toNat_cond] at hn h3
      split_ifs at hn h3 <;> omega
    rw [h3]
    bv_omega

lemma Left.ret (h : Left n target) : (target - n).toInt = (target - n).toNat := by
  rcases h with ⟨h1, rfl⟩ | ⟨h1, h2⟩
  · rw [BitVec.sub_self]
    rfl
  · have h3 := toInt_pos h1
    have hsub : (target - n).toNat = target.toNat - n.toNat := by bv_omega
    rw [BitVec.toInt_eq_toNat_cond, hsub] at *
    split_ifs at h3 ⊢ <;> omega

omit [DecidableEq P] in
lemma Shows.reading (h : Shows d t) (f : P → Option Reading) : Shows d { t with reading := f } :=
  ⟨h.taken, h.unread, h.total, h.le, h.bytes⟩

lemma Rel.quiet (h : Rel s t) {c : Pc} (hlog : s'.log = s.log) (hcons : s'.cons = s.cons)
    (hpc : s'.pc = Function.update s.pc p c) (hc : PcOk (t.reading p) c) : Rel s' t := by
  refine ⟨by rw [hlog]; exact h.after, by rw [hcons]; exact h.shows, h.plain, fun q => ?_⟩
  rw [hpc]
  by_cases hqp : q = p
  · rw [hqp, Function.update_self]
    exact hc
  · rw [Function.update_of_ne hqp]
    exact h.pc q

lemma Rel.event (h : Rel s t) {c : Pc} {r : Option Reading} (hlog : s'.log = s.log ++ [ev])
    (hstep : t.step ev = some t') (hshows : Shows s'.cons t') (hline : t'.line = t.line)
    (hreading : t'.reading = Function.update t.reading p r)
    (hpc : s'.pc = Function.update s.pc p c) (hc : PcOk r c) : Rel s' t' := by
  refine ⟨by rw [hlog]; exact after_snoc h.after hstep, hshows, by rw [hline]; exact h.plain,
    fun q => ?_⟩
  rw [hpc, hreading]
  by_cases hqp : q = p
  · rw [hqp, Function.update_self, Function.update_self]
    exact hc
  · rw [Function.update_of_ne hqp, Function.update_of_ne hqp]
    exact h.pc q

lemma PcOk.wake {r : Option Reading} {c : Pc} (h : PcOk r c) : PcOk r c.wake := by
  cases c <;> exact h

lemma step_got {want got : ℕ} (hr : t.reading p = some ⟨want, got, false⟩) (hlt : got < want)
    (hnext : t.committed[t.taken]? = some c) (hc : c ≠ ctrlD) :
    t.step (.got p c) = some { t with
      taken := t.taken + 1
      reading := Function.update t.reading p (some ⟨want, got + 1, c = NL⟩) } := by
  simp only [Tty.step, hr, if_pos (And.intro hlt (And.intro hnext hc))]

lemma step_eof {want got : ℕ} (hr : t.reading p = some ⟨want, got, false⟩) (hlt : got < want)
    (hnext : t.committed[t.taken]? = some ctrlD) :
    t.step (.eof p) = some { t with
      taken := if got = 0 then t.taken + 1 else t.taken
      reading := Function.update t.reading p (some ⟨want, got, true⟩) } := by
  simp only [Tty.step, hr, if_pos (And.intro hlt hnext)]

lemma step_ret {r : Reading} {v : ℤ} (hr : t.reading p = some r)
    (hv : v = r.got ∧ (r.ended = true ∨ r.got = r.want) ∨ v = -1 ∧ t.taken = t.committed.length) :
    t.step (.ret p v) = some { t with reading := Function.update t.reading p none } := by
  obtain ⟨want, got, ended⟩ := r
  simp only [Tty.step, hr, if_pos hv]

/-- One iteration of the reading loop. -/
lemma Rel.readStep (h : Rel s t) (hp : s.pc p = .loop n target) :
    ∃ t', Rel (readStep s p n target) t' := by
  have hok := h.pc p
  rw [hp] at hok
  obtain ⟨hr, hleft⟩ := hok
  unfold Console.readStep
  by_cases hn : 0 < n.toInt
  swap
  · rw [if_neg hn]
    exact ⟨t, h.quiet rfl rfl rfl ⟨false, hr, hleft, Or.inr (hleft.none hn)⟩⟩
  obtain ⟨-, hle, hlt, hput⟩ := hleft.pos hn
  rw [if_pos hn]
  by_cases hrw : s.cons.r = s.cons.w
  · rw [if_pos hrw]
    split_ifs
    · exact ⟨_, h.event rfl (step_ret hr (Or.inr ⟨rfl, h.shows.empty hrw⟩)) (h.shows.reading _)
        rfl rfl rfl rfl⟩
    · exact ⟨t, h.quiet rfl rfl rfl ⟨hr, hleft⟩⟩
  obtain ⟨hnext, hshows⟩ := h.shows.next hrw
  rw [if_neg hrw]
  by_cases hD : s.cons.at s.cons.r = ctrlD
  · rw [if_pos hD]
    rw [hD] at hnext
    refine ⟨_, h.event rfl (step_eof hr hlt hnext) ?_ rfl rfl rfl ⟨true, rfl, hleft, Or.inl rfl⟩⟩
    dsimp only [St.emit, St.goto]
    by_cases hz : (target - n).toNat = 0
    · rw [if_neg fun hc => hput.mp hc hz, if_pos hz]
      exact hshows.reading _
    · -- `r` is where it was
      rw [if_pos (hput.mpr hz), if_neg hz, BitVec.add_sub_cancel]
      exact h.shows.reading _
  · rw [if_neg hD]
    obtain ⟨hleft', hgot⟩ := hleft.next hn
    have hstep := step_got hr hlt hnext hD
    rw [← hgot] at hstep
    by_cases hnl : s.cons.at s.cons.r = NL
    · rw [if_pos hnl]
      refine ⟨_, h.event rfl hstep (hshows.reading _) rfl rfl rfl ⟨true, ?_, hleft', Or.inl rfl⟩⟩
      rw [hnl, decide_eq_true rfl]
    · rw [if_neg hnl]
      refine ⟨_, h.event rfl hstep (hshows.reading _) rfl rfl rfl ⟨?_, hleft'⟩⟩
      rw [decide_eq_false hnl]

/-- What one step keeps. -/
lemma Rel.step (h : Rel s t) (a : Act P) : ∃ t', Rel (step s a) t' := by
  unfold Console.step
  cases a with
  | intr c =>
    rcases hl : s.lock with _ | p
    · obtain ⟨h1, h2⟩ := h.shows.key h.plain c
      have hreading : (t.key c).reading = t.reading := by
        unfold Tty.key
        dsimp only
        split_ifs <;> rfl
      refine ⟨t.key c, after_snoc h.after rfl, h1, h2, fun p => ?_⟩
      dsimp only [St.emit]
      rw [hreading]
      split_ifs
      · exact (h.pc p).wake
      · exact h.pc p
    · exact ⟨t, h⟩
  | call p n =>
    dsimp only
    have hok := h.pc p
    split
    next hp =>
      rw [hp] at hok
      have hstep : t.step (.call p n) = some { t with
          reading := Function.update t.reading p (some ⟨n.toInt.toNat, 0, false⟩) } := by
        simp only [Tty.step, show t.reading p = none from hok]
      refine ⟨_, h.event rfl hstep (h.shows.reading _) rfl rfl rfl ⟨?_, ?_⟩⟩
      · rw [BitVec.sub_self]
        rfl
      · rcases lt_or_ge 0 n.toInt with h1 | h1
        · exact Or.inr ⟨h1, le_rfl⟩
        · exact Or.inl ⟨h1, rfl⟩
    next => exact ⟨t, h⟩
  | go p =>
    dsimp only
    unfold go
    have hok := h.pc p
    rcases hp : s.pc p with _ | ⟨n, target⟩ | ⟨n, target⟩ | ⟨n, target⟩ | ⟨n, target⟩
    · exact ⟨t, h⟩
    · rw [hp] at hok
      dsimp only
      rcases hl : s.lock with _ | q
      · exact ⟨t, h.quiet rfl rfl rfl hok⟩
      · exact ⟨t, h⟩
    · exact h.readStep hp
    · exact ⟨t, h⟩
    · rw [hp] at hok
      obtain ⟨ended, hr, hleft, hend⟩ := hok
      exact ⟨_, h.event rfl (step_ret hr (Or.inl ⟨hleft.ret, hend⟩)) (h.shows.reading _) rfl rfl rfl rfl⟩
  | kill p =>
    exact ⟨t, h.quiet rfl rfl rfl (h.pc p).wake⟩

lemma Rel.run (acts : List (Act P)) : ∀ {s : St P} {t : Tty P}, Rel s t →
    ∃ t', Rel (run s acts) t' := by
  induction acts with
  | nil => intro s t h; exact ⟨t, h⟩
  | cons a acts ih =>
    intro s t h
    obtain ⟨t1, h1⟩ := h.step a
    exact ih h1

lemma rel_init (buf : ℕ → Byte) (killed : P → Bool) : Rel (init buf killed) Tty.init := by
  refine ⟨rfl, ⟨le_rfl, by simp [init, Tty.init], by simp [init, Tty.init, Tty.held],
    Nat.zero_le _, fun k hk => ?_⟩, by simp [Tty.init], fun p => rfl⟩
  exact absurd hk (Nat.not_lt_zero _)

/-- The characters that the handler does not add to the line. -/
def Control (c : Byte) : Prop := c = 0 ∨ c = ctrlP ∨ c = ctrlU ∨ c = ctrlH ∨ c = DEL

omit [DecidableEq P] in
lemma dropped_full (h : Shows d t) (hc : ¬ Control c) (hdrop : (consoleintr d c).1 = d) :
    (d.e - d.r).toNat = INPUT_BUF_SIZE := by
  unfold Control at hc
  simp only [not_or] at hc
  obtain ⟨h0, hP, hU, hH, hD⟩ := hc
  have htot := h.total
  have hle := h.le
  by_contra hfull
  have hroom : d.e - d.r < 128#32 := by
    rw [INPUT_BUF_SIZE] at hle hfull
    bv_omega
  unfold consoleintr at hdrop
  rw [if_neg hP, if_neg hU, if_neg (not_or.mpr ⟨hH, hD⟩), if_pos ⟨h0, hroom⟩] at hdrop
  have he := congrArg Cons.e hdrop
  dsimp only at he
  split_ifs at he
  all_goals
    unfold Cons.store at he
    dsimp only at he
    bv_omega

/-- **The console implements its line discipline**: over any run, the indices are in order, the
history of characters, reads and results is one that a terminal accepts, the bytes given to readers
are the committed input less its ends of file, as far as it is taken, the ring holds the rest, and a
character is dropped only when the ring is full. -/
theorem console_line_discipline (buf : ℕ → Byte) (killed : P → Bool) (acts : List (Act P)) :
    let s := run (init buf killed) acts
    let d := s.cons
    (d.w - d.r).toNat ≤ (d.e - d.r).toNat ∧ (d.e - d.r).toNat ≤ INPUT_BUF_SIZE ∧
    (∃ t : Tty P, Tty.after s.log = some t ∧
      delivered s.log = (t.committed.take t.taken).filter (fun c => c ≠ ctrlD) ∧
      (d.w - d.r).toNat = (t.committed.drop t.taken).length ∧
      (d.e - d.r).toNat = t.held.length ∧
      ∀ k (h : k < t.held.length), d.at (d.r + BitVec.ofNat 32 k) = t.held[k]) ∧
    ∀ c, ¬ Control c → (consoleintr d c).1 = d → (d.e - d.r).toNat = INPUT_BUF_SIZE := by
  intro s d
  obtain ⟨t, h⟩ := (rel_init buf killed).run acts
  have hs := h.shows
  have hlen := held_length t
  refine ⟨?_, ?_, ⟨t, h.after, (Tty.delivers _ t h.after).2, ?_, hs.total, fun k hk => ?_⟩,
    fun c hc => dropped_full hs hc⟩
  · rw [hs.unread, hs.total]
    omega
  · rw [hs.total]
    exact hs.le
  · rw [hs.unread, List.length_drop]
  · rw [← hs.bytes k hk]
    unfold Cons.at
    congr 1
    have hle := hs.le
    have hr := d.r.isLt
    rw [BitVec.toNat_add, BitVec.toNat_ofNat, INPUT_BUF_SIZE] at *
    change _ = (d.r.toNat + k) % 128
    omega

end Xv6.Console
