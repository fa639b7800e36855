import Xv6.Console
import Mathlib.Tactic

/-!
The line discipline of the console.

`Tty` is what a terminal should be: the input that is committed, how much of it readers have taken,
the line that is being edited, and how far each read has come. It accepts a history of characters,
calls and results or it does not. The three indices into the ring of the console refine it.
-/

namespace Xv6.Console

open Xv6.ByteMem

/-! ### A terminal -/

/-- A read of up to `want` bytes that was given `got`; `ended` when it may be given no more. -/
structure Reading where
  want : ℕ
  got : ℕ
  ended : Bool

structure Tty (P : Type) where
  committed : List Byte
  taken : ℕ
  line : List Byte
  reading : P → Option Reading

variable {P : Type} [DecidableEq P]

/-- What readers have not taken, and then the line being edited. -/
def Tty.held (t : Tty P) : List Byte := t.committed.drop t.taken ++ t.line

/-- A character arrives: it edits the line, or it is added to the line, which is committed at its
end or when no more can be held. -/
def Tty.key (t : Tty P) (c : Byte) : Tty P :=
  if c = ctrlP then t
  else if c = ctrlU then { t with line := [] }
  else if c = ctrlH ∨ c = DEL then { t with line := t.line.dropLast }
  else if c = 0 ∨ t.held.length = INPUT_BUF_SIZE then t
  else
    let b := if c = CR then NL else c
    if b = NL ∨ b = ctrlD ∨ t.held.length + 1 = INPUT_BUF_SIZE then
      { t with committed := t.committed ++ (t.line ++ [b]), line := [] }
    else { t with line := t.line ++ [b] }

/-- The terminal after an event, unless the event should not happen. -/
def Tty.step (t : Tty P) : Event P → Option (Tty P)
  | .key c => some (t.key c)
  | .call p n =>
    match t.reading p with
    | none => some { t with reading := Function.update t.reading p (some ⟨n.toInt.toNat, 0, false⟩) }
    | some _ => none
  | .got p c =>
    match t.reading p with
    | some ⟨want, got, false⟩ =>
      -- the next committed character, which is not an end of file
      if got < want ∧ t.committed[t.taken]? = some c ∧ c ≠ ctrlD then
        some { t with
          taken := t.taken + 1
          reading := Function.update t.reading p (some ⟨want, got + 1, c = NL⟩) }
      else none
    | _ => none
  | .eof p =>
    match t.reading p with
    | some ⟨want, got, false⟩ =>
      -- it stays for the next read when this one has been given something
      if got < want ∧ t.committed[t.taken]? = some ctrlD then
        some { t with
          taken := if got = 0 then t.taken + 1 else t.taken
          reading := Function.update t.reading p (some ⟨want, got, true⟩) }
      else none
    | _ => none
  | .ret p v =>
    match t.reading p with
    | some ⟨want, got, ended⟩ =>
      -- the number of bytes given, or an error while there is nothing to take
      if v = got ∧ (ended = true ∨ got = want) ∨ v = -1 ∧ t.taken = t.committed.length then
        some { t with reading := Function.update t.reading p none }
      else none
    | none => none

def Tty.init : Tty P := ⟨[], 0, [], fun _ => none⟩

/-- The terminal after a history. -/
def Tty.after (log : List (Event P)) : Option (Tty P) := log.foldlM Tty.step Tty.init

/-- The bytes given to readers, in order. -/
def delivered (log : List (Event P)) : List Byte :=
  log.filterMap fun ev => match ev with
    | .got _ c => some c
    | _ => none

variable {t t' : Tty P} {d : Cons} {p q : P} {s s' : St P} {log : List (Event P)} {ev : Event P}
  {c : Byte} {n target : BitVec 32}

lemma after_snoc (h : Tty.after log = some t) (hs : t.step ev = some t') :
    Tty.after (log ++ [ev]) = some t' := by
  unfold Tty.after at h ⊢
  rw [List.foldlM_append, h]
  change (t.step ev >>= fun t => pure t) = _
  rw [hs]
  rfl

/-- Readers have been given the committed input up to where it is taken, less the ends of file. -/
def Tty.Delivers (t : Tty P) (log : List (Event P)) : Prop :=
  t.taken ≤ t.committed.length ∧
    delivered log = (t.committed.take t.taken).filter fun c => c ≠ ctrlD

omit [DecidableEq P] in
lemma delivered_snoc (log : List (Event P)) (ev : Event P) :
    delivered (log ++ [ev]) = delivered log ++ delivered [ev] := List.filterMap_append ..

omit [DecidableEq P] in
lemma key_taken (t : Tty P) (c : Byte) : (t.key c).taken = t.taken := by
  unfold Tty.key
  dsimp only
  split_ifs <;> rfl

omit [DecidableEq P] in
lemma key_committed (t : Tty P) (c : Byte) : ∃ l, (t.key c).committed = t.committed ++ l := by
  unfold Tty.key
  dsimp only
  split_ifs
  all_goals first
    | exact ⟨_, rfl⟩
    | exact ⟨[], (List.append_nil _).symm⟩

lemma take_next {l : List Byte} {k : ℕ} (h : l[k]? = some c) :
    l.take (k + 1) = l.take k ++ [c] := by
  rw [List.take_add_one, h]
  rfl

lemma lt_of_next {l : List Byte} {k : ℕ} (h : l[k]? = some c) : k < l.length :=
  (List.getElem?_eq_some_iff.mp h).1

/-- One event: what is delivered stays the committed input that is taken. -/
lemma Tty.Delivers.step (h : t.Delivers log) (hs : t.step ev = some t') :
    t'.Delivers (log ++ [ev]) := by
  obtain ⟨hle, hd⟩ := h
  unfold Tty.Delivers
  rw [delivered_snoc, hd]
  cases ev with
  | key c =>
    cases hs
    obtain ⟨l, hl⟩ := key_committed t c
    rw [key_taken, hl, List.length_append, List.take_append_of_le_length hle]
    exact ⟨by omega, List.append_nil _⟩
  | call p n =>
    simp only [Tty.step] at hs
    rcases hr : t.reading p with _ | r
    · rw [hr] at hs
      cases hs
      exact ⟨hle, List.append_nil _⟩
    · rw [hr] at hs
      cases hs
  | got p c =>
    simp only [Tty.step] at hs
    rcases hr : t.reading p with _ | ⟨want, got, ended⟩
    · rw [hr] at hs
      cases hs
    · rw [hr] at hs
      cases ended with
      | true => cases hs
      | false =>
        dsimp only at hs
        split_ifs at hs with hc
        obtain ⟨-, hnext, hne⟩ := hc
        cases hs
        dsimp only
        refine ⟨lt_of_next hnext, ?_⟩
        rw [take_next hnext, List.filter_append]
        simp [delivered, hne]
  | eof p =>
    simp only [Tty.step] at hs
    rcases hr : t.reading p with _ | ⟨want, got, ended⟩
    · rw [hr] at hs
      cases hs
    · rw [hr] at hs
      cases ended with
      | true => cases hs
      | false =>
        dsimp only at hs
        split_ifs at hs with hc h0
        · cases hs
          dsimp only
          refine ⟨lt_of_next hc.2, ?_⟩
          rw [take_next hc.2, List.filter_append]
          simp [delivered]
        · cases hs
          exact ⟨hle, List.append_nil _⟩
  | ret p v =>
    simp only [Tty.step] at hs
    rcases hr : t.reading p with _ | ⟨want, got, ended⟩
    · rw [hr] at hs
      cases hs
    · rw [hr] at hs
      dsimp only at hs
      split_ifs at hs
      cases hs
      exact ⟨hle, List.append_nil _⟩

/-- **What a terminal delivers** over any history that it accepts. -/
theorem Tty.delivers (log : List (Event P)) :
    ∀ t : Tty P, Tty.after log = some t → t.Delivers log := by
  induction log using List.reverseRecOn with
  | nil =>
    intro t h
    cases h
    exact ⟨le_rfl, rfl⟩
  | append_singleton log ev ih =>
    intro t h
    unfold Tty.after at h
    rw [List.foldlM_append] at h
    obtain ⟨t0, h0, h1⟩ := Option.bind_eq_some_iff.mp h
    obtain ⟨t1, h1, h2⟩ := Option.bind_eq_some_iff.mp h1
    cases h2
    exact (ih t0 h0).step h1

/-- **An end of file that stops a read which has been given something** is what the next read meets:
no reader is given a byte before. -/
theorem Tty.eof_stays {r : Reading} (hr : t.reading p = some r) (hgot : r.got ≠ 0)
    (h : t.step (.eof p) = some t') : t'.taken = t.taken ∧ ∀ q c, t'.step (.got q c) = none := by
  obtain ⟨want, got, ended⟩ := r
  simp only [Tty.step, hr] at h
  cases ended with
  | true => cases h
  | false =>
    dsimp only at h hgot
    split_ifs at h with hc
    cases h
    refine ⟨rfl, fun q c => ?_⟩
    simp only [Tty.step]
    split
    · refine if_neg fun hcc => hcc.2.2 ?_
      rw [hc.2] at hcc
      exact (Option.some.inj hcc.2.1).symm
    · rfl

end Xv6.Console
