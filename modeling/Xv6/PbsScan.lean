import Xv6.Pbs
import Mathlib.Data.Prod.Lex

/-!
The loop of `scheduler` in the `PBS` build: it keeps the best process found so far together with
its lock and gives one of two locks back at every step.
-/

namespace Xv6.PbsScan

open Xv6.Riscv Xv6.Wp Xv6.Pbs

/-- `acquire` of a lock that this processor holds, `release` of one that it does not hold. -/
inductive LockPanic
  | acquire
  | release

/-- The process table and the process locks that the scanning processor holds. -/
structure Scan where
  proc : Fin NPROC → Proc
  held : Fin NPROC → Bool

abbrev M := StateT Scan (Except LockPanic)

def acquire (p : Fin NPROC) : M Unit := do
  let s ← get
  if s.held p = true then throw .acquire
  else set { s with held := Function.update s.held p true }

def release (p : Fin NPROC) : M Unit := do
  let s ← get
  if s.held p = false then throw .release
  else set { s with held := Function.update s.held p false }

/-- One round of the loop, with `max_priority` and `priority`. -/
def scanStep (best : Option (Fin NPROC) × ℤ) (p : Fin NPROC) : M (Option (Fin NPROC) × ℤ) := do
  acquire p
  let s ← get
  if (s.proc p).state ≠ .RUNNABLE then do
    release p
    pure best
  else do
    let dp := (dp_priority (s.proc p)).1
    let p' := (dp_priority (s.proc p)).2
    set { s with proc := Function.update s.proc p p' }
    match best with
    | (none, _) => pure (some p, dp)
    | (some max_priority, priority) =>
      if dp < priority then do
        release max_priority
        pure (some p, dp)
      else if dp = priority then
        if p'.pbs_num_sched < (s.proc max_priority).pbs_num_sched then do
          release max_priority
          pure (some p, priority)
        else if p'.pbs_num_sched = (s.proc max_priority).pbs_num_sched then
          if p'.ctime < (s.proc max_priority).ctime then do
            release max_priority
            pure (some p, priority)
          else do
            release p
            pure (some max_priority, priority)
        else do
          release p
          pure (some max_priority, priority)
      else do
        release p
        pure (some max_priority, priority)

/-- The whole table is scanned. -/
def scan : M (Option (Fin NPROC)) := do
  let best ← (List.finRange NPROC).foldlM scanStep (none, 101)
  pure best.1

/-- What the scheduler compares: priority, number of times scheduled, creation time, slot. -/
def key (t : Fin NPROC → Proc) (i : Fin NPROC) : ℤ ×ₗ ℤ ×ₗ ℕ ×ₗ Fin NPROC :=
  toLex (dp (t i), toLex ((t i).pbs_num_sched, toLex ((t i).ctime, i)))

variable {t : Fin NPROC → Proc} {s : Scan} {best : Option (Fin NPROC) × ℤ} {p m : Fin NPROC}
  {l : List (Fin NPROC)} {E : LockPanic → Prop}

/-- The table after the slots `l` have been scanned. -/
def stored (t : Fin NPROC → Proc) (l : List (Fin NPROC)) (i : Fin NPROC) : Proc :=
  if i ∈ l ∧ (t i).state = .RUNNABLE then (dp_priority (t i)).2 else t i

/-- The slots `l` have been scanned: the best of them is kept with its lock. -/
structure Scanned (t : Fin NPROC → Proc) (l : List (Fin NPROC)) (best : Option (Fin NPROC) × ℤ)
    (s : Scan) : Prop where
  proc : s.proc = stored t l
  held : ∀ i, s.held i = true ↔ best.1 = some i
  empty : best.1 = none → ∀ i ∈ l, (t i).state ≠ .RUNNABLE
  least : ∀ m, best.1 = some m → m ∈ l ∧ (t m).state = .RUNNABLE ∧ best.2 = dp (t m) ∧
    ∀ i ∈ l, (t i).state = .RUNNABLE → key t m ≤ key t i

lemma stored_num_sched (i : Fin NPROC) : (stored t l i).pbs_num_sched = (t i).pbs_num_sched := by
  unfold stored
  split_ifs <;> rfl

lemma stored_ctime (i : Fin NPROC) : (stored t l i).ctime = (t i).ctime := by
  unfold stored
  split_ifs <;> rfl

lemma stored_of_not_mem (hp : p ∉ l) : stored t l p = t p := if_neg fun h => hp h.1

lemma stored_skip (hs : (t p).state ≠ .RUNNABLE) : stored t (l ++ [p]) = stored t l := by
  funext i
  unfold stored
  by_cases hi : i = p
  · subst hi
    rw [if_neg fun h => hs h.2, if_neg fun h => hs h.2]
  · simp [hi]

lemma stored_add (hs : (t p).state = .RUNNABLE) :
    stored t (l ++ [p]) = Function.update (stored t l) p (dp_priority (t p)).2 := by
  funext i
  by_cases hi : i = p
  · subst hi
    rw [Function.update_self]
    exact if_pos ⟨by simp, hs⟩
  · rw [Function.update_of_ne hi]
    unfold stored
    simp [hi]

lemma key_le_iff (i j : Fin NPROC) : key t i ≤ key t j ↔ dp (t i) < dp (t j) ∨
    dp (t i) = dp (t j) ∧ ((t i).pbs_num_sched < (t j).pbs_num_sched ∨
      (t i).pbs_num_sched = (t j).pbs_num_sched ∧ ((t i).ctime < (t j).ctime ∨
        (t i).ctime = (t j).ctime ∧ i ≤ j)) := by
  unfold key
  rw [Prod.Lex.toLex_le_toLex, Prod.Lex.toLex_le_toLex, Prod.Lex.toLex_le_toLex]

lemma Scanned.skip (h : Scanned t l best s) (hs : (t p).state ≠ .RUNNABLE) :
    Scanned t (l ++ [p]) best s := by
  refine ⟨by rw [h.proc, stored_skip hs], h.held, fun hn i hi => ?_, fun m hm => ?_⟩
  · rcases List.mem_append.mp hi with hi | hi
    · exact h.empty hn i hi
    · rw [List.mem_singleton.mp hi]; exact hs
  · obtain ⟨h1, h2, h3, h4⟩ := h.least m hm
    refine ⟨List.mem_append_left _ h1, h2, h3, fun i hi hr => ?_⟩
    rcases List.mem_append.mp hi with hi | hi
    · exact h4 i hi hr
    · rw [List.mem_singleton.mp hi] at hr; exact absurd hr hs

lemma Scanned.keep (h : Scanned t l (some m, dp (t m)) s) (hs : (t p).state = .RUNNABLE)
    (hle : key t m ≤ key t p) :
    Scanned t (l ++ [p]) (some m, dp (t m))
      { s with proc := Function.update s.proc p (dp_priority (t p)).2 } := by
  obtain ⟨h1, h2, h3, h4⟩ := h.least m rfl
  refine ⟨by rw [stored_add hs, h.proc], h.held, fun hn => absurd hn (by simp), fun m' hm => ?_⟩
  obtain rfl := Option.some.inj hm
  refine ⟨List.mem_append_left _ h1, h2, rfl, fun i hi hr => ?_⟩
  rcases List.mem_append.mp hi with hi | hi
  · exact h4 i hi hr
  · rw [List.mem_singleton.mp hi]; exact hle

lemma Scanned.take (h : Scanned t l best s) (hs : (t p).state = .RUNNABLE)
    (hle : ∀ m, best.1 = some m → key t p ≤ key t m) :
    Scanned t (l ++ [p]) (some p, dp (t p))
      ⟨Function.update s.proc p (dp_priority (t p)).2, fun i => decide (i = p)⟩ := by
  refine ⟨by rw [stored_add hs, h.proc], fun i => by simp [eq_comm],
    fun hn => absurd hn (by simp), fun m hm => ?_⟩
  obtain rfl := Option.some.inj hm
  refine ⟨by simp, hs, rfl, fun i hi hr => ?_⟩
  rcases List.mem_append.mp hi with hi | hi
  · rcases hb : best.1 with _ | m
    · exact absurd hr (h.empty hb i hi)
    · exact (hle m hb).trans ((h.least m hb).2.2.2 i hi hr)
  · rw [List.mem_singleton.mp hi]

lemma wp_acquire {Q : Unit → Scan → Prop} (h : s.held p = false)
    (hQ : Q () { s with held := Function.update s.held p true }) : wp (acquire p) Q E s := by
  unfold acquire
  rw [wp_bind, wp_get, if_neg (by rw [h]; simp), wp_set]
  exact hQ

lemma wp_release {Q : Unit → Scan → Prop} (h : s.held p = true)
    (hQ : Q () { s with held := Function.update s.held p false }) : wp (release p) Q E s := by
  unfold release
  rw [wp_bind, wp_get, if_neg (by rw [h]; simp), wp_set]
  exact hQ

/-- One round: the new slot is passed over, becomes the best, or loses against the best. -/
lemma scanStep_spec (h : Scanned t l best s) (hp : ∀ i ∈ l, i < p) :
    wp (scanStep best p) (fun best' s' => Scanned t (l ++ [p]) best' s') E s := by
  have hpl : p ∉ l := fun hc => lt_irrefl p (hp p hc)
  have hfree : s.held p = false := by
    by_contra hc
    exact hpl (h.least p ((h.held p).mp (by simpa using hc))).1
  have hback : Function.update (Function.update s.held p true) p false = s.held := by
    rw [Function.update_idem, ← hfree, Function.update_eq_self]
  have hval : s.proc p = t p := by rw [h.proc, stored_of_not_mem hpl]
  unfold scanStep
  rw [wp_bind]
  refine wp_acquire hfree ?_
  rw [wp_bind, wp_get]
  dsimp only
  rw [hval]
  split_ifs with hs
  · rw [wp_bind]
    refine wp_release (by simp) ?_
    rw [wp_pure, hback]
    exact h.skip hs
  rw [not_not] at hs
  rw [wp_bind, wp_set]
  -- the two ways out of the comparison
  have hdrop : ∀ m, best = (some m, dp (t m)) → key t m ≤ key t p →
      wp (do release p; pure (some m, dp (t m))) (fun best' s' => Scanned t (l ++ [p]) best' s') E
        ⟨Function.update s.proc p (dp_priority (t p)).2, Function.update s.held p true⟩ := by
    rintro m rfl hle
    rw [wp_bind]
    refine wp_release (by simp) ?_
    rw [wp_pure, hback]
    exact h.keep hs hle
  have hswap : ∀ m, best = (some m, dp (t m)) → key t p ≤ key t m →
      wp (do release m; pure (some p, dp (t p))) (fun best' s' => Scanned t (l ++ [p]) best' s') E
        ⟨Function.update s.proc p (dp_priority (t p)).2, Function.update s.held p true⟩ := by
    rintro m rfl hle
    have hm : m ∈ l := (h.least m rfl).1
    have hmp : m ≠ p := by rintro rfl; exact hpl hm
    rw [wp_bind]
    refine wp_release ?_ ?_
    · dsimp only
      rw [Function.update_of_ne hmp]
      exact (h.held m).mpr rfl
    · rw [wp_pure]
      have hheld : Function.update (Function.update s.held p true) m false =
          fun i => decide (i = p) := by
        funext i
        by_cases him : i = m
        · subst him; simp [hmp]
        · rw [Function.update_of_ne him]
          by_cases hip : i = p
          · subst hip; simp
          · rw [Function.update_of_ne hip]
            have hno : ¬ s.held i = true := fun hc =>
              him (Option.some.inj ((h.held i).mp hc)).symm
            simpa [hip] using hno
      rw [hheld]
      exact h.take hs fun m' hm' => by rw [← Option.some.inj hm']; exact hle
  obtain ⟨max_priority, priority⟩ := best
  rcases max_priority with _ | m
  · rw [wp_pure]
    have hheld : Function.update s.held p true = fun i => decide (i = p) := by
      funext i
      by_cases hip : i = p
      · subst hip; simp
      · rw [Function.update_of_ne hip]
        have hno : ¬ s.held i = true := fun hc => by cases (h.held i).mp hc
        simpa [hip] using hno
    rw [hheld]
    exact h.take hs fun m hm => by cases hm
  · obtain ⟨hml, -, hpr, -⟩ := h.least m rfl
    have hlt := hp m hml
    have hnum : (s.proc m).pbs_num_sched = (t m).pbs_num_sched := by
      rw [h.proc, stored_num_sched]
    have hct : (s.proc m).ctime = (t m).ctime := by rw [h.proc, stored_ctime]
    dsimp only at hpr
    subst hpr
    dsimp only
    rw [hnum, hct]
    split_ifs with h1 h2 h3 h4 h5
    · exact hswap m rfl ((key_le_iff p m).mpr (Or.inl h1))
    · have h2' : dp (t p) = dp (t m) := h2
      rw [← h2']
      exact hswap m rfl ((key_le_iff p m).mpr (Or.inr ⟨h2, Or.inl h3⟩))
    · have h2' : dp (t p) = dp (t m) := h2
      rw [← h2']
      exact hswap m rfl ((key_le_iff p m).mpr (Or.inr ⟨h2, Or.inr ⟨h4, Or.inl h5⟩⟩))
    · refine hdrop m rfl ((key_le_iff m p).mpr (Or.inr ⟨h2.symm, Or.inr ⟨h4.symm, ?_⟩⟩))
      have h6 : ¬ (t p).ctime < (t m).ctime := h5
      omega
    · refine hdrop m rfl ((key_le_iff m p).mpr (Or.inr ⟨h2.symm, Or.inl ?_⟩))
      have h5 : ¬ (t p).pbs_num_sched < (t m).pbs_num_sched := h3
      have h6 : ¬ (t p).pbs_num_sched = (t m).pbs_num_sched := h4
      omega
    · refine hdrop m rfl ((key_le_iff m p).mpr (Or.inl ?_))
      have h5 : ¬ dp (t p) < dp (t m) := h1
      have h6 : ¬ dp (t p) = dp (t m) := h2
      omega

lemma scan_loop (l2 : List (Fin NPROC)) : ∀ {l : List (Fin NPROC)} {best : Option (Fin NPROC) × ℤ}
    {s : Scan}, (l ++ l2).Pairwise (· < ·) → Scanned t l best s →
    wp (l2.foldlM scanStep best) (fun best' s' => Scanned t (l ++ l2) best' s') E s := by
  induction l2 with
  | nil =>
    intro l best s _ h
    rw [List.foldlM_nil, wp_pure, List.append_nil]
    exact h
  | cons p l2 ih =>
    intro l best s hl h
    rw [List.foldlM_cons, wp_bind]
    have hlt : ∀ i ∈ l, i < p := fun i hi =>
      (List.pairwise_append.mp hl).2.2 i hi p List.mem_cons_self
    refine wp_post (scanStep_spec h hlt) fun best1 s1 h1 => ?_
    have happ : l ++ p :: l2 = (l ++ [p]) ++ l2 := by simp
    rw [happ] at hl ⊢
    exact ih hl h1

/-- **The scan picks the right process**: for every process table it selects no process iff none is
`RUNNABLE`, and otherwise the `RUNNABLE` one with the least key; it ends holding the lock of the
selected process alone, and has changed only the two stored results of `RUNNABLE` processes. -/
theorem pbs_scan_selects_least (t : Fin NPROC → Proc) :
    wp scan (fun r s =>
      (r = none ↔ ∀ i, (t i).state ≠ .RUNNABLE) ∧
      (∀ m, r = some m → (t m).state = .RUNNABLE ∧
        ∀ i, (t i).state = .RUNNABLE → key t m ≤ key t i) ∧
      (∀ i, s.held i = true ↔ r = some i) ∧
      ∀ i, s.proc i = if (t i).state = .RUNNABLE then
        { t i with pbs_rbi := rbi (t i), pbs_dynamic_priority := dp (t i) } else t i)
      (fun _ => False) ⟨t, fun _ => false⟩ := by
  have h0 : Scanned t [] (none, 101) ⟨t, fun _ => false⟩ :=
    ⟨by funext i; exact (if_neg (by simp)).symm, by simp, by simp, by simp⟩
  have hsort : ([] ++ List.finRange NPROC).Pairwise (· < ·) := by
    rw [List.nil_append]
    exact List.pairwise_lt_finRange NPROC
  unfold scan
  rw [wp_bind]
  refine wp_post (scan_loop _ hsort h0) fun best s h => ?_
  rw [wp_pure]
  rw [List.nil_append] at h
  refine ⟨⟨fun hn i => h.empty hn i (List.mem_finRange i), fun hall => ?_⟩, fun m hm => ?_, h.held,
    fun i => ?_⟩
  · rcases hb : best.1 with _ | m
    · rfl
    · exact absurd (h.least m hb).2.1 (hall m)
  · obtain ⟨-, h2, -, h4⟩ := h.least m hm
    exact ⟨h2, fun i => h4 i (List.mem_finRange i)⟩
  · rw [h.proc]
    unfold stored
    simp only [List.mem_finRange, true_and]
    rfl

end Xv6.PbsScan
