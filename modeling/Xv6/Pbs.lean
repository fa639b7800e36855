import Xv6.CInt
import Xv6.Process
import Mathlib.Tactic.Linarith
import Mathlib.Tactic.LinearCombination

/-!
The process table as the priority-based scheduler of `proc.c` sees it: the dynamic priority of a
process, its accounting, and the scan that picks the process to run next.

`int` expressions wrap; `divw` divides by zero to `-1`. Address spaces and open files are left out.
-/

namespace Xv6.Pbs

open Xv6.Riscv Xv6.CInt Xv6.Process

/-- Signed division of the machine. -/
def divw (a b : ℤ) : ℤ := if b = 0 then -1 else int (a.tdiv b)

/-- `struct proc`, with slots for pointers to processes and numbers for sleep channels. -/
structure Proc where
  state : ProcState
  chan : Option ℕ
  killed : ℤ
  xstate : ℤ
  pid : ℤ
  parent : Option (Fin NPROC)
  rtime : ℕ
  ctime : ℕ
  etime : ℕ
  pbs_static_priority : ℤ
  pbs_dynamic_priority : ℤ
  pbs_rbi : ℤ
  pbs_rtime : ℤ
  pbs_wtime : ℤ
  pbs_stime : ℤ
  pbs_num_sched : ℤ
  deriving DecidableEq

/-! ### The dynamic priority -/

def temp (p : Proc) : ℤ :=
  int (int (int (int (3 * p.pbs_rtime) - p.pbs_wtime) - p.pbs_stime) * 50)

def temp1 (p : Proc) : ℤ := int (int (int (1 + p.pbs_rtime) + p.pbs_stime) + p.pbs_wtime)

def temp2 (p : Proc) : ℤ := divw (temp p) (temp1 p)

def rbi (p : Proc) : ℤ := max 0 (temp2 p)

def dp (p : Proc) : ℤ := min 100 (int (p.pbs_static_priority + rbi p))

/-- The priority, and the process with its two results stored. -/
def dp_priority (p : Proc) : ℤ × Proc :=
  (dp p, { p with pbs_rbi := rbi p, pbs_dynamic_priority := dp p })

/-- The copy in `sysproc.c`. -/
def sdp_priority (p : Proc) : ℤ × Proc := dp_priority p

/-- No expression that leads to the index overflows. -/
structure ExactIndex (p : Proc) : Prop where
  triple : InInt (3 * p.pbs_rtime)
  less_wait : InInt (3 * p.pbs_rtime - p.pbs_wtime)
  less_sleep : InInt (3 * p.pbs_rtime - p.pbs_wtime - p.pbs_stime)
  scaled : InInt ((3 * p.pbs_rtime - p.pbs_wtime - p.pbs_stime) * 50)
  one_run : InInt (1 + p.pbs_rtime)
  run_sleep : InInt (1 + p.pbs_rtime + p.pbs_stime)
  total : InInt (1 + p.pbs_rtime + p.pbs_stime + p.pbs_wtime)

/-- No expression of `dp_priority` overflows. -/
structure Exact (p : Proc) : Prop extends ExactIndex p where
  raised : InInt (p.pbs_static_priority + rbi p)

variable {p q : Proc}

lemma ExactIndex.temp_eq (h : ExactIndex p) :
    temp p = (3 * p.pbs_rtime - p.pbs_wtime - p.pbs_stime) * 50 := by
  unfold temp
  rw [int_of h.triple, int_of h.less_wait, int_of h.less_sleep, int_of h.scaled]

lemma ExactIndex.temp1_eq (h : ExactIndex p) :
    temp1 p = 1 + p.pbs_rtime + p.pbs_stime + p.pbs_wtime := by
  unfold temp1
  rw [int_of h.one_run, int_of h.run_sleep, int_of h.total]

lemma Exact.dp_eq (h : Exact p) : dp p = min 100 (p.pbs_static_priority + rbi p) := by
  unfold dp
  rw [int_of h.raised]

/-- The counters are not negative. -/
structure Counts (p : Proc) : Prop where
  rtime : 0 ≤ p.pbs_rtime
  wtime : 0 ≤ p.pbs_wtime
  stime : 0 ≤ p.pbs_stime

lemma rbi_eq (h : ExactIndex p) (hc : Counts p) :
    rbi p = max 0 ((3 * p.pbs_rtime - p.pbs_wtime - p.pbs_stime) * 50 /
      (1 + p.pbs_rtime + p.pbs_stime + p.pbs_wtime)) := by
  have hr := hc.rtime
  have hw := hc.wtime
  have hs := hc.stime
  have hD : 0 < 1 + p.pbs_rtime + p.pbs_stime + p.pbs_wtime := by omega
  unfold rbi temp2 divw
  rw [h.temp_eq, h.temp1_eq, if_neg hD.ne']
  have hin := h.scaled
  generalize (3 * p.pbs_rtime - p.pbs_wtime - p.pbs_stime) * 50 = N at hin ⊢
  generalize 1 + p.pbs_rtime + p.pbs_stime + p.pbs_wtime = D at hD ⊢
  unfold InInt at hin
  rcases lt_or_ge N 0 with hN | hN
  · have h1 : 0 ≤ (-N).tdiv D := Int.tdiv_nonneg (by omega) hD.le
    have h2 : (-N).tdiv D ≤ -N := Int.tdiv_le_self D (by omega)
    have h3 : N / D < 0 := Int.ediv_neg_of_neg_of_pos hN hD
    rw [Int.neg_tdiv] at h1 h2
    rw [int_of ⟨by omega, by omega⟩]
    omega
  · have h1 : N / D ≤ N := Int.ediv_le_self D hN
    have h2 : 0 ≤ N / D := Int.ediv_nonneg hN hD.le
    rw [Int.tdiv_eq_ediv_of_nonneg hN, int_of ⟨by omega, by omega⟩]

lemma rbi_nonneg (p : Proc) : 0 ≤ rbi p := le_max_left _ _

lemma rbi_le (h : ExactIndex p) (hc : Counts p) : rbi p ≤ 149 := by
  have hr := hc.rtime
  have hw := hc.wtime
  have hs := hc.stime
  rw [rbi_eq h hc]
  refine max_le (by norm_num) (Int.lt_add_one_iff.mp (Int.ediv_lt_of_lt_mul (by omega) ?_))
  linarith

/-- The index grows with the running time and falls with the time away from the processor. -/
lemma rbi_mono (hp : ExactIndex p) (hcp : Counts p) (hq : ExactIndex q) (hcq : Counts q)
    (hr : p.pbs_rtime ≤ q.pbs_rtime)
    (hc : q.pbs_wtime + q.pbs_stime ≤ p.pbs_wtime + p.pbs_stime) : rbi p ≤ rbi q := by
  have hr0 := hcp.rtime
  have hw0 := hcq.wtime
  have hs0 := hcq.stime
  have hw1 := hcp.wtime
  have hs1 := hcp.stime
  rw [rbi_eq hp hcp, rbi_eq hq hcq]
  refine max_le_max le_rfl ?_
  have hDp : 0 < 1 + p.pbs_rtime + p.pbs_stime + p.pbs_wtime := by omega
  have hDq : 0 < 1 + q.pbs_rtime + q.pbs_stime + q.pbs_wtime := by omega
  have hcross : p.pbs_rtime * (q.pbs_wtime + q.pbs_stime) ≤
      q.pbs_rtime * (p.pbs_wtime + p.pbs_stime) :=
    mul_le_mul hr hc (by omega) (by omega)
  rw [Int.le_ediv_iff_mul_le hDq]
  have hfloor := Int.ediv_mul_le ((3 * p.pbs_rtime - p.pbs_wtime - p.pbs_stime) * 50) hDp.ne'
  refine le_of_mul_le_mul_right ?_ hDp
  calc _ = _ / _ * (1 + p.pbs_rtime + p.pbs_stime + p.pbs_wtime) *
        (1 + q.pbs_rtime + q.pbs_stime + q.pbs_wtime) := by ring
    _ ≤ (3 * p.pbs_rtime - p.pbs_wtime - p.pbs_stime) * 50 *
        (1 + q.pbs_rtime + q.pbs_stime + q.pbs_wtime) :=
      mul_le_mul_of_nonneg_right hfloor hDq.le
    _ ≤ (3 * q.pbs_rtime - q.pbs_wtime - q.pbs_stime) * 50 *
        (1 + p.pbs_rtime + p.pbs_stime + p.pbs_wtime) := by
      -- all products but those of `hcross` cancel
      linear_combination 150 * hr + 50 * hc + 200 * hcross

/-- **The dynamic priority reacts in the right direction**: as long as nothing overflows, the index
is between `0` and `149` and the priority between `0` and `100`, and the priority does not fall when
the static priority or the running time grows and the waiting and sleeping times shrink. -/
theorem dp_priority_reacts (p q : Proc) (hp : Exact p) (hcp : Counts p) (hq : Exact q)
    (hcq : Counts q) (hsp : 0 ≤ p.pbs_static_priority ∧ p.pbs_static_priority ≤ 100) :
    ((0 ≤ (dp_priority p).2.pbs_rbi ∧ (dp_priority p).2.pbs_rbi ≤ 149) ∧
      0 ≤ (dp_priority p).1 ∧ (dp_priority p).1 ≤ 100) ∧
    (p.pbs_static_priority ≤ q.pbs_static_priority → p.pbs_rtime ≤ q.pbs_rtime →
      q.pbs_wtime ≤ p.pbs_wtime → q.pbs_stime ≤ p.pbs_stime →
      (dp_priority p).1 ≤ (dp_priority q).1) := by
  have hlo := rbi_nonneg p
  refine ⟨⟨⟨hlo, rbi_le hp.toExactIndex hcp⟩, ?_, min_le_left _ _⟩, fun h1 h2 h3 h4 => ?_⟩
  · change 0 ≤ dp p
    rw [hp.dp_eq]
    exact le_min (by norm_num) (by omega)
  · change dp p ≤ dp q
    have hmono := rbi_mono hp.toExactIndex hcp hq.toExactIndex hcq h2 (by omega)
    rw [hp.dp_eq, hq.dp_eq]
    exact min_le_min le_rfl (by omega)

/-- What `allocproc` leaves in a slot, on tick `ticks`, with the new `pid`. -/
def usedProc (pid : ℤ) (ticks : ℕ) (p : Proc) : Proc :=
  { p with
    pid := pid
    state := .USED
    rtime := 0
    etime := 0
    ctime := ticks
    pbs_static_priority := 50
    pbs_dynamic_priority := 0
    pbs_rbi := 0
    pbs_rtime := 0
    pbs_wtime := 0
    pbs_stime := 0
    pbs_num_sched := 0 }

/-- What `freeproc` leaves in a slot. -/
def freeproc (p : Proc) : Proc :=
  { p with
    pid := 0
    parent := none
    chan := none
    killed := 0
    xstate := 0
    state := .UNUSED
    pbs_static_priority := 0
    pbs_dynamic_priority := 0
    pbs_rbi := 0
    pbs_rtime := 0
    pbs_wtime := 0
    pbs_stime := 0
    pbs_num_sched := 0 }

/-- A slot at power-on. -/
def zeroProc : Proc := ⟨.UNUSED, none, 0, 0, 0, none, 0, 0, 0, 0, 0, 0, 0, 0, 0, 0⟩

/-- A fresh process against the same process after ten ticks on the processor. -/
theorem dp_priority_reacts_fresh :
    (dp_priority (usedProc 1 0 zeroProc)).1 ≤
      (dp_priority { usedProc 1 0 zeroProc with pbs_rtime := 10 }).1 :=
  (dp_priority_reacts (usedProc 1 0 zeroProc) { usedProc 1 0 zeroProc with pbs_rtime := 10 }
    ⟨⟨by decide, by decide, by decide, by decide, by decide, by decide, by decide⟩, by decide⟩
    ⟨by decide, by decide, by decide⟩
    ⟨⟨by decide, by decide, by decide, by decide, by decide, by decide, by decide⟩, by decide⟩
    ⟨by decide, by decide, by decide⟩ ⟨by decide, by decide⟩).2
    (by decide) (by decide) (by decide) (by decide)

end Xv6.Pbs
