import Xv6.RefCount

/-!
What the program started by `exec` finds on its stack: `argc` pointers and a null pointer at the
address in `a1`, each pointer to one of the argument strings, all of it in the page below the size
of the process.
-/

namespace Xv6.ExecArgs

open Xv6.ByteMem Xv6.Riscv Xv6.Kalloc Xv6.Vm Xv6.Wp Xv6.PageTable Xv6.Walk Xv6.Unmap
open Xv6.AddrSpace Xv6.Grow Xv6.Cow Xv6.Copyout Xv6.Process Xv6.Invariant Xv6.View Xv6.Ops
open Xv6.Fork Xv6.Exec Xv6.Image Xv6.Kernel Xv6.Steps Xv6.Reach Xv6.RefCount

/-- The memory of process `i` by virtual address. -/
def umem (t : Kern) (i : Fin NPROC) : ℕ → Byte := rd (tabOf t i).leaf t.k.mem

/-- The 64-bit word of user memory at `va`. -/
def userWord (f : ℕ → Byte) (va : ℕ) : ℕ :=
  ((List.range 8).map fun j => (f (va + j)).toNat * 256 ^ j).sum

/-- The second argument register of process `i`. -/
def a1 (t : Kern) (i : Fin NPROC) : ℕ := (ld64 t.k.mem ((t.proc i).trapframe + TF_A1)).toNat

/-- Entry `k` of the argument array. -/
def argPtr (t : Kern) (i : Fin NPROC) (k : ℕ) : ℕ := userWord (umem t i) (a1 t i + 8 * k)

/-- The length of argument `k`. -/
def argLen (argv : List (List Byte)) (k : ℕ) : ℕ := (argv.getD k []).length

/-- Process `i` finds the arguments `argv`. -/
structure Arguments (t : Kern) (i : Fin NPROC) (argv : List (List Byte)) : Prop where
  sp : ld64 t.k.mem ((t.proc i).trapframe + TF_SP) = ld64 t.k.mem ((t.proc i).trapframe + TF_A1)
  aligned : a1 t i % 16 = 0
  stack : (t.proc i).sz % PGSIZE = 0 ∧ (t.proc i).sz - PGSIZE ≤ a1 t i ∧
    a1 t i + 8 * (argv.length + 1) ≤ (t.proc i).sz
  last : argPtr t i argv.length = 0
  pointers : ∀ k < argv.length, (t.proc i).sz - PGSIZE ≤ argPtr t i k ∧
    argPtr t i k + argLen argv k + 1 ≤ (t.proc i).sz
  strings : ∀ k < argv.length, ∀ j ≤ argLen argv k,
    umem t i (argPtr t i k + j) = (argv.getD k [] ++ [0]).getD j 0
  array_apart : ∀ k < argv.length, a1 t i + 8 * (argv.length + 1) ≤ argPtr t i k
  strings_apart : ∀ k l, k < l → l < argv.length →
    argPtr t i l + argLen argv l + 1 ≤ argPtr t i k

/-- The bytes that strings and array take on the stack, rounded up to multiples of `16`. -/
def argRoom (argv : List (List Byte)) : ℕ :=
  (argv.map fun a => (a.length + 1 + 15) / 16 * 16).sum + (8 * (argv.length + 1) + 15) / 16 * 16

/-! ### Reading the stack -/

lemma sum_digits (x n : ℕ) :
    ((List.range n).map fun j => x / 256 ^ j % 256 * 256 ^ j).sum = x % 256 ^ n := by
  induction n with
  | zero => simp [Nat.mod_one]
  | succ n ih =>
    rw [List.range_succ, List.map_append, List.sum_append, ih, Nat.pow_succ, Nat.mod_mul]
    simp [Nat.mul_comm]

lemma userWord_of {f : ℕ → Byte} {va x : ℕ} (hx : x < 2 ^ 64)
    (h : ∀ j < 8, f (va + j) = BitVec.ofNat 8 (x / 256 ^ j)) : userWord f va = x := by
  have hsum := sum_digits x 8
  rw [Nat.mod_eq_of_lt (by norm_num; exact hx)] at hsum
  rw [← hsum]
  unfold userWord
  congr 1
  refine List.map_congr_left fun j hj => ?_
  rw [h j (List.mem_range.mp hj), BitVec.toNat_ofNat]

lemma words_getD (ws : List ℕ) : ∀ {k j : ℕ}, k < ws.length → j < 8 →
    (ws.flatMap (leBytes 8)).getD (8 * k + j) 0 = BitVec.ofNat 8 (ws.getD k 0 / 256 ^ j) := by
  induction ws with
  | nil => intro k j hk; simp at hk
  | cons w ws ih =>
    intro k j hk hj
    rw [List.flatMap_cons]
    cases k with
    | zero =>
      rw [List.getD_append _ _ _ _ (by rw [length_leBytes]; omega)]
      simp [leBytes, List.getD_eq_getElem?_getD, hj]
    | succ k =>
      rw [List.getD_append_right _ _ _ _ (by rw [length_leBytes]; omega), length_leBytes,
        show 8 * (k + 1) + j - 8 = 8 * k + j by omega, List.getD_cons_succ]
      exact ih (by simpa using hk) hj

variable {f : ℕ → Byte} {argv : List (List Byte)} {ps : List ℕ} {top sp q sz : ℕ}

lemma Placed.length : ∀ {top : ℕ} {argv : List (List Byte)} {ps : List ℕ},
    Placed f top argv ps sp → ps.length = argv.length
  | _, [], [], _ => rfl
  | _, [], _ :: _, h => h.elim
  | _, _ :: _, [], h => h.elim
  | _, _ :: _, _ :: _, ⟨_, _, _, _, h⟩ => by
    rw [List.length_cons, List.length_cons, Placed.length h]

lemma Placed.get : ∀ {top : ℕ} {argv : List (List Byte)} {ps : List ℕ},
    Placed f top argv ps sp → ∀ k < argv.length, sp ≤ ps.getD k 0 ∧
      ps.getD k 0 + argLen argv k + 1 ≤ top ∧
      ∀ j ≤ argLen argv k, f (ps.getD k 0 + j) = (argv.getD k [] ++ [0]).getD j 0
  | _, [], _, _, k, hk => by simp at hk
  | _, _ :: _, [], h, _, _ => h.elim
  | top, arg :: argv, p :: ps, ⟨_, h2, _, h4, h5⟩, k, hk => by
    have hle := h5.le
    cases k with
    | zero =>
      refine ⟨hle, ?_, fun j hj => h4 j ?_⟩
      · change p + arg.length + 1 ≤ top
        omega
      · change j ≤ arg.length at hj
        omega
    | succ k =>
      obtain ⟨h6, h7, h8⟩ := Placed.get h5 k (by simpa using hk)
      have hlen : argLen (arg :: argv) (k + 1) = argLen argv k := rfl
      rw [List.getD_cons_succ, List.getD_cons_succ, hlen]
      exact ⟨h6, by omega, h8⟩

lemma Placed.apart : ∀ {top : ℕ} {argv : List (List Byte)} {ps : List ℕ},
    Placed f top argv ps sp → ∀ k l, k < l → l < argv.length →
      ps.getD l 0 + argLen argv l + 1 ≤ ps.getD k 0
  | _, [], _, _, _, l, _, hl => by simp at hl
  | _, _ :: _, [], h, _, _, _, _ => h.elim
  | top, arg :: argv, p :: ps, ⟨_, _, _, _, h5⟩, k, l, hkl, hl => by
    obtain ⟨l, rfl⟩ : ∃ l', l = l' + 1 := ⟨l - 1, by omega⟩
    have hlen : argLen (arg :: argv) (l + 1) = argLen argv l := rfl
    have hl' : l < argv.length := by simpa using hl
    rw [hlen, List.getD_cons_succ]
    cases k with
    | zero => exact (Placed.get h5 l hl').2.1
    | succ k =>
      rw [List.getD_cons_succ]
      exact Placed.apart h5 k l (by omega) hl'

lemma Placed.room : ∀ {top : ℕ} {argv : List (List Byte)} {ps : List ℕ},
    Placed f top argv ps sp → top % 16 = 0 →
      sp + (argv.map fun a => (a.length + 1 + 15) / 16 * 16).sum = top
  | _, [], [], h, _ => by
    rw [show sp = _ from h]
    simp
  | _, [], _ :: _, h, _ => h.elim
  | _, _ :: _, [], h, _ => h.elim
  | top, arg :: argv, p :: ps, ⟨h1, h2, h3, _, h5⟩, htop => by
    have ih := Placed.room h5 h1
    rw [List.map_cons, List.sum_cons]
    omega

/-! ### The arguments of the new program -/

variable {L : Layout} {t t' : Kern} {T : Fin NPROC → PTab} {i : Fin NPROC} {im : Exec.Image}
  {A : PTab}

lemma arguments_of_execed (h0 : Inv L t T) (hi : Live (t.proc i))
    (h : Execed L T i argv im A t t') : Arguments t' i argv ∧ argRoom argv ≤ PGSIZE := by
  have hproc : t'.proc i = { t.proc i with pagetable := im.pagetable, sz := im.sz } := by
    rw [h.proc, Function.update_self]
  have hlive : Live (t'.proc i) := by
    by_contra hc
    have h1 := congrArg Proc.trapframe (h.inv.idle i hc)
    rw [hproc] at h1
    exact trapframe_ne_zero h0 hi h1
  obtain ⟨ps, q, hst⟩ := h.stack
  have hle : im.sz ≤ 2 ^ 27 := by
    have h1 := (h.inv.slot i hlive).le
    rw [hproc] at h1
    exact h1
  have hmem : umem t' i = rd A.leaf t'.k.mem := by
    unfold umem
    rw [Inv.tabOf h.inv hlive, Function.update_self]
  have hlen := Placed.length hst.strings
  have habove := hst.above
  have htop := hst.strings.le
  have hroom := Placed.room hst.strings (by have := hst.page; unfold PGSIZE at this; omega)
  have hbase := hst.base
  have htwo := hst.two
  have hsp := hst.sp_eq
  have hal := hst.aligned
  rw [hlen] at habove hsp
  have ha1 : a1 t' i = im.sp := by
    unfold a1
    rw [hproc, h.regs.1, BitVec.toNat_ofNat, Nat.mod_eq_of_lt (by omega)]
  have hword : ∀ k < argv.length + 1, argPtr t' i k = (ps ++ [0]).getD k 0 := by
    intro k hk
    unfold argPtr
    rw [hmem, ha1]
    refine userWord_of ?_ fun j hj => ?_
    · rcases Nat.lt_or_ge k argv.length with hk' | hk'
      · have h1 := (Placed.get hst.strings k hk').2.1
        rw [List.getD_append _ _ _ _ (by omega)]
        omega
      · rw [List.getD_append_right _ _ _ _ (by omega), show k - ps.length = 0 by omega]
        norm_num
    · rw [Nat.add_assoc, hst.array _ (by omega), words_getD _ (by simp; omega) hj]
  have hptr : ∀ k < argv.length, argPtr t' i k = ps.getD k 0 := by
    intro k hk
    rw [hword k (by omega), List.getD_append _ _ _ _ (by omega)]
  refine ⟨⟨?_, ?_, ?_, ?_, fun k hk => ?_, fun k hk j hj => ?_, fun k hk => ?_,
    fun k l hkl hl => ?_⟩, ?_⟩
  · rw [hproc]
    exact h.regs.2.trans h.regs.1.symm
  · rw [ha1]
    omega
  · rw [ha1, hproc]
    exact ⟨hst.page, hbase, by dsimp only; omega⟩
  · rw [hword _ (by omega), List.getD_append_right _ _ _ _ (by omega), hlen, Nat.sub_self]
    rfl
  · obtain ⟨h1, h2, -⟩ := Placed.get hst.strings k hk
    rw [hptr k hk, hproc]
    exact ⟨by dsimp only; omega, h2⟩
  · rw [hptr k hk, hmem]
    exact (Placed.get hst.strings k hk).2.2 j hj
  · obtain ⟨h1, -, -⟩ := Placed.get hst.strings k hk
    rw [hptr k hk, ha1]
    omega
  · rw [hptr k (by omega), hptr l hl]
    exact Placed.apart hst.strings k l hkl hl
  · unfold argRoom
    omega

/-- **`exec` passes its arguments**: in every reachable state, for every file and every list of
strings, `exec` by a process that runs returns; if it returns `argc` the new program finds the
strings, and if strings and array do not fit in a page it returns `-1`. -/
theorem exec_passes_arguments (L : Layout) (m : Mem) (ops : List Op) :
    wp (system L ops) (fun _ t => ∀ i, (t.proc i).state = .RUNNABLE → ∀ ip argv,
      wp (exec L i ip argv) (fun r t' => (r = -1 ∨ 0 ≤ r) ∧
        (0 ≤ r → r = argv.length ∧ Arguments t' i argv) ∧ (PGSIZE < argRoom argv → r = -1))
        (fun _ => False) t) Reachable (powerOn m) := by
  refine wp_post (system_spec L m ops) ?_
  rintro _ t ⟨T, h⟩ i hrun ip argv
  have hi := Inv.live h (i := i) (by rw [hrun]; simp)
  refine wp_post (exec_outcome h hi ip argv) ?_
  rintro r t' (⟨rfl, -⟩ | ⟨rfl, im, A, hex⟩)
  · exact ⟨Or.inl rfl, fun h0 => absurd h0 (by norm_num), fun _ => rfl⟩
  · obtain ⟨hargs, hroom⟩ := arguments_of_execed h hi hex
    exact ⟨Or.inr (by omega), fun _ => ⟨rfl, hargs⟩, fun hc => absurd hroom (by omega)⟩

end Xv6.ExecArgs
