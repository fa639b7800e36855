import Xv6.LogAdmission
import Mathlib.Data.List.GetD

/-!
Crashes. The header block is the one place where a group becomes permanent: until it is written
the home blocks are as before the group, and from then on the log holds all that recovery needs,
however often it is interrupted.
-/

namespace Xv6.Log

variable {L : Layout} {T disk : Disk} {hs : List ℕ} {s : St} {o b : ℕ} {d : Block}

/-! ### What the groups should leave -/

/-- A block of the disk that is not part of the log. -/
def Home (L : Layout) (b : ℕ) : Prop :=
  b < 2 ^ 32 ∧ b ≠ L.start ∧ (b < L.start ∨ L.start + L.size ≤ b)

instance (L : Layout) (b : ℕ) : Decidable (Home L b) := by
  unfold Home; infer_instance

/-- The disk after the writes of one group. -/
def apply (ws : List (ℕ × Block)) (d : Disk) : Disk :=
  ws.foldl (fun d w => Function.update d w.1 w.2) d

/-- The disk after whole groups, one after the other. -/
def after (d : Disk) (groups : List (List (ℕ × Block))) : Disk :=
  groups.foldl (fun d g => apply g d) d

@[simp] lemma apply_nil (d : Disk) : apply [] d = d := rfl

lemma apply_append_singleton (ws : List (ℕ × Block)) (w : ℕ × Block) (T : Disk) :
    apply (ws ++ [w]) T = Function.update (apply ws T) w.1 w.2 := by
  simp [apply, List.foldl_append]

lemma after_append_singleton (d : Disk) (gs : List (List (ℕ × Block))) (g : List (ℕ × Block)) :
    after d (gs ++ [g]) = apply g (after d gs) := by
  simp [after, List.foldl_append]

lemma apply_of_notMem {ws : List (ℕ × Block)} (T : Disk) (h : b ∉ ws.map Prod.fst) :
    apply ws T b = T b := by
  induction ws generalizing T with
  | nil => rfl
  | cons w ws ih =>
    simp only [List.map_cons, List.mem_cons, not_or] at h
    calc apply (w :: ws) T b = apply ws (Function.update T w.1 w.2) b := rfl
      _ = Function.update T w.1 w.2 b := ih _ h.2
      _ = T b := Function.update_of_ne h.1 _ _

/-! ### The header block -/

lemma readHeader_eq_nil {blk : Block} (h : blk 0 = 0) : readHeader blk = [] := by
  simp [readHeader, h]

lemma readHeader_writeHeader_nil (blk : Block) : readHeader (writeHeader blk []) = [] :=
  readHeader_eq_nil rfl

lemma readHeader_writeHeader (blk : Block) {bs : List ℕ} (hn : bs.length < 2 ^ 32)
    (hb : ∀ b ∈ bs, b < 2 ^ 32) : readHeader (writeHeader blk bs) = bs := by
  have h0 : (writeHeader blk bs 0).toNat = bs.length := by
    simp only [writeHeader, if_true, BitVec.toNat_ofNat]
    exact Nat.mod_eq_of_lt hn
  apply List.ext_getElem
  · simp [readHeader, h0]
  · intro i h1 h2
    simp only [readHeader, List.getElem_map, List.getElem_range]
    have hle : i + 1 ≤ bs.length := h2
    simp only [writeHeader, Nat.add_one_ne_zero, if_false, if_pos hle, Nat.add_sub_cancel,
      List.getD_eq_getElem _ _ h2, BitVec.toNat_ofNat]
    exact Nat.mod_eq_of_lt (hb _ (List.getElem_mem h2))

/-! ### The disk can be recovered -/

/-- The home blocks together with the log, whose header lists `hs`, give `T`. -/
structure Recoverable (L : Layout) (T disk : Disk) (hs : List ℕ) : Prop where
  header : readHeader (disk L.start) = hs
  nodup : hs.Nodup
  fits : hs.length ≤ L.size - 1
  home : ∀ b ∈ hs, Home L b
  logged : ∀ i < hs.length, disk (L.start + i + 1) = T (hs.getD i 0)
  rest : ∀ b, Home L b → b ∉ hs → disk b = T b

/-- The first `n` blocks of the header have been installed. -/
def Installed (T disk : Disk) (hs : List ℕ) (n : ℕ) : Prop :=
  ∀ i < n, disk (hs.getD i 0) = T (hs.getD i 0)

lemma Home.ne_log (h : Home L b) {i : ℕ} (hi : i + 1 < L.size) : b ≠ L.start + i + 1 := by
  unfold Home at h
  omega

lemma Recoverable.getD_home (h : Recoverable L T disk hs) {i : ℕ} (hi : i < hs.length) :
    Home L (hs.getD i 0) := by
  rw [List.getD_eq_getElem _ _ hi]
  exact h.home _ (List.getElem_mem hi)

lemma Recoverable.settled (h : Recoverable L T disk []) (hb : Home L b) : disk b = T b :=
  h.rest b hb (by simp)

lemma Recoverable.write_log (h : Recoverable L T disk []) {i : ℕ} (hi : i + 1 < L.size) :
    Recoverable L T (Function.update disk (L.start + i + 1) d) [] where
  header := by rw [Function.update_of_ne (by omega)]; exact h.header
  nodup := h.nodup
  fits := h.fits
  home := h.home
  logged := fun j hj => by simp at hj
  rest := fun b hb _ => by rw [Function.update_of_ne (hb.ne_log hi)]; exact h.settled hb

lemma Recoverable.write_home (h : Recoverable L T disk hs) {i : ℕ} (hi : i < hs.length) :
    Recoverable L T (Function.update disk (hs.getD i 0) d) hs where
  header := by rw [Function.update_of_ne (h.getD_home hi).2.1.symm]; exact h.header
  nodup := h.nodup
  fits := h.fits
  home := h.home
  logged := fun j hj => by
    have hne := (h.getD_home hi).ne_log (i := j) (by have := h.fits; omega)
    rw [Function.update_of_ne hne.symm]
    exact h.logged j hj
  rest := fun b hb hn => by
    have hne : b ≠ hs.getD i 0 := by
      rintro rfl
      rw [List.getD_eq_getElem _ _ hi] at hn
      exact hn (List.getElem_mem hi)
    rw [Function.update_of_ne hne]
    exact h.rest b hb hn

lemma Installed.next (h : Recoverable L T disk hs) {n : ℕ} (hi : Installed T disk hs n)
    (hn : n < hs.length) :
    Installed T (Function.update disk (hs.getD n 0) (disk (L.start + n + 1))) hs (n + 1) := by
  intro i hin
  by_cases he : hs.getD i 0 = hs.getD n 0
  · rw [he, Function.update_self]
    exact h.logged n hn
  · rw [Function.update_of_ne he]
    rcases Nat.lt_succ_iff_lt_or_eq.mp hin with hlt | rfl
    · exact hi i hlt
    · exact absurd rfl he

lemma Installed.all (h : Recoverable L T disk hs) (hi : Installed T disk hs hs.length)
    (hb : Home L b) : disk b = T b := by
  by_cases hm : b ∈ hs
  · obtain ⟨i, hlt, rfl⟩ := List.mem_iff_getElem.mp hm
    have hinst := hi i hlt
    rwa [List.getD_eq_getElem _ _ hlt] at hinst
  · exact h.rest b hb hm

lemma recoverable_clear (hall : ∀ b, Home L b → disk b = T b) :
    Recoverable L T (Function.update disk L.start (writeHeader (disk L.start) [])) [] where
  header := by rw [Function.update_self]; exact readHeader_writeHeader_nil _
  nodup := List.nodup_nil
  fits := Nat.zero_le _
  home := by simp
  logged := fun i hi => by simp at hi
  rest := fun b hb _ => by rw [Function.update_of_ne hb.2.1]; exact hall b hb

/-! ### The invariant -/

/-- While operations run, and until the header is written: the home blocks are those of `T`, the
cache those of `T` with the writes of the group. -/
structure Open (L : Layout) (T : Disk) (s : St) : Prop where
  clean : Recoverable L T s.disk []
  cache : ∀ b, Home L b → s.cache b = apply s.group T b
  home : ∀ b ∈ s.lh, Home L b
  fits : s.lh.length ≤ L.size - 1
  small : s.lh.length ≤ LOGSIZE

/-- The first `n` blocks of the group have been copied to the log. -/
def Copied (L : Layout) (s : St) (n : ℕ) : Prop :=
  ∀ i < n, s.disk (L.start + i + 1) = s.cache (s.lh.getD i 0)

/-- What holds at each point if the home blocks are to be those of `T`. -/
def Phase (L : Layout) (T : Disk) (s : St) : Prop :=
  match s.pc with
  | .run | .finish => Open L T s
  | .writeLog n => Open L T s ∧ n ≤ s.lh.length ∧ Copied L s n
  | .writeHead => Open L T s ∧ Copied L s s.lh.length
  | .install n => Recoverable L T s.disk s.lh ∧ n ≤ s.lh.length ∧ Installed T s.disk s.lh n ∧
      ∀ b, Home L b → s.cache b = T b
  | .clear | .reclear => Recoverable L T s.disk s.lh ∧ ∀ b, Home L b → s.disk b = T b ∧ s.cache b = T b
  | .readHead => (∃ hs, Recoverable L T s.disk hs) ∧ s.cache = s.disk
  | .reinstall n => Recoverable L T s.disk s.lh ∧ n ≤ s.lh.length ∧ Installed T s.disk s.lh n ∧
      s.cache = s.disk
  | .panic _ => ∃ hs, Recoverable L T s.disk hs

lemma Phase.recoverable (h : Phase L T s) : ∃ hs, Recoverable L T s.disk hs := by
  unfold Phase at h
  cases hp : s.pc with
  | run | finish => rw [hp] at h; exact ⟨_, h.clean⟩
  | writeLog n | writeHead => rw [hp] at h; exact ⟨_, h.1.clean⟩
  | install n | reinstall n | clear | reclear => rw [hp] at h; exact ⟨_, h.1⟩
  | readHead => rw [hp] at h; exact h.1
  | panic p => rw [hp] at h; exact h

lemma Open.commit (ht : Logged s) (h : Open L T s) (hc : Copied L s s.lh.length) :
    Recoverable L (apply s.group T)
      (Function.update s.disk L.start (writeHeader (s.disk L.start) s.lh)) s.lh where
  header := by
    rw [Function.update_self]
    refine readHeader_writeHeader _ ?_ fun b hb => (h.home b hb).1
    have := h.small
    unfold LOGSIZE MAXOPBLOCKS at this
    omega
  nodup := ht.1
  fits := h.fits
  home := h.home
  logged := fun i hi => by
    rw [Function.update_of_ne (by omega), hc i hi]
    refine h.cache _ ?_
    rw [List.getD_eq_getElem _ _ hi]
    exact h.home _ (List.getElem_mem hi)
  rest := fun b hb hn => by
    rw [Function.update_of_ne hb.2.1, apply_of_notMem]
    · exact h.clean.settled hb
    · exact fun hm => hn ((ht.2 b).mpr hm)

lemma Open.log_write (hg : Gate s) (ho : o ∈ s.active) (h : Open L T s) (hp : s.pc = .run)
    (hb : Home L b) : Phase L T (log_write L o b d s) := by
  have hout := hg.outstanding_pos ho
  simp only [Log.log_write]
  split
  · exact ⟨_, h.clean⟩
  rename_i hroom
  rw [if_neg (by omega)]
  simp only [Phase, hp]
  refine ⟨h.clean, fun c hc => ?_, ?_, ?_, ?_⟩
  · simp only [apply_append_singleton]
    by_cases hcb : c = b
    · subst hcb
      simp
    · rw [Function.update_of_ne hcb, Function.update_of_ne hcb]
      exact h.cache c hc
  · intro c hc
    simp only at hc
    split_ifs at hc with hbl
    · exact h.home c hc
    · rcases List.mem_append.mp hc with hc | hc
      · exact h.home c hc
      · rw [List.mem_singleton.mp hc]
        exact hb
  · have := h.fits
    dsimp only
    split_ifs
    · exact h.fits
    · rw [List.length_append, List.length_singleton]
      omega
  · have := h.small
    dsimp only
    split_ifs
    · exact h.small
    · rw [List.length_append, List.length_singleton]
      omega

lemma Open.end_op (h : Open L T s) (hp : s.pc = .run) : Phase L T (end_op o s) := by
  simp only [Log.end_op]
  by_cases hc : s.committing = true
  · rw [if_pos hc]
    exact ⟨_, h.clean⟩
  rw [if_neg hc]
  by_cases hz : s.outstanding - 1 = 0
  · rw [if_pos hz]
    by_cases hl : 0 < s.lh.length
    · simp only [if_pos hl]
      exact ⟨⟨h.clean, h.cache, h.home, h.fits, h.small⟩, Nat.zero_le _, fun i hi => by omega⟩
    · simp only [if_neg hl]
      exact ⟨h.clean, h.cache, h.home, h.fits, h.small⟩
  · rw [if_neg hz]
    simp only [Phase, hp]
    exact ⟨h.clean, h.cache, h.home, h.fits, h.small⟩

/-! ### The steps of commit and recovery -/

/-- The groups on disk are those committed. -/
def Durable (L : Layout) (disk : Disk) (s : St) : Prop := Phase L (after disk s.committed) s

lemma Durable.go (ht : Tracks s) (h : Durable L disk s) : Durable L disk (go L s) := by
  unfold Durable Phase at h
  unfold Durable Log.go
  cases hp : s.pc with
  | writeLog n =>
    rw [hp] at h
    obtain ⟨ho, hn, hc⟩ := h
    by_cases hlt : n < s.lh.length
    · simp only [if_pos hlt]
      have hfit := ho.fits
      refine ⟨⟨ho.clean.write_log (by omega), ho.cache, ho.home, ho.fits, ho.small⟩, hlt, ?_⟩
      intro i hi
      dsimp only
      rcases Nat.lt_succ_iff_lt_or_eq.mp hi with hlt | rfl
      · rw [Function.update_of_ne (by omega)]
        exact hc i hlt
      · rw [Function.update_self]
    · simp only [if_neg hlt]
      obtain rfl : n = s.lh.length := by omega
      exact ⟨⟨ho.clean, ho.cache, ho.home, ho.fits, ho.small⟩, hc⟩
  | writeHead =>
    rw [hp] at h
    rw [Tracks, hp] at ht
    simp only [putHeader, after_append_singleton]
    exact ⟨h.1.commit ht h.2, Nat.zero_le _, fun i hi => by omega, h.1.cache⟩
  | install n =>
    rw [hp] at h
    obtain ⟨hr, hn, hi, hc⟩ := h
    by_cases hlt : n < s.lh.length
    · simp only [if_pos hlt]
      refine ⟨hr.write_home hlt, hlt, hi.next hr hlt, fun b hb => ?_⟩
      simp only [installBlock]
      by_cases hbn : b = s.lh.getD n 0
      · rw [hbn, Function.update_self]
        exact hr.logged n hlt
      · rw [Function.update_of_ne hbn]
        exact hc b hb
    · simp only [if_neg hlt]
      obtain rfl : n = s.lh.length := by omega
      exact ⟨hr, fun b hb => ⟨hi.all hr hb, hc b hb⟩⟩
  | clear =>
    rw [hp] at h
    rw [Tracks, hp] at ht
    obtain ⟨-, hall⟩ := h
    refine ⟨recoverable_clear fun b hb => (hall b hb).1, fun b hb => ?_, by simp, Nat.zero_le _,
      Nat.zero_le _⟩
    simpa [putHeader, ht] using (hall b hb).2
  | finish => rw [hp] at h; exact ⟨h.clean, h.cache, h.home, h.fits, h.small⟩
  | readHead =>
    rw [hp] at h
    obtain ⟨⟨hs, hr⟩, hc⟩ := h
    have hh := hr.header
    subst hh
    exact ⟨hr, Nat.zero_le _, fun i hi => by omega, hc⟩
  | reinstall n =>
    rw [hp] at h
    obtain ⟨hr, hn, hi, hc⟩ := h
    by_cases hlt : n < s.lh.length
    · simp only [if_pos hlt]
      refine ⟨hr.write_home hlt, hlt, hi.next hr hlt, ?_⟩
      simp only [installBlock, hc]
    · simp only [if_neg hlt]
      obtain rfl : n = s.lh.length := by omega
      exact ⟨hr, fun b hb => ⟨hi.all hr hb, by rw [hc]; exact hi.all hr hb⟩⟩
  | reclear =>
    rw [hp] at h
    rw [Tracks, hp] at ht
    obtain ⟨-, hall⟩ := h
    refine ⟨recoverable_clear fun b hb => (hall b hb).1, fun b hb => ?_, by simp, Nat.zero_le _,
      Nat.zero_le _⟩
    simpa [putHeader, ht] using (hall b hb).2
  | run => simp only; simp only [Phase, hp]; rw [hp] at h; exact h
  | panic p => simp only; simp only [Phase, hp]; rw [hp] at h; exact h

/-- A write is to a home block. -/
def ToHome (L : Layout) : Act → Prop
  | .log_write _ b _ => Home L b
  | _ => True

lemma Durable.step (hg : Gate s) (ht : Tracks s) (h : Durable L disk s) {a : Act}
    (ha : ToHome L a) : Durable L disk (step L s a) := by
  cases a with
  | begin_op o =>
    simp only [Log.step, begin_op]
    split_ifs with hu hc hl
    · exact h
    · exact h
    · unfold Durable Phase at h ⊢
      simp only
      cases hp : s.pc <;> rw [hp] at h <;> simp only <;> first
        | exact h
        | exact ⟨h.clean, h.cache, h.home, h.fits, h.small⟩
        | exact ⟨⟨h.1.clean, h.1.cache, h.1.home, h.1.fits, h.1.small⟩, h.2⟩
    · exact h
  | log_write o b d =>
    simp only [Log.step]
    split_ifs with hc
    · have hp := hg.run_of_active hc.1 hc.2
      unfold Durable Phase at h
      rw [hp] at h
      have hph := h.log_write hg hc.2 hp (d := d) ha
      have hcm : (log_write L o b d s).committed = s.committed := by
        simp only [log_write]
        split_ifs <;> rfl
      unfold Durable
      rwa [hcm]
    · exact h
  | end_op o =>
    simp only [Log.step]
    split_ifs with hc
    · have hp := hg.run_of_active hc.1 hc.2
      unfold Durable Phase at h
      rw [hp] at h
      have hph := h.end_op hp (o := o)
      have hcm : (end_op o s).committed = s.committed := by
        simp only [end_op]
        split_ifs <;> rfl
      unfold Durable
      rwa [hcm]
    · exact h
  | go => exact h.go ht
  | crash =>
    have hr : ∃ hs, Recoverable L (after disk s.committed) s.disk hs := Phase.recoverable h
    exact ⟨hr, rfl⟩

lemma durable_boot (hclean : disk L.start 0 = 0) : Durable L disk (boot disk) := by
  refine ⟨⟨[], readHeader_eq_nil hclean, List.nodup_nil, Nat.zero_le _, by simp, ?_, ?_⟩, rfl⟩
  · intro i hi
    simp at hi
  · intro b _ _
    rfl

lemma durable_run (hg : Gate s) (ht : Tracks s) (h : Durable L disk s) {acts : List Act}
    (ha : ∀ a ∈ acts, ToHome L a) :
    Gate (run L s acts) ∧ Tracks (run L s acts) ∧ Durable L disk (run L s acts) := by
  induction acts generalizing s with
  | nil => exact ⟨hg, ht, h⟩
  | cons a acts ih =>
    simp only [List.mem_cons, forall_eq_or_imp] at ha
    exact ih (hg.step a) (ht.step hg a) (h.step hg ht ha.1) ha.2

/-! ### Recovery comes to its end -/

lemma run_append (s : St) (as bs : List Act) : run L s (as ++ bs) = run L (run L s as) bs :=
  List.foldl_append

lemma run_go_of_run (hp : s.pc = .run) (k : ℕ) : run L s (List.replicate k .go) = s := by
  induction k with
  | zero => rfl
  | succ k ih =>
    rw [List.replicate_succ, run_cons]
    have hgo : step L s .go = s := by simp [step, go, hp]
    rw [hgo, ih]

lemma recovery_ends (m : ℕ) (hp : s.pc = .reinstall (s.lh.length - m)) (hm : m ≤ s.lh.length) :
    (run L s (List.replicate (m + 2) .go)).pc = .run ∧
      (run L s (List.replicate (m + 2) .go)).committed = s.committed := by
  induction m generalizing s with
  | zero =>
    simp [step, go, hp, putHeader, List.replicate_succ]
  | succ m ih =>
    have hlt : s.lh.length - (m + 1) < s.lh.length := by omega
    have hgo : step L s .go =
        { installBlock L (s.lh.length - (m + 1)) s with pc := .reinstall (s.lh.length - m) } := by
      have hs : s.lh.length - (m + 1) + 1 = s.lh.length - m := by omega
      simp only [step, go, hp, if_pos hlt, hs]
    rw [show m + 1 + 2 = (m + 2) + 1 from rfl, List.replicate_succ, run_cons, hgo]
    exact ih (s := { installBlock L _ s with pc := .reinstall (s.lh.length - m) }) rfl
      (Nat.le_of_succ_le hm)

lemma recovery_completes (s : St) :
    let r := run L s (.crash :: List.replicate ((readHeader (s.disk L.start)).length + 3) .go)
    r.pc = .run ∧ r.committed = s.committed := by
  rw [List.replicate_succ]
  simp only [run_cons]
  have hp : (step L (step L s .crash) .go).pc =
      .reinstall ((step L (step L s .crash) .go).lh.length -
        (readHeader (s.disk L.start)).length) := by
    simp [step, crash, go]
  exact recovery_ends _ hp le_rfl

/-- **Crash atomicity.** Whatever operations, commits, crashes and interrupted recoveries came
before, a crash at any point followed by a recovery that is left to finish gives the home blocks of
exactly the groups whose header had reached the disk. -/
theorem log_crash_atomic (L : Layout) (disk : Disk) (hclean : disk L.start 0 = 0)
    (acts : List Act) (hhome : ∀ a ∈ acts, ToHome L a) :
    ∃ n, ∀ k, n ≤ k →
      let s := run L (boot disk) acts
      let r := run L s (.crash :: List.replicate k .go)
      r.pc = .run ∧ r.committed = s.committed ∧
        ∀ b, Home L b → r.disk b = after disk s.committed b := by
  have hrun := durable_run (gate_boot disk) (show Tracks (boot disk) from rfl)
    (durable_boot hclean) hhome
  set s := run L (boot disk) acts with hs
  set n := (readHeader (s.disk L.start)).length + 3 with hn
  refine ⟨n, fun k hk => ?_⟩
  obtain ⟨j, rfl⟩ := Nat.exists_eq_add_of_le hk
  obtain ⟨hpc, hcom⟩ := recovery_completes (L := L) s
  have hstop : run L s (.crash :: List.replicate (n + j) .go) =
      run L s (.crash :: List.replicate n .go) := by
    rw [List.replicate_add, ← List.cons_append, run_append, run_go_of_run hpc]
  dsimp only
  rw [hstop]
  refine ⟨hpc, hcom, fun b hb => ?_⟩
  have hacts : ∀ a ∈ Act.crash :: List.replicate n .go, ToHome L a := by
    intro a ha
    rcases List.mem_cons.mp ha with rfl | ha
    · trivial
    · rw [List.eq_of_mem_replicate ha]
      trivial
  obtain ⟨-, -, hd⟩ := durable_run hrun.1 hrun.2.1 hrun.2.2 hacts
  unfold Durable Phase at hd
  rw [hpc, hcom] at hd
  exact hd.clean.settled hb

/-- A group of one write that crashes right after its header is on disk, before anything is
installed. -/
def crashAfterHeader : List Act :=
  [.go, .go, .go, .begin_op 0, .log_write 0 100 fun _ => 7, .end_op 0, .go, .go, .go]

/-- The write is there after recovery. -/
theorem crash_after_header :
    (∀ a ∈ crashAfterHeader, ToHome mkfsLayout a) ∧
    (run mkfsLayout (boot fun _ _ => 0) crashAfterHeader).disk 100 0 = 0 ∧
    ∃ n, ∀ k, n ≤ k → (run mkfsLayout (boot fun _ _ => 0)
      (crashAfterHeader ++ .crash :: List.replicate k .go)).disk 100 0 = 7 := by
  have hhome : ∀ a ∈ crashAfterHeader, ToHome mkfsLayout a := by
    simp only [crashAfterHeader, List.forall_mem_cons, ToHome, true_and]
    exact ⟨by decide, by simp⟩
  obtain ⟨n, hn⟩ := log_crash_atomic mkfsLayout (fun _ _ => 0) rfl crashAfterHeader hhome
  refine ⟨hhome, by decide, n, fun k hk => ?_⟩
  rw [run_append, (hn k hk).2.2 100 (by decide)]
  decide

end Xv6.Log
