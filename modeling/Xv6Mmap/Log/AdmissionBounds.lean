import Mathlib.Data.Fintype.Basic
import Xv6Mmap.Library.Runs
import Xv6Mmap.Library.Tally
import Xv6Mmap.Log.Admission

/-!
# The log has room for the operations it admits

The blocks in the log and what the operations in progress may still log never exceed `LOGSIZE`, and
stay below it by two as long as no operation has used up its share.  So the test of `log_write`
passes except for the last block of an operation that has come to `MAXOPBLOCKS`, in a transaction
that has logged 29 blocks or more.
-/

namespace Xv6Mmap.Log

open Function Library BitVec Phase Finset Option Bool

/-! ## The header -/

namespace LogHeader

/-- Block `b` is in the log. -/
def Holds (lh : LogHeader) (b : Word) : Prop := ∃ j < lh.n.toNat, lh.block j = b

variable {lh : LogHeader} {b : Word}

/-- A block that is in the log already is absorbed. -/
theorem logWrite_of_holds (hn : lh.n.toNat < 2 ^ 31) (h : lh.Holds b) : lh.logWrite b = lh := by
  obtain ⟨j, hj, hblock⟩ := h
  have hsome : ((List.range lh.n.count).find? fun i ↦ lh.block i == b).isSome := by
    grind [count_eq_toNat]
  obtain ⟨i, hi⟩ := isSome_iff_exists.mp hsome
  have hindex : lh.index b = i := by rw [index, hi, getD_some]
  have hequal : lh.block i = b := by simpa using List.find?_some hi
  have hlt : i < lh.n.toNat := by
    have hmem := List.mem_of_find?_eq_some hi
    rwa [List.mem_range, count_eq_toNat hn] at hmem
  have hne : BitVec.ofNat 32 i ≠ lh.n := by grind
  unfold logWrite
  simp only [hindex, if_neg hne]
  rw [← hequal, update_eq_self]

/-- A block that is not in the log is entered at its end. -/
theorem logWrite_of_not_holds (hn : lh.n.toNat < 2 ^ 31) (h : ¬ lh.Holds b) :
    lh.logWrite b = { n := lh.n + 1, block := update lh.block lh.n.toNat b } := by
  have hnone : ((List.range lh.n.count).find? fun i ↦ lh.block i == b) = none := by
    rw [List.find?_eq_none]
    intro j hj hfound
    rw [List.mem_range, count_eq_toNat hn] at hj
    exact h ⟨j, hj, by simpa using hfound⟩
  have hindex : lh.index b = lh.n.toNat := by
    rw [index, hnone, getD_none, count_eq_toNat hn]
  have hequal : BitVec.ofNat 32 lh.n.toNat = lh.n := by simp
  unfold logWrite
  simp only [hindex, if_pos hequal]

theorem toNat_succ (hn : lh.n.toNat < 2 ^ 30) : (lh.n + 1).toNat = lh.n.toNat + 1 := by
  have hone : (1 : Word).toNat = 1 := rfl
  rw [toNat_add]
  omega

/-- The log holds what it held before and the new block. -/
theorem holds_logWrite (hn : lh.n.toNat < 2 ^ 30) :
    (lh.logWrite b).Holds b ∧ ∀ c, lh.Holds c → (lh.logWrite b).Holds c := by
  by_cases hholds : lh.Holds b
  · rw [logWrite_of_holds (by omega) hholds]
    exact ⟨hholds, fun _ ↦ id⟩
  · have hnext := toNat_succ hn
    rw [logWrite_of_not_holds (by omega) hholds]
    refine ⟨⟨lh.n.toNat, by dsimp only; omega, update_self ..⟩, ?_⟩
    intro c hc
    obtain ⟨j, hj, hblock⟩ := hc
    refine ⟨j, by dsimp only; omega, ?_⟩
    rw [← hblock]
    exact update_of_ne (by omega) ..

end LogHeader

/-! ## What holds in every run -/

/-- Writing blocks changes neither the header in memory nor the size of the log. -/
theorem header_foldl_bwrite (s : State) (address : State → ℕ → Word)
    (value : State → ℕ → BlockData) (indices : List ℕ) :
    let t := indices.foldl (fun s tail ↦ s.bwrite (address s tail) (value s tail)) s
    t.lh = s.lh ∧ t.size = s.size := by
  induction indices generalizing s with
  | nil => exact ⟨rfl, rfl⟩
  | cons tail rest ih => exact ih (s.bwrite (address s tail) (value s tail))

theorem header_writeLog (s : State) : s.writeLog.lh = s.lh ∧ s.writeLog.size = s.size :=
  header_foldl_bwrite s _ _ _

theorem header_installTrans (s : State) :
    s.installTrans.lh = s.lh ∧ s.installTrans.size = s.size :=
  header_foldl_bwrite s _ _ _

/-- `commit` leaves the log empty. -/
theorem commit_log {s : State} (h : s.lh.n.toNat < 2 ^ 31) :
    s.commit.lh.n = 0 ∧ s.commit.size = s.size := by
  unfold State.commit
  split
  · have hcopied := (header_writeLog s).2
    have hinstalled := (header_installTrans s.writeLog.writeHead).2
    generalize s.writeLog.writeHead.installTrans = u at *
    exact ⟨rfl, hinstalled.trans hcopied⟩
  · rename_i hzero
    rw [toInt_eq_toNat_of_lt (by omega)] at hzero
    exact ⟨eq_of_toNat_eq (by simp; omega), rfl⟩

namespace Phase

/-- The blocks that an operation has logged, with the one that it is about to enter. -/
def demand : Phase → ℕ
  | active logged => logged.card
  | writing logged blockno => (insert blockno logged).card
  | _ => 0

/-- What an operation in progress has logged is in the log. -/
def Recorded (phase : Phase) (lh : LogHeader) : Prop :=
  ∀ logged, phase.logged = some logged → ∀ b ∈ logged, lh.Holds b

theorem recorded_idle (lh : LogHeader) : idle.Recorded lh := by
  intro logged hlogged
  cases hlogged

theorem left_le (bound : ℕ) (phase : Phase) : phase.left bound ≤ bound * phase.opCount := by
  cases phase <;> simp [left, opCount, logged]

end Phase

namespace Admission

variable {ι : Type} {s t : Admission ι} {i : ι} {next : Phase}

/-- Process `i` commits the transaction. -/
def Commits (s : Admission ι) (i : ι) : Prop :=
  s.phases i = .committing ∨ s.phases i = .committed

section Moves

variable [DecidableEq ι]

@[simp]
theorem phases_move_self (s : Admission ι) (i : ι) (next : Phase) :
    (s.move i next).phases i = next := by
  simp only [move, update_self]

theorem phases_move_of_ne (s : Admission ι) (next : Phase) {j : ι} (h : j ≠ i) :
    (s.move i next).phases j = s.phases j := by
  simp only [move, update_of_ne h]

theorem commits_of_move (hnext : ¬ (next = .committing ∨ next = .committed)) {j : ι}
    (hj : (s.move i next).Commits j) : s.Commits j := by
  by_cases hsame : j = i
  · rw [Commits, hsame, phases_move_self] at hj
    exact absurd hj hnext
  · rw [Commits, phases_move_of_ne s next hsame] at hj
    exact hj

theorem forall_move {P : Phase → Prop} (h : ∀ j, P (s.phases j)) (hnext : P next)
    (j : ι) : P ((s.move i next).phases j) := by
  by_cases hsame : j = i
  · rw [hsame, phases_move_self]
    exact hnext
  · rw [phases_move_of_ne s next hsame]
    exact h j

theorem logCount_lt_of_move (hle : (s.phases i).logCount ≤ next.logCount) {c : ℕ}
    (h : ∀ j, ((s.move i next).phases j).logCount < c) (j : ι) : (s.phases j).logCount < c := by
  have hj := h j
  by_cases hji : j = i
  · rw [hji, phases_move_self] at hj
    rw [hji]
    exact lt_of_le_of_lt hle hj
  · rwa [phases_move_of_ne s _ hji] at hj

/-! What each step asks for and what it does. -/

theorem beginOp_eq (hstep : s.beginOp i = some t) :
    s.phases i = .idle ∧ s.committing = false ∧ s.full = false ∧
      t = { s.move i (.active ∅) with outstanding := s.outstanding + 1 } := by
  rw [beginOp] at hstep
  split at hstep
  · split at hstep
    · cases hstep
    · split at hstep
      · cases hstep
      · cases hstep
        exact ⟨by assumption, eq_false_of_not_eq_true (by assumption),
          eq_false_of_not_eq_true (by assumption), rfl⟩
  · cases hstep

theorem logEnter_eq (hstep : s.logEnter i = some t) :
    ∃ logged b, s.phases i = .writing logged b ∧
      t = { s.move i (.active (insert b logged)) with
        log := { s.log with lh := s.log.lh.logWrite b } } := by
  rw [logEnter] at hstep
  split at hstep
  · cases hstep
    exact ⟨_, _, by assumption, rfl⟩
  · cases hstep

theorem endOp_eq (hstep : s.endOp i = some t) :
    ∃ logged, s.phases i = .active logged ∧ (s.committing = false → t =
      { s.move i (if s.outstanding - 1 = 0 then .committing else .idle) with
        outstanding := s.outstanding - 1
        committing := decide (s.outstanding - 1 = 0)
        ended := logged :: s.ended }) ∧ t.log = s.log := by
  rw [endOp] at hstep
  split at hstep
  · rename_i logged hphase
    dsimp only at hstep
    split at hstep
    · rename_i hcommitting
      cases hstep
      refine ⟨logged, hphase, fun hfalse ↦ ?_, rfl⟩
      rw [hfalse] at hcommitting
      cases hcommitting
    · rename_i hcommitting
      split at hstep
      · rename_i hlast
        cases hstep
        refine ⟨logged, hphase, fun _ ↦ ?_, rfl⟩
        rw [if_pos hlast, decide_eq_true hlast]
      · rename_i hmore
        cases hstep
        refine ⟨logged, hphase, fun hfalse ↦ ?_, rfl⟩
        rw [if_neg hmore, decide_eq_false hmore, ← hfalse]
        rfl
  · cases hstep

theorem commitDone_eq (hstep : s.commitDone i = some t) :
    s.phases i = .committed ∧ t = { s.move i .idle with committing := false } := by
  rw [commitDone] at hstep
  split at hstep
  · cases hstep
    exact ⟨by assumption, rfl⟩
  · cases hstep

end Moves

variable [Fintype ι]

/-- The blocks in the log. -/
def n (s : Admission ι) : ℕ := s.log.lh.n.toNat

/-- The operations in progress. -/
def active (s : Admission ι) : ℕ := tally Phase.opCount s.phases

/-- The blocks that operations in progress may still log if each may log `bound` blocks. -/
def left (bound : ℕ) (s : Admission ι) : ℕ := tally (Phase.left bound) s.phases

/-- The blocks that the operations begun since the last commit have logged, counted once for each
operation. -/
def logCount (s : Admission ι) : ℕ :=
  tally Phase.logCount s.phases + (s.ended.map Finset.card).sum

/-- No operation begun since the last commit has logged `MAXOPBLOCKS` blocks. -/
def NoneMaximal (s : Admission ι) : Prop :=
  (∀ i, (s.phases i).logCount < maxOpBlocks) ∧ ∀ logged ∈ s.ended, logged.card < maxOpBlocks

/-- How the blocks in the log stand to what the operations have logged. -/
structure Budget (s : Admission ι) : Prop where
  room : s.n + s.left maxOpBlocks ≤ logSize
  counted : s.n ≤ s.logCount
  spare : s.NoneMaximal → s.n + s.left (maxOpBlocks - 1) ≤ 28
  small : ∀ i, (s.phases i).demand ≤ maxOpBlocks
  recorded : ∀ i, (s.phases i).Recorded s.log.lh

/-- How commits exclude operations and each other. -/
structure Turns (s : Admission ι) : Prop where
  exclusive : s.committing = true → s.active = 0
  drained : s.committing = false → s.active = 0 → s.n = 0
  commits : ∀ i, s.Commits i → s.committing = true
  unique : ∀ i j, s.Commits i → s.Commits j → i = j
  cleared : ∀ i, s.phases i = .committed → s.n = 0

/-- The operations in progress are counted, and commits take their turns with them. -/
structure Counted (s : Admission ι) : Prop extends s.Turns where
  outstanding : s.outstanding.toNat = s.active
  few : s.active ≤ 3

/-- What holds in every state without a panic. -/
structure Sound (s : Admission ι) : Prop extends s.Budget, s.Counted where
  calm : s.panicked = none
  size : s.log.size = BitVec.ofNat 32 logSize

/-- As long as nobody commits, operations take their turns. -/
theorem Turns.of_not_commits (hcommitting : s.committing = false) (hnone : ∀ i, ¬ s.Commits i)
    (hdrained : s.active = 0 → s.n = 0) : s.Turns where
  exclusive htrue := by
    rw [hcommitting] at htrue
    cases htrue
  drained _ := hdrained
  commits i hi := absurd hi (hnone i)
  unique i _ hi := absurd hi (hnone i)
  cleared i hi := absurd (Or.inr hi) (hnone i)

theorem Boot.sound (h : s.Boot) : s.Sound := by
  have hzero (weight : Phase → ℕ) (hidle : weight .idle = 0) : tally weight s.phases = 0 := by
    rw [tally]
    apply sum_eq_zero
    intro i _
    rw [h.idle, hidle]
  have hn : s.n = 0 := by
    rw [n, h.empty]
    rfl
  have hactive : s.active = 0 := hzero opCount rfl
  have hbudget : s.Budget := by
    constructor
    case room =>
      rw [hn, left, hzero (Phase.left maxOpBlocks) rfl]
      decide
    case counted =>
      rw [hn]
      exact Nat.zero_le _
    case spare =>
      intro _
      rw [hn, left, hzero (Phase.left (maxOpBlocks - 1)) rfl]
      decide
    case small =>
      intro i
      rw [h.idle]
      exact Nat.zero_le _
    case recorded =>
      intro i
      rw [h.idle]
      exact recorded_idle s.log.lh
  have hturns : s.Turns := by
    apply Turns.of_not_commits h.committing
    · intro i
      rw [Commits, h.idle]
      simp
    · exact fun _ ↦ hn
  refine { hbudget, hturns with
    calm := h.panicked
    size := h.size
    outstanding := ?_
    few := ?_ }
  · rw [h.outstanding, hactive]
    rfl
  · rw [hactive]
    decide

section Steps

variable {logged : Finset Word} {b : Word}

/-- While an operation is in progress nobody commits. -/
theorem Turns.not_committing (h : s.Turns) (hi : (s.phases i).logged = some logged) :
    s.committing = false ∧ 0 < s.active := by
  have hpos : 0 < s.active := by
    have hle : (s.phases i).opCount ≤ s.active := le_tally opCount s.phases i
    rw [opCount, hi] at hle
    exact hle
  refine ⟨?_, hpos⟩
  by_contra hcommitting
  rw [not_eq_false] at hcommitting
  have hzero := h.exclusive hcommitting
  omega

theorem Turns.not_commits (h : s.Turns) (hi : (s.phases i).logged = some logged) (j : ι) :
    ¬ s.Commits j := by grind [h.commits, h.not_committing]

theorem left_le_active (bound : ℕ) (s : Admission ι) : s.left bound ≤ bound * s.active :=
  tally_le_mul (left_le bound)

/-- The reservation that `begin_op` has tested. -/
theorem reserve_of_not_full (hn : s.n ≤ 31) (houtstanding : s.outstanding.toNat = s.active)
    (hfew : s.active ≤ 3) (hfull : s.full = false) :
    s.n + (s.active + 1) * maxOpBlocks ≤ logSize := by
  have hsum : (s.log.lh.n + (s.outstanding + 1) * BitVec.ofNat 32 maxOpBlocks).toNat =
      s.n + (s.active + 1) * maxOpBlocks := by
    have hten : (BitVec.ofNat 32 maxOpBlocks).toNat = 10 := rfl
    have hone : (1 : Word).toNat = 1 := rfl
    have hten' : maxOpBlocks = 10 := rfl
    rw [toNat_add, toNat_mul, toNat_add, houtstanding, hten, hone, hten', n] at *
    omega
  rw [full, slt_of_small (by decide) (by rw [hsum, maxOpBlocks]; omega), decide_eq_false_iff_not,
    hsum] at hfull
  have hsize : (BitVec.ofNat 32 logSize).toNat = logSize := rfl
  omega

/-- `log_write` does not panic while the log holds at most 28 blocks. -/
theorem Sound.not_tooBig (h : s.Sound) (hn : s.n ≤ 28) : s.tooBig = false := by
  have hlast : (s.log.size - 1).toNat = 29 := by
    rw [h.size]
    rfl
  have hsize : (BitVec.ofNat 32 logSize).toNat = 30 := rfl
  have hnat : s.log.lh.n.toNat ≤ 28 := hn
  rw [tooBig, sle_of_small (by omega) (by omega), sle_of_small (by omega) (by omega), hlast, hsize,
    or_eq_false_iff, decide_eq_false_iff_not, decide_eq_false_iff_not]
  omega

/-- The condition under which the test of `log_write` passes: two reserved blocks are left, or the
operations begun since the last commit have logged at most 28 blocks, or none of them has logged
`MAXOPBLOCKS` blocks. -/
def RoomToLog (s : Admission ι) : Prop :=
  2 ≤ s.left maxOpBlocks ∨ s.logCount ≤ 28 ∨ s.NoneMaximal

theorem Sound.n_le_of_roomToLog (h : s.Sound) (hroom : s.RoomToLog) : s.n ≤ 28 := by
  rcases hroom with hleft | hcount | hnone
  · have hbound := h.room
    rw [logSize] at hbound
    omega
  · exact le_trans h.counted hcount
  · exact le_trans (Nat.le_add_right _ _) (h.spare hnone)

variable [DecidableEq ι]

theorem tally_move (weight : Phase → ℕ) (next : Phase) :
    tally weight (s.move i next).phases + weight (s.phases i) =
      tally weight s.phases + weight next :=
  tally_update i next

theorem tally_begin (hidle : s.phases i = .idle) (weight : Phase → ℕ) (hzero : weight .idle = 0) :
    tally weight (s.move i (.active ∅)).phases = tally weight s.phases + weight (.active ∅) := by
  grind [tally_move]

/-- `begin_op` counts one operation more. -/
theorem Counted.beginOp (h : s.Counted) (hn : s.n ≤ 31) (hidle : s.phases i = .idle)
    (hcommitting : s.committing = false) (hfull : s.full = false) :
    ({ s.move i (.active ∅) with outstanding := s.outstanding + 1 } : Admission ι).Counted := by
  have hreserve := reserve_of_not_full hn h.outstanding h.few hfull
  rw [maxOpBlocks, logSize] at hreserve
  have hactive : (s.move i (.active ∅)).active = s.active + 1 := tally_begin hidle opCount rfl
  have hnone (j : ι) : ¬ (s.move i (.active ∅)).Commits j := by
    intro hj
    have htrue := h.commits j (commits_of_move (by simp) hj)
    rw [hcommitting] at htrue
    cases htrue
  refine ⟨.of_not_commits hcommitting hnone fun hzero ↦ ?_, ?_, ?_⟩
  · change (s.move i (.active ∅)).active = 0 at hzero
    omega
  · change (s.outstanding + 1).toNat = (s.move i (.active ∅)).active
    have hone : (1 : Word).toNat = 1 := rfl
    rw [hactive, toNat_add, h.outstanding]
    omega
  · change (s.move i (.active ∅)).active ≤ 3
    omega

/-- `begin_op` reserves `MAXOPBLOCKS` blocks. -/
theorem Sound.beginOp (h : s.Sound) (hstep : s.beginOp i = some t) : t.Sound := by
  obtain ⟨hidle, hcommitting, hfull, rfl⟩ := beginOp_eq hstep
  have hn : s.n ≤ 30 := le_trans (Nat.le_add_right _ _) h.room
  have hreserve := reserve_of_not_full (by omega) h.outstanding h.few hfull
  have hcounted := h.toCounted.beginOp (by omega) hidle hcommitting hfull
  have hbudget : (s.move i (.active ∅)).Budget := by
    constructor
    case room =>
      have hleft := left_le_active maxOpBlocks s
      have hnew : (s.move i (.active ∅)).left maxOpBlocks = s.left maxOpBlocks + maxOpBlocks :=
        tally_begin hidle (Phase.left maxOpBlocks) rfl
      change s.n + _ ≤ _
      rw [hnew]
      rw [maxOpBlocks, logSize] at *
      omega
    case counted =>
      have hnew : (s.move i (.active ∅)).logCount = s.logCount := by
        have hsame := tally_begin hidle Phase.logCount rfl
        change _ = _ + 0 at hsame
        rw [logCount, hsame]
        rfl
      rw [hnew]
      exact h.counted
    case spare =>
      -- with another operation in progress the log holds at most 10 blocks, without one it is empty
      intro _
      have hleft := left_le_active (maxOpBlocks - 1) s
      have hnew : (s.move i (.active ∅)).left (maxOpBlocks - 1) =
          s.left (maxOpBlocks - 1) + (maxOpBlocks - 1) :=
        tally_begin hidle (Phase.left (maxOpBlocks - 1)) rfl
      have hdrained := h.drained hcommitting
      change s.n + _ ≤ _
      rw [hnew]
      rw [maxOpBlocks, logSize] at *
      omega
    case small =>
      exact forall_move (P := fun phase ↦ phase.demand ≤ maxOpBlocks) h.small (Nat.zero_le _)
    case recorded =>
      apply forall_move (P := fun phase ↦ phase.Recorded s.log.lh) h.recorded
      intro logged hlogged b hb
      cases hlogged
      exact absurd hb (notMem_empty b)
  exact { hbudget, hcounted with
    calm := h.calm
    size := h.size }

theorem tally_move_of_eq {weight : Phase → ℕ} (h : weight next = weight (s.phases i)) :
    tally weight (s.move i next).phases = tally weight s.phases := by
  have hmove := tally_move (s := s) (i := i) weight next
  omega

/-- A move that leaves what the process has logged as it is. -/
theorem Sound.budget_move (h : s.Sound) (hlogged : next.logged = (s.phases i).logged)
    (hdemand : next.demand ≤ maxOpBlocks) : (s.move i next).Budget := by
  have hleft (bound : ℕ) : (s.move i next).left bound = s.left bound := by
    apply tally_move_of_eq
    rw [Phase.left, hlogged]
    rfl
  have hcount : next.logCount = (s.phases i).logCount := by
    rw [Phase.logCount, hlogged]
    rfl
  constructor
  case room =>
    rw [hleft]
    exact h.room
  case counted =>
    rw [logCount, tally_move_of_eq hcount]
    exact h.counted
  case spare =>
    intro hnone
    rw [hleft]
    exact h.spare ⟨logCount_lt_of_move hcount.ge hnone.1, hnone.2⟩
  case small => exact forall_move (P := fun phase ↦ phase.demand ≤ maxOpBlocks) h.small hdemand
  case recorded =>
    apply forall_move (P := fun phase ↦ phase.Recorded s.log.lh) h.recorded
    intro logged hsome
    exact h.recorded i logged (hlogged ▸ hsome)

theorem active_move (hlogged : next.logged = (s.phases i).logged) :
    (s.move i next).active = s.active := by
  apply tally_move_of_eq
  rw [opCount, hlogged]
  rfl

/-- After a move of an operation in progress that is none to commit, nobody commits. -/
theorem Turns.turns_move (h : s.Turns) (hi : (s.phases i).logged = some logged) (next : Phase)
    (hnext : ¬ (next = .committing ∨ next = .committed)) (hphases : t.phases = (s.move i next).phases)
    (hcommitting : t.committing = s.committing) (hactive : 0 < t.active) : t.Turns := by
  apply Turns.of_not_commits
  · rw [hcommitting]
    exact (h.not_committing hi).1
  · intro j hj
    rw [Commits, hphases] at hj
    exact h.not_commits hi j (commits_of_move hnext hj)
  · intro hzero
    omega

/-- A move of an operation that stays in progress. -/
theorem Counted.goOn {log : State} (h : s.Counted) (hi : (s.phases i).logged = some logged)
    (hnext : next.opCount = 1) : { s.move i next with log := log }.Counted := by
  have hactive : (s.move i next).active = s.active := by
    apply tally_move_of_eq
    rw [hnext, opCount, hi]
    rfl
  have hpos : 0 < (s.move i next).active := hactive ▸ (h.not_committing hi).2
  refine ⟨h.turns_move hi next ?_ rfl rfl hpos, h.outstanding.trans hactive.symm,
    hactive.trans_le h.few⟩
  rintro (rfl | rfl) <;> cases hnext

theorem Sound.logTest (h : s.Sound) (hroom : s.RoomToLog) (hstep : s.logTest i b = some t) :
    t.Sound := by
  rw [Admission.logTest] at hstep
  split at hstep
  case h_2 => cases hstep
  rename_i logged hphase
  have hi : (s.phases i).logged = some logged := by rw [hphase]; rfl
  have hbig := h.not_tooBig (h.n_le_of_roomToLog hroom)
  have hinside : s.outstanding.slt 1 = false := by
    grind [h.not_committing, h.few, slt_of_small, h.outstanding]
  rw [hbig, hinside] at hstep
  split at hstep
  · cases hstep
  rename_i hlimit
  cases hstep
  have hlogged : (writing logged b).logged = (s.phases i).logged := by rw [hi]; rfl
  have hbudget := h.budget_move hlogged (Nat.not_lt.mp hlimit)
  have hcounted : (s.move i (.writing logged b)).Counted := h.toCounted.goOn hi rfl
  exact { hbudget, hcounted with
    calm := h.calm
    size := h.size }

/-- What an operation gains by logging a block. -/
theorem card_insert_bounds (logged : Finset Word) (b : Word) :
    logged.card ≤ (insert b logged).card ∧ (insert b logged).card ≤ logged.card + 1 :=
  ⟨card_le_card (subset_insert b logged), card_insert_le b logged⟩

omit [Fintype ι] in
/-- A block is entered: what the operations have logged is in the log. -/
theorem recorded_enter (h : ∀ j, (s.phases j).Recorded s.log.lh)
    (hi : (s.phases i).logged = some logged) (hn : s.log.lh.n.toNat < 2 ^ 30) (j : ι) :
    ((s.move i (.active (insert b logged))).phases j).Recorded (s.log.lh.logWrite b) := by
  obtain ⟨hnew, hkept⟩ := LogHeader.holds_logWrite (b := b) hn
  apply forall_move (P := fun phase ↦ phase.Recorded (s.log.lh.logWrite b))
  · exact fun j l hl c hc ↦ hkept c (h j l hl c hc)
  · intro l hl c hc
    cases hl
    rcases mem_insert.mp hc with rfl | hold
    · exact hnew
    · exact hkept c (h i logged hi c hold)

theorem Sound.logEnter (h : s.Sound) (hstep : s.logEnter i = some t) : t.Sound := by
  obtain ⟨logged, b, hphase, rfl⟩ := logEnter_eq hstep
  have hi : (s.phases i).logged = some logged := by rw [hphase]; rfl
  have hn : s.n ≤ 30 := le_trans (Nat.le_add_right _ _) h.room
  have hsmall : s.log.lh.n.toNat < 2 ^ 30 := lt_of_le_of_lt hn (by decide)
  have hrecorded := recorded_enter (b := b) h.recorded hi hsmall
  have hlimit : (insert b logged).card ≤ maxOpBlocks := by
    have hsmall := h.small i
    rw [hphase] at hsmall
    exact hsmall
  obtain ⟨hgrows, hbound⟩ := card_insert_bounds logged b
  have hmove (weight : Phase → ℕ) :
      tally weight (s.move i (.active (insert b logged))).phases + weight (.writing logged b) =
        tally weight s.phases + weight (.active (insert b logged)) := by
    rw [← hphase]
    exact tally_move weight (.active (insert b logged))
  have hleft (bound : ℕ) : (s.move i (.active (insert b logged))).left bound + (bound - logged.card) =
      s.left bound + (bound - (insert b logged).card) := hmove (Phase.left bound)
  have hcount : (s.move i (.active (insert b logged))).logCount + logged.card =
      s.logCount + (insert b logged).card := by
    have hlogs : _ + logged.card = _ + (insert b logged).card := hmove Phase.logCount
    rw [logCount, logCount]
    change _ + (s.ended.map card).sum + _ = _
    omega
  -- an absorbed block leaves the log as it is; a new one is new for the operation too
  have hentered : (s.log.lh.logWrite b).n.toNat = s.n ∨
      ((s.log.lh.logWrite b).n.toNat = s.n + 1 ∧ (insert b logged).card = logged.card + 1) := by
    by_cases hholds : s.log.lh.Holds b
    · rw [LogHeader.logWrite_of_holds (by omega) hholds]
      exact .inl rfl
    · rw [LogHeader.logWrite_of_not_holds (by omega) hholds]
      refine .inr ⟨LogHeader.toNat_succ hsmall, ?_⟩
      apply card_insert_of_notMem
      intro hb
      exact hholds (h.recorded i logged hi b hb)
  generalize hentry : s.log.lh.logWrite b = lh at *
  have hroom := h.room
  have hcounted := h.counted
  have hcounted : ({ s.move i (.active (insert b logged)) with
      log := { s.log with lh := lh } } : Admission ι).Counted := h.toCounted.goOn hi rfl
  refine { hcounted with
    toBudget := ?budget
    calm := h.calm
    size := h.size }
  case budget =>
    constructor
    case room =>
      have hten := hleft maxOpBlocks
      change lh.n.toNat + (s.move i (.active (insert b logged))).left maxOpBlocks ≤ logSize
      omega
    case counted =>
      change lh.n.toNat ≤ (s.move i (.active (insert b logged))).logCount
      omega
    case spare =>
      intro hnone
      have hnine := hleft (maxOpBlocks - 1)
      have hmaximal : (insert b logged).card < maxOpBlocks := by
        have hlast := hnone.1 i
        change ((s.move i (.active (insert b logged))).phases i).logCount < _ at hlast
        rw [phases_move_self] at hlast
        exact hlast
      have hspare := h.spare ⟨logCount_lt_of_move (by rw [hphase]; exact hgrows) hnone.1, hnone.2⟩
      change lh.n.toNat + (s.move i (.active (insert b logged))).left (maxOpBlocks - 1) ≤ 28
      rw [maxOpBlocks] at *
      omega
    case small =>
      exact forall_move (P := fun phase ↦ phase.demand ≤ maxOpBlocks) h.small hlimit
    case recorded => exact hrecorded

/-- What the log accounts for when an operation that has logged `logged` ends. -/
theorem Sound.budget_end (h : s.Sound) (hphase : s.phases i = .active logged)
    (hnext : next.logged = none) (hdemand : next.demand = 0) :
    { s.move i next with ended := logged :: s.ended }.Budget := by
  have hweight (weight : Phase → ℕ) (hzero : weight next = 0) :
      tally weight (s.move i next).phases + weight (.active logged) = tally weight s.phases := by
    rw [← hphase, tally_move, hzero, Nat.add_zero]
  have hleft (bound : ℕ) : (s.move i next).left bound ≤ s.left bound := by
    have hzero : Phase.left bound next = 0 := by rw [Phase.left, hnext]; rfl
    exact Nat.le.intro (hweight (Phase.left bound) hzero)
  have hlogs : tally Phase.logCount (s.move i next).phases + logged.card =
      tally Phase.logCount s.phases := by
    apply hweight Phase.logCount
    rw [Phase.logCount, hnext]
    rfl
  constructor
  case room => exact le_trans (Nat.add_le_add_left (hleft maxOpBlocks) s.n) h.room
  case counted =>
    have hcounted := h.counted
    change s.n ≤ tally Phase.logCount (s.move i next).phases +
      ((logged :: s.ended).map card).sum
    rw [logCount] at hcounted
    rw [List.map_cons, List.sum_cons]
    omega
  case spare =>
    intro hnone
    have hold : s.NoneMaximal := by
      refine ⟨fun j ↦ ?_, fun l hl ↦ hnone.2 l (List.mem_cons_of_mem logged hl)⟩
      by_cases hji : j = i
      · rw [hji, hphase]
        exact hnone.2 logged List.mem_cons_self
      · have hj := hnone.1 j
        change ((s.move i next).phases j).logCount < _ at hj
        rwa [phases_move_of_ne s next hji] at hj
    exact le_trans (Nat.add_le_add_left (hleft (maxOpBlocks - 1)) s.n) (h.spare hold)
  case small =>
    apply forall_move (P := fun phase ↦ phase.demand ≤ maxOpBlocks) h.small
    rw [hdemand]
    exact Nat.zero_le _
  case recorded =>
    apply forall_move (P := fun phase ↦ phase.Recorded s.log.lh) h.recorded
    intro l hl
    rw [hnext] at hl
    cases hl

/-- An operation that ends is no longer in progress. -/
theorem active_end (hphase : s.phases i = .active logged) (next : Phase) (hnext : next.logged = none) :
    (s.move i next).active + 1 = s.active := by
  have hmove := tally_move (s := s) (i := i) opCount next
  have hzero : next.opCount = 0 := by rw [opCount, hnext]; rfl
  rw [hphase, hzero] at hmove
  exact hmove

omit [DecidableEq ι] in
/-- `log.outstanding -= 1` does not wrap around. -/
theorem toNat_outstanding_sub_one (houtstanding : s.outstanding.toNat = s.active) (hfew : s.active ≤ 3)
    (hpos : 0 < s.active) : (s.outstanding - 1).toNat + 1 = s.active := by
  have hone : (1 : Word).toNat = 1 := rfl
  rw [toNat_sub, houtstanding, hone]
  omega

/-- The last operation in progress ends: its process commits. -/
theorem Turns.start_commit (h : s.Turns) (hi : (s.phases i).logged = some logged)
    (hphases : t.phases = (s.move i .committing).phases) (hcommitting : t.committing = true)
    (hzero : t.active = 0) : t.Turns := by
  have hself {j : ι} (hj : t.Commits j) : j = i := by
    by_contra hji
    rw [Commits, hphases, phases_move_of_ne s _ hji] at hj
    exact h.not_commits hi j hj
  constructor
  case exclusive => exact fun _ ↦ hzero
  case drained =>
    intro hfalse
    rw [hcommitting] at hfalse
    cases hfalse
  case commits => exact fun _ _ ↦ hcommitting
  case unique => exact fun j k hj hk ↦ (hself hj).trans (hself hk).symm
  case cleared =>
    intro j hj
    have hji : j = i := hself (.inr hj)
    rw [hphases, hji, phases_move_self] at hj
    cases hj

/-- `end_op` counts one operation less; the last one commits. -/
theorem Counted.endOp (h : s.Counted) (hphase : s.phases i = .active logged) :
    ({ s.move i (if s.outstanding - 1 = 0 then .committing else .idle) with
        outstanding := s.outstanding - 1
        committing := decide (s.outstanding - 1 = 0)
        ended := logged :: s.ended } : Admission ι).Counted := by
  have hi : (s.phases i).logged = some logged := by rw [hphase]; rfl
  obtain ⟨hcommitting, hpos⟩ := h.not_committing hi
  have houtstanding := toNat_outstanding_sub_one h.outstanding h.few hpos
  have hfew := h.few
  have hnow := active_end hphase (if s.outstanding - 1 = 0 then .committing else .idle)
    (by split <;> rfl)
  refine ⟨?_, ?_, ?_⟩
  · by_cases hlast : s.outstanding - 1 = 0
    · simp only [if_pos hlast, decide_eq_true hlast] at hnow ⊢
      refine h.start_commit hi rfl rfl ?_
      rw [hlast] at houtstanding
      change 0 + 1 = _ at houtstanding
      change (s.move i .committing).active = 0
      omega
    · simp only [if_neg hlast, decide_eq_false hlast] at hnow ⊢
      refine h.turns_move hi .idle (by simp) rfl hcommitting.symm (Nat.pos_of_ne_zero fun hzero ↦ ?_)
      change (s.move i .idle).active = 0 at hzero
      refine hlast (eq_of_toNat_eq ?_)
      change _ = 0
      omega
  · change (s.outstanding - 1).toNat = (s.move i _).active
    omega
  · change (s.move i _).active ≤ 3
    omega

theorem Sound.endOp (h : s.Sound) (hstep : s.endOp i = some t) : t.Sound := by
  obtain ⟨logged, hphase, heq, _⟩ := endOp_eq hstep
  have hi : (s.phases i).logged = some logged := by rw [hphase]; rfl
  obtain rfl := heq (h.not_committing hi).1
  exact { h.toCounted.endOp hphase with
    toBudget := { h.budget_end hphase (by split <;> rfl) (by split <;> rfl) with }
    calm := h.calm
    size := h.size }

/-- `commit()` has left the log empty and returns. -/
theorem Counted.committed (h : s.Counted) (hphase : s.phases i = .committing) {log : State}
    (hempty : log.lh.n.toNat = 0) : { s.move i .committed with log := log }.Counted := by
  have hactive : (s.move i .committed).active = s.active := active_move (by rw [hphase]; rfl)
  have hcommitting := h.commits i (.inl hphase)
  have hself {j : ι} (hj : (s.move i .committed).Commits j) : j = i := by
    by_contra hji
    rw [Commits, phases_move_of_ne s _ hji] at hj
    exact hji (h.unique j i hj (.inl hphase))
  exact {
    exclusive := fun _ ↦ hactive.trans (h.exclusive hcommitting)
    drained := fun _ _ ↦ hempty
    commits := fun _ _ ↦ hcommitting
    unique := fun j k hj hk ↦ (hself hj).trans (hself hk).symm
    cleared := fun _ _ ↦ hempty
    outstanding := h.outstanding.trans hactive.symm
    few := hactive.trans_le h.few }

theorem Sound.commit (h : s.Sound) (hstep : s.commit i = some t) : t.Sound := by
  rw [Admission.commit] at hstep
  split at hstep
  case h_2 => cases hstep
  rename_i hphase
  cases hstep
  have hidle := h.exclusive (h.commits i (.inl hphase))
  have hn : s.n ≤ 30 := le_trans (Nat.le_add_right _ _) h.room
  obtain ⟨hempty, hsize⟩ := commit_log (s := s.log) (by rw [n] at hn; omega)
  have hzero : s.log.commit.lh.n.toNat = 0 := by
    rw [hempty]
    rfl
  have hleft (bound : ℕ) : (s.move i .committed).left bound = 0 := by
    have hle := left_le_active bound (s.move i .committed)
    rw [active_move (by rw [hphase]; rfl), hidle] at hle
    omega
  refine { h.toCounted.committed hphase hzero with
    toBudget := ?budget
    calm := h.calm
    size := hsize.trans h.size }
  case budget =>
    constructor
    case room =>
      change s.log.commit.lh.n.toNat + (s.move i .committed).left maxOpBlocks ≤ logSize
      rw [hzero, hleft]
      decide
    case counted =>
      change s.log.commit.lh.n.toNat ≤ _
      rw [hzero]
      exact Nat.zero_le _
    case spare =>
      intro _
      change s.log.commit.lh.n.toNat + (s.move i .committed).left (maxOpBlocks - 1) ≤ 28
      rw [hzero, hleft]
      decide
    case small =>
      exact forall_move (P := fun phase ↦ phase.demand ≤ maxOpBlocks) h.small (Nat.zero_le _)
    case recorded =>
      apply forall_move (P := fun phase ↦ phase.Recorded s.log.commit.lh)
      · intro j logged hlogged
        have hpos := (h.not_committing hlogged).2
        omega
      · intro logged hlogged
        cases hlogged

/-- The committing process is done. -/
theorem Counted.commitDone (h : s.Counted) (hphase : s.phases i = .committed) :
    ({ s.move i .idle with committing := false } : Admission ι).Counted := by
  have hactive : (s.move i .idle).active = s.active := active_move (by rw [hphase]; rfl)
  have hnone (j : ι) : ¬ (s.move i .idle).Commits j := by
    intro hj
    have hold : s.Commits j := commits_of_move (by simp) hj
    rw [Commits, h.unique j i hold (.inr hphase), phases_move_self] at hj
    simp at hj
  exact ⟨.of_not_commits rfl hnone fun _ ↦ h.cleared i hphase, h.outstanding.trans hactive.symm,
    hactive.trans_le h.few⟩

theorem Sound.commitDone (h : s.Sound) (hstep : s.commitDone i = some t) : t.Sound := by
  obtain ⟨hphase, rfl⟩ := commitDone_eq hstep
  have hlogged : idle.logged = (s.phases i).logged := by rw [hphase]; rfl
  have hbudget := h.budget_move hlogged (Nat.zero_le _)
  exact { hbudget, h.toCounted.commitDone hphase with
    calm := h.calm
    size := h.size }

/-- The condition on the next step. -/
def KeepsRoom (s : Admission ι) : Act ι → Prop
  | .logTest _ _ => s.RoomToLog
  | _ => True

instance (s : Admission ι) (a : Act ι) : Decidable (s.KeepsRoom a) :=
  match a with
  | .logTest _ _ => inferInstanceAs (Decidable (_ ∨ _ ∨ _ ∧ _))
  | .beginOp _ | .logEnter _ | .endOp _ | .commit _ | .commitDone _ => isTrue trivial

theorem Sound.step (h : s.Sound) {a : Act ι} (hroom : s.KeepsRoom a) (hstep : s.step a = some t) :
    t.Sound := by
  unfold Admission.step at hstep
  rw [h.calm] at hstep
  cases a with
  | beginOp i => exact h.beginOp hstep
  | logTest i b => exact h.logTest hroom hstep
  | logEnter i => exact h.logEnter hstep
  | endOp i => exact h.endOp hstep
  | commit i => exact h.commit hstep
  | commitDone i => exact h.commitDone hstep

end Steps

end Admission

/-- **Admission keeps the log within bounds.**  In every interleaving of operations that log at most
`MAXOPBLOCKS` blocks each, and that all meet the condition when they log a block, no panic of
`log_write` or `end_op` is reached. -/
theorem log_never_too_big {ι : Type} [DecidableEq ι] [Fintype ι] {s₀ s : Admission ι}
    (hboot : s₀.Boot) (hrun : Runs.Reaches Admission.step Admission.KeepsRoom s₀ s) :
    s.panicked = none := by
  have hsound : s.Sound :=
    hrun.invariant hboot.sound fun _ _ _ h hroom hstep ↦ h.step hroom hstep
  exact hsound.calm

/-- An empty log of `LOGSIZE` blocks and idle processes. -/
def emptyLog (ι : Type) : Admission ι where
  log :=
    { disk := fun _ _ ↦ 0
      cache := fun _ _ ↦ 0
      start := 2
      size := BitVec.ofNat 32 logSize
      lh := { n := 0, block := fun _ ↦ 0 }
      writes := [] }
  outstanding := 0
  committing := false
  phases _ := .idle
  ended := []
  panicked := none

theorem emptyLog_boot (ι : Type) : (emptyLog ι).Boot :=
  ⟨rfl, rfl, rfl, rfl, fun _ ↦ rfl, rfl, rfl⟩

/-- Two operations log the same block, and the last one to end commits. -/
theorem log_never_too_big_shared_block :
    ∃ s, Runs.runIf Admission.step Admission.KeepsRoom
        [.beginOp 0, .beginOp 1, .logTest 0 40, .logTest 1 40, .logEnter 1, .logEnter 0, .endOp 0,
          .endOp 1, .commit 1, .commitDone 1] (emptyLog (Fin 2)) = some s ∧ s.panicked = none := by
  refine Runs.exists_runIf (F := fun _ ↦ True) (by decide +kernel) fun s hs _ ↦ ?_
  exact log_never_too_big (emptyLog_boot (Fin 2)) hs

/-- Three operations, each with `MAXOPBLOCKS` blocks of its own: the last block panics. -/
theorem log_too_big_three_operations :
    ∃ s₀ s : Admission (Fin 3), s₀.Boot ∧ Runs.Reaches Admission.step Runs.unguarded s₀ s ∧
      s.panicked = some .tooBigATransaction := by
  obtain ⟨s, hs, hpanic⟩ : ∃ s ∈ Runs.run Admission.step
      ([.beginOp 0, .beginOp 1, .beginOp 2] ++
        (List.range 29).flatMap (fun k ↦
          [.logTest (Fin.ofNat 3 k) (BitVec.ofNat 32 (40 + k)), .logEnter (Fin.ofNat 3 k)]) ++
        [.logTest 2 69]) (emptyLog (Fin 3)), s.panicked = some .tooBigATransaction := by
    decide +kernel
  exact ⟨emptyLog (Fin 3), s, emptyLog_boot (Fin 3), Runs.reaches_of_run hs, hpanic⟩

end Xv6Mmap.Log
