import Xv6Mmap.Log.AdmissionBounds

/-!
# Group commit

The processes of `Admission` again, with three differences.  An operation may log any number of
blocks, and `commit()` runs without the lock, in five pieces: `write_log`, `write_head`,
`install_trans`, `log.lh.n = 0` and `write_head`.  `commits` records each header that reaches the
disk, together with what the operations that have ended since the one before have logged.  And
`log_write` is called with a buffer from `bread`, so the state has the buffers as the log sees them.

While a process commits no operation is in progress and none begins, so the blocks of an operation
all go into one header.  The test of `log_write` is made before it takes the lock, and three
operations that make it together, with 28 blocks in the log, would enter a block past the `LOGSIZE`
entries of `lh.block`.  It is the buffer cache that keeps them from it: a buffer that is logged is
dirty until its block is installed, `bget` does not recycle it, and there are `NBUF = LOGSIZE`
buffers.
-/

namespace Xv6Mmap.Log

open Library Phase Finset
open Function (update update_self update_of_ne)
open Option (map_eq_some_iff)

/-! ## The model -/

/-- How far `commit()` has come. -/
inductive CommitPoint where
  | entered
  | copied
  | headed
  | installed
  | cleared
  deriving DecidableEq

/-- The entries that `write_head` writes. -/
def LogHeader.entries (lh : LogHeader) : List Word :=
  (List.range lh.n.count).map lh.block

/-- A header that has been written, and what the operations that it commits have logged. -/
structure Transaction where
  header : List Word
  operations : List (Finset Word)

/-- What the log sees of a buffer: its block, the process that has its lock, and `B_DIRTY`. -/
structure LogBuf (ι : Type) where
  block : Option Word
  holder : Option ι
  dirty : Bool

/-- The test of `bget` on a buffer to recycle. -/
def LogBuf.unused {ι : Type} (buf : LogBuf ι) : Bool := buf.holder.isNone && !buf.dirty

/-- The process is in `log_write`, in `commit()` or behind it. -/
def Phase.busy : Phase → Bool
  | .idle => false
  | .active _ => false
  | _ => true

structure GroupLog (ι : Type) extends Admission ι where
  point : CommitPoint
  commits : List Transaction
  bufs : Fin nBuf → LogBuf ι
  /-- `bget` has panicked. -/
  noBuffers : Bool

/-- `bread` comes with the buffer that is recycled if the block is in none. -/
inductive GroupAct (ι : Type) where
  | bread (i : ι) (blockno : Word) (k : Fin nBuf)
  | brelse (i : ι) (k : Fin nBuf)
  | log (a : Act ι)

namespace GroupLog

variable {ι : Type} [DecidableEq ι]

def setBuf (s : GroupLog ι) (k : Fin nBuf) (buf : LogBuf ι) : GroupLog ι :=
  { s with bufs := update s.bufs k buf }

/-- Process `i` has the lock of buffer `k`, which is for block `blockno`. -/
def has (s : GroupLog ι) (i : ι) (blockno : Word) (k : Fin nBuf) : Bool :=
  (s.bufs k).block == some blockno && (s.bufs k).holder == some i

def cached (s : GroupLog ι) (blockno : Word) : Option (Fin nBuf) :=
  (List.finRange nBuf).find? fun k ↦ (s.bufs k).block == some blockno

def bread (s : GroupLog ι) (i : ι) (blockno : Word) (k : Fin nBuf) : Option (GroupLog ι) :=
  if (s.phases i).busy then none
  else match s.cached blockno with
    | some j =>
      -- `acquiresleep`: a process that finds the buffer locked stays where it is
      if (s.bufs j).holder.isSome then none
      else some (s.setBuf j { s.bufs j with holder := some i })
    | none =>
      if (s.bufs k).unused then some (s.setBuf k ⟨some blockno, some i, false⟩)
      else if (List.finRange nBuf).any fun j ↦ (s.bufs j).unused then none
      else some { s with noBuffers := true }

def brelse (s : GroupLog ι) (i : ι) (k : Fin nBuf) : Option (GroupLog ι) :=
  if (s.phases i).busy then none
  else if (s.bufs k).holder == some i then some (s.setBuf k { s.bufs k with holder := none })
  else none

/-- The buffers after `log_write`: the one that it is called with is dirty. -/
def pin (s : GroupLog ι) (i : ι) (k : Fin nBuf) : LogBuf ι :=
  match s.phases i with
  | .writing _ blockno => { s.bufs k with dirty := (s.bufs k).dirty || s.has i blockno k }
  | _ => s.bufs k

/-- The buffers after `install_trans`: `bwrite` has written those of the blocks in the log. -/
def unpin (s : GroupLog ι) (k : Fin nBuf) : LogBuf ι :=
  { s.bufs k with
    dirty := (s.bufs k).dirty && !s.log.lh.entries.any fun b ↦ (s.bufs k).block == some b }

/-- The tests of `log_write`, which is called with the lock of the buffer, without a limit on what an
operation logs. -/
def logTest (s : GroupLog ι) (i : ι) (blockno : Word) : Option (Admission ι) :=
  match s.phases i with
  | .active logged =>
    if !(List.finRange nBuf).any (s.has i blockno) then none
    else if s.tooBig then some { s.toAdmission with panicked := some .tooBigATransaction }
    else if s.outstanding.slt 1 then
      some { s.toAdmission with panicked := some .logWriteOutsideOfTrans }
    else some (s.move i (.writing logged blockno))
  | _ => none

/-- The header as it stands is committed, with the operations that have ended. -/
def record (s : GroupLog ι) : GroupLog ι :=
  { s with
    commits := s.commits ++ [⟨s.log.lh.entries, s.ended⟩]
    ended := [] }

/-- The committing process goes on to `point` with the log as given. -/
def goto (s : GroupLog ι) (point : CommitPoint) (log : State) : GroupLog ι :=
  { s with
    log := log
    point := point }

/-- The next piece of `commit()`. -/
def commit (s : GroupLog ι) (i : ι) : Option (GroupLog ι) :=
  match s.phases i with
  | .committing =>
    match s.point with
    | .entered =>
      if 0 < s.log.lh.n.toInt then some (s.goto .copied s.log.writeLog)
      else some { s.record with toAdmission := s.record.move i .committed }
    | .copied => some (s.record.goto .headed s.log.writeHead)
    | .headed => some { s.goto .installed s.log.installTrans with bufs := s.unpin }
    | .installed => some (s.goto .cleared s.log.clearHead)
    | .cleared =>
      let t := s.goto .entered s.log.writeHead
      some { t with toAdmission := t.move i .committed }
  | _ => none

/-- The steps of the log. -/
def logStep (s : GroupLog ι) : Act ι → Option (GroupLog ι)
  | .beginOp i => (s.beginOp i).map fun t ↦ { s with toAdmission := t }
  | .logTest i blockno => (s.logTest i blockno).map fun t ↦ { s with toAdmission := t }
  | .logEnter i => (s.logEnter i).map fun t ↦ { s with toAdmission := t, bufs := s.pin i }
  | .endOp i => (s.endOp i).map fun t ↦ { s with toAdmission := t }
  | .commit i => s.commit i
  | .commitDone i => (s.commitDone i).map fun t ↦ { s with toAdmission := t }

/-- One step of the system; none after a panic. -/
def step (s : GroupLog ι) (a : GroupAct ι) : Option (GroupLog ι) :=
  if s.panicked.isSome || s.noBuffers then none
  else match a with
    | .bread i blockno k => s.bread i blockno k
    | .brelse i k => s.brelse i k
    | .log a => s.logStep a

/-- After `initlog`. -/
structure Boot (s : GroupLog ι) : Prop where
  admission : s.toAdmission.Boot
  point : s.point = .entered
  commits : s.commits = []

end GroupLog

/-! ## The header -/

namespace LogHeader

variable {lh : LogHeader} {b : Word}

/-- No block is twice in the log. -/
def Distinct (lh : LogHeader) : Prop :=
  ∀ j < lh.n.toNat, ∀ k < lh.n.toNat, lh.block j = lh.block k → j = k

theorem Distinct.logWrite (h : lh.Distinct) (hn : lh.n.toNat < 2 ^ 30) :
    (lh.logWrite b).Distinct := by
  by_cases hholds : lh.Holds b
  · rw [logWrite_of_holds (by omega) hholds]
    exact h
  · rw [logWrite_of_not_holds (by omega) hholds]
    have hsucc := toNat_succ hn
    have hnew (j : ℕ) (hj : j < lh.n.toNat) :
        Function.update lh.block lh.n.toNat b j = lh.block j ∧ lh.block j ≠ b :=
      ⟨Function.update_of_ne (by omega) .., fun hblock ↦ hholds ⟨j, hj, hblock⟩⟩
    intro j hj k hk hequal
    dsimp only at hj hk hequal
    rw [hsucc] at hj hk
    rcases Nat.lt_succ_iff_lt_or_eq.mp hj with hj | rfl
    · rw [(hnew j hj).1] at hequal
      rcases Nat.lt_succ_iff_lt_or_eq.mp hk with hk | rfl
      · rw [(hnew k hk).1] at hequal
        exact h j hj k hk hequal
      · rw [Function.update_self] at hequal
        exact absurd hequal (hnew j hj).2
    · grind

/-- The log grows by at most one block, and by none that it holds. -/
theorem n_logWrite (hn : lh.n.toNat < 2 ^ 30) :
    (lh.Holds b → (lh.logWrite b).n.toNat = lh.n.toNat) ∧
      (lh.logWrite b).n.toNat ≤ lh.n.toNat + 1 := by
  by_cases hholds : lh.Holds b
  · rw [logWrite_of_holds (by omega) hholds]
    exact ⟨fun _ ↦ rfl, Nat.le_succ _⟩
  · rw [logWrite_of_not_holds (by omega) hholds]
    exact ⟨fun h ↦ absurd h hholds, (toNat_succ hn).le⟩

theorem holds_of_logWrite {c : Word} (hn : lh.n.toNat < 2 ^ 30) (h : (lh.logWrite b).Holds c) :
    b = c ∨ lh.Holds c := by
  by_cases hholds : lh.Holds b
  · rw [logWrite_of_holds (by omega) hholds] at h
    exact .inr h
  · rw [logWrite_of_not_holds (by omega) hholds] at h
    obtain ⟨j, hj, hblock⟩ := h
    dsimp only at hj hblock
    rw [toNat_succ hn] at hj
    rcases Nat.lt_succ_iff_lt_or_eq.mp hj with hj | rfl
    · rw [update_of_ne (by omega)] at hblock
      exact .inr ⟨j, hj, hblock⟩
    · rw [update_self] at hblock
      exact .inl hblock

theorem mem_entries (hn : lh.n.toNat < 2 ^ 31) : b ∈ lh.entries ↔ lh.Holds b := by
  rw [entries, count_eq_toNat hn]
  simp only [List.mem_map, List.mem_range, Holds]

theorem Distinct.nodup_entries (h : lh.Distinct) (hn : lh.n.toNat < 2 ^ 31) : lh.entries.Nodup := by
  apply List.Nodup.map_on _ List.nodup_range
  intro j hj k hk hequal
  rw [count_eq_toNat hn, List.mem_range] at hj hk
  exact h j hj k hk hequal

/-- A log all of whose blocks are in buffers has no more blocks than there are buffers. -/
theorem Distinct.n_le (h : lh.Distinct) {blocks : Fin nBuf → Option Word}
    (hblocks : ∀ b, lh.Holds b → ∃ k, blocks k = some b) : lh.n.toNat ≤ nBuf := by
  have hbuffer (j : Fin lh.n.toNat) : ∃ k, blocks k = some (lh.block j) :=
    hblocks _ ⟨j, j.isLt, rfl⟩
  choose buffer hbuffer using hbuffer
  have hinjective : Function.Injective buffer := by
    intro j k hjk
    have hequal : some (lh.block j) = some (lh.block k) := by rw [← hbuffer j, hjk, hbuffer k]
    exact Fin.ext (h j j.isLt k k.isLt (Option.some.inj hequal))
  have hcard := Fintype.card_le_of_injective buffer hinjective
  rwa [Fintype.card_fin, Fintype.card_fin] at hcard

end LogHeader

/-! ## What the operations keep -/

/-- The processes that have passed the tests of `log_write` and have not entered their block. -/
def Phase.writeCount : Phase → ℕ
  | .writing _ _ => 1
  | _ => 0

namespace Admission

variable {ι : Type} {s t : Admission ι} {i : ι} [Fintype ι]

def writers (s : Admission ι) : ℕ := tally Phase.writeCount s.phases

theorem writers_le_active (s : Admission ι) : s.writers ≤ s.active := by
  have hle : s.writers ≤ 1 * s.active :=
    tally_le_mul fun phase ↦ by cases phase <;> simp [writeCount, opCount, logged]
  rw [Nat.one_mul] at hle
  exact hle

/-- What holds of the shared state in every interleaving. -/
structure Shared (s : Admission ι) : Prop extends s.Counted where
  size : s.log.size = BitVec.ofNat 32 logSize
  room : s.n + s.writers ≤ 31
  recorded : ∀ i, (s.phases i).Recorded s.log.lh
  pending : ∀ logged ∈ s.ended, ∀ b ∈ logged, s.log.lh.Holds b
  distinct : s.log.lh.Distinct
  calm : s.panicked = none ∨ s.panicked = some .tooBigATransaction

theorem Shared.n_le (h : s.Shared) : s.n ≤ 31 := le_trans (Nat.le_add_right _ _) h.room

theorem Boot.shared (h : s.Boot) : s.Shared := by
  have hsound := h.sound
  have hn : s.n = 0 := by
    rw [n, h.empty]
    rfl
  refine { hsound with
    room := ?_
    pending := ?_
    distinct := ?_
    calm := .inl h.panicked }
  · have hle := s.writers_le_active
    have hfew := hsound.few
    omega
  · rw [h.ended]
    exact fun logged hlogged ↦ absurd hlogged List.not_mem_nil
  · intro j hj
    change j < s.n at hj
    omega

/-- A step that writes blocks to the disk. -/
theorem Shared.of_writes (h : s.Shared) {log : State} {ended : List (Finset Word)}
    (hlh : log.lh = s.log.lh) (hsize : log.size = s.log.size) (hended : ended = s.ended ∨ ended = []) :
    { s with log := log, ended := ended }.Shared := by
  have hn : log.lh.n.toNat = s.n := by rw [hlh, n]
  exact { h with
    drained := fun hcommitting hended ↦ hn.trans (h.drained hcommitting hended)
    cleared := fun i hi ↦ hn.trans (h.cleared i hi)
    size := hsize.trans h.size
    room := by
      change log.lh.n.toNat + s.writers ≤ 31
      rw [hn]
      exact h.room
    recorded := hlh ▸ h.recorded
    pending := by grind [h.pending]
    distinct := hlh ▸ h.distinct }

/-- While a process commits, `lh.n = 0` leaves nothing behind. -/
theorem Shared.of_clear (h : s.Shared) (hcommits : s.Commits i) (hended : s.ended = []) {log : State}
    (hempty : log.lh.n.toNat = 0) (hsize : log.size = s.log.size) :
    { s with log := log }.Shared := by
  have hidle := h.exclusive (h.commits i hcommits)
  exact { h with
    drained := fun _ _ ↦ hempty
    cleared := fun _ _ ↦ hempty
    size := hsize.trans h.size
    room := by
      change log.lh.n.toNat + s.writers ≤ 31
      have hwriters := s.writers_le_active
      omega
    recorded := by
      intro j logged hlogged
      have hpos := (h.not_committing hlogged).2
      omega
    pending := by
      dsimp only
      rw [hended]
      exact fun logged hlogged ↦ absurd hlogged List.not_mem_nil
    distinct := fun j hj ↦ absurd (hempty ▸ hj) (Nat.not_lt_zero j) }

section Moves

variable [DecidableEq ι] {logged : Finset Word} {b : Word}

/-- A step in which process `i` moves to another phase and the log stays as it is. -/
theorem Shared.of_move (h : s.Shared) (next : Phase) (hphases : t.phases = (s.move i next).phases)
    (hlog : t.log = s.log) (hcounted : t.Counted) (hroom : s.n + t.writers ≤ 31)
    (hrecorded : next.Recorded s.log.lh)
    (hpending : ∀ logged ∈ t.ended, ∀ b ∈ logged, s.log.lh.Holds b)
    (hcalm : t.panicked = s.panicked) : t.Shared := { hcounted with
  size := by rw [hlog, h.size]
  room := by
    rw [n, hlog]
    exact hroom
  recorded := by
    rw [hphases, hlog]
    exact forall_move (P := fun phase ↦ phase.Recorded s.log.lh) h.recorded hrecorded
  pending := by
    rw [hlog]
    exact hpending
  distinct := by
    rw [hlog]
    exact h.distinct
  calm := by
    rw [hcalm]
    exact h.calm }

theorem writers_move {next : Phase} (hphases : t.phases = (s.move i next).phases)
    (hcount : next.writeCount ≤ (s.phases i).writeCount) : t.writers ≤ s.writers := by
  have hmove := tally_move (s := s) (i := i) writeCount next
  rw [writers, hphases]
  rw [writers]
  omega

theorem Shared.beginOp (h : s.Shared) (hstep : s.beginOp i = some t) : t.Shared := by
  obtain ⟨hidle, hcommitting, hfull, rfl⟩ := beginOp_eq hstep
  have hwriters : (s.move i (.active ∅)).writers ≤ s.writers := writers_move rfl (Nat.zero_le _)
  refine h.of_move (i := i) (.active ∅) rfl rfl
    (h.toCounted.beginOp h.n_le hidle hcommitting hfull) ?_ ?_ h.pending rfl
  · exact le_trans (Nat.add_le_add_left hwriters _) h.room
  · intro logged hlogged b hb
    cases hlogged
    exact absurd hb (notMem_empty b)

theorem Shared.logEnter (h : s.Shared) (hstep : s.logEnter i = some t) : t.Shared := by
  obtain ⟨logged, b, hphase, rfl⟩ := logEnter_eq hstep
  have hi : (s.phases i).logged = some logged := by rw [hphase]; rfl
  have hsmall : s.log.lh.n.toNat < 2 ^ 30 := lt_of_le_of_lt h.n_le (by decide)
  have hkept := (LogHeader.holds_logWrite (b := b) hsmall).2
  have hgrowth := (LogHeader.n_logWrite (b := b) hsmall).2
  have hcounted : ({ s.move i (.active (insert b logged)) with
      log := { s.log with lh := s.log.lh.logWrite b } } : Admission ι).Counted :=
    h.toCounted.goOn hi rfl
  have hwriters : (s.move i (.active (insert b logged))).writers + 1 = s.writers := by
    have hmove := tally_move (s := s) (i := i) writeCount (.active (insert b logged))
    rw [hphase] at hmove
    exact hmove
  exact { hcounted with
    size := h.size
    room := by
      change (s.log.lh.logWrite b).n.toNat + (s.move i (.active (insert b logged))).writers ≤ 31
      have hroom := h.room
      rw [n] at hroom
      omega
    recorded := recorded_enter h.recorded hi hsmall
    pending := fun l hl c hc ↦ hkept c (h.pending l hl c hc)
    distinct := h.distinct.logWrite hsmall
    calm := h.calm }

theorem Shared.endOp (h : s.Shared) (hstep : s.endOp i = some t) : t.Shared := by
  obtain ⟨logged, hphase, heq, _⟩ := endOp_eq hstep
  have hi : (s.phases i).logged = some logged := by rw [hphase]; rfl
  obtain rfl := heq (h.not_committing hi).1
  refine h.of_move (i := i) _ rfl rfl (h.toCounted.endOp hphase) ?_ ?_ ?_ rfl
  · refine le_trans (Nat.add_le_add_left (writers_move (i := i) rfl ?_) _) h.room
    split <;> exact Nat.zero_le _
  · intro l hl
    split at hl <;> cases hl
  · intro l hl b hb
    rcases List.mem_cons.mp hl with rfl | hold
    · exact h.recorded i l hi b hb
    · exact h.pending l hold b hb

theorem Shared.commitDone (h : s.Shared) (hstep : s.commitDone i = some t) : t.Shared := by
  obtain ⟨hphase, rfl⟩ := commitDone_eq hstep
  have hwriters : (s.move i .idle).writers ≤ s.writers := writers_move rfl (Nat.zero_le _)
  exact h.of_move (i := i) .idle rfl rfl (h.toCounted.commitDone hphase)
    (le_trans (Nat.add_le_add_left hwriters _) h.room) (recorded_idle _) h.pending rfl

/-- `commit()` has returned. -/
theorem Shared.committed (h : s.Shared) (hphase : s.phases i = .committing) (hempty : s.n = 0) :
    (s.move i .committed).Shared := by
  have hwriters : (s.move i .committed).writers ≤ s.writers := writers_move rfl (Nat.zero_le _)
  have hroom := h.room
  refine h.of_move (i := i) .committed rfl rfl (h.toCounted.committed hphase hempty) (by omega) ?_
    h.pending rfl
  intro logged hlogged
  cases hlogged

end Moves

end Admission

namespace GroupLog

variable {ι : Type} {s t : GroupLog ι} {i : ι} {u : Admission ι}

open Admission

theorem bufs_setBuf_self (k : Fin nBuf) (buf : LogBuf ι) : (s.setBuf k buf).bufs k = buf :=
  update_self ..

theorem bufs_setBuf_of_ne {j k : Fin nBuf} (h : j ≠ k) (buf : LogBuf ι) :
    (s.setBuf k buf).bufs j = s.bufs j :=
  update_of_ne h ..

/-- What `bread` does, unless it panics: a buffer that is in no use, or is for the block already, is
locked. -/
theorem bread_eq {b : Word} {k : Fin nBuf} (hstep : s.bread i b k = some t) :
    t = { s with noBuffers := true } ∨
      ∃ j, (s.bufs j).holder = none ∧ ((s.bufs j).block = some b ∨ (s.bufs j).dirty = false) ∧
        t = s.setBuf j ⟨some b, some i, (s.bufs j).dirty⟩ := by
  rw [bread] at hstep
  split at hstep
  · cases hstep
  split at hstep
  · rename_i j hcached
    have hblock : (s.bufs j).block = some b := by simpa using List.find?_some hcached
    split at hstep
    · cases hstep
    · rename_i hholder
      cases hstep
      exact .inr ⟨j, by simpa using hholder, .inl hblock, by dsimp only; rw [hblock]⟩
  · split at hstep
    · rename_i hunused
      rw [LogBuf.unused, Bool.and_eq_true, Option.isNone_iff_eq_none, Bool.not_eq_true'] at hunused
      cases hstep
      exact .inr ⟨k, hunused.1, .inr hunused.2, by rw [hunused.2]⟩
    · split at hstep
      · cases hstep
      · cases hstep
        exact .inl rfl

section Steps

variable [DecidableEq ι]

theorem logTest_eq {b : Word} (hstep : s.logTest i b = some u) :
    ∃ logged, s.phases i = .active logged ∧ (∃ k, s.has i b k = true) ∧
      (u = { s.toAdmission with panicked := some .tooBigATransaction } ∨
        s.outstanding.slt 1 = true ∧
          u = { s.toAdmission with panicked := some .logWriteOutsideOfTrans } ∨
        s.tooBig = false ∧ u = s.move i (.writing logged b)) := by
  rw [logTest] at hstep
  split at hstep
  case h_2 => cases hstep
  rename_i logged hphase
  split at hstep
  · cases hstep
  rename_i hlocked
  have hhas : ∃ k, s.has i b k = true := by simpa using hlocked
  refine ⟨logged, hphase, hhas, ?_⟩
  split at hstep
  · cases hstep
    exact .inl rfl
  split at hstep
  · rename_i houtside
    cases hstep
    exact .inr (.inl ⟨houtside, rfl⟩)
  · rename_i hbig _
    cases hstep
    exact .inr (.inr ⟨Bool.eq_false_of_not_eq_true hbig, rfl⟩)

/-- What the pieces of `commit()` do. -/
theorem commit_eq (hstep : s.commit i = some t) : s.phases i = .committing ∧
    (s.point = .entered ∧ t = s.goto .copied s.log.writeLog ∨
      s.point = .entered ∧ ¬ 0 < s.log.lh.n.toInt ∧
        t = { s.record with toAdmission := s.record.move i .committed } ∨
      s.point = .copied ∧ t = s.record.goto .headed s.log.writeHead ∨
      s.point = .headed ∧ t = { s.goto .installed s.log.installTrans with bufs := s.unpin } ∨
      s.point = .installed ∧ t = s.goto .cleared s.log.clearHead ∨
      s.point = .cleared ∧ t = { s.goto .entered s.log.writeHead with
        toAdmission := (s.goto .entered s.log.writeHead).move i .committed }) := by
  rw [commit] at hstep
  split at hstep
  case h_2 => cases hstep
  grind

theorem brelse_eq {k : Fin nBuf} (hstep : s.brelse i k = some t) :
    (s.phases i).busy = false ∧ (s.bufs k).holder = some i ∧
      t = s.setBuf k { s.bufs k with holder := none } := by
  rw [brelse] at hstep
  split at hstep
  · cases hstep
  split at hstep
  · rename_i hbusy hholder
    cases hstep
    exact ⟨Bool.eq_false_of_not_eq_true hbusy, by simpa using hholder, rfl⟩
  · cases hstep

end Steps

/-! ## The buffers -/

section Buffers

variable [DecidableEq ι]

theorem has_iff {b : Word} {k : Fin nBuf} :
    s.has i b k = true ↔ (s.bufs k).block = some b ∧ (s.bufs k).holder = some i := by
  rw [has, Bool.and_eq_true, beq_iff_eq, beq_iff_eq]

/-- Until they are installed the blocks in the log are in dirty buffers, and a process in `log_write`
has the lock of the buffer that it was called with. -/
structure Buffered (s : GroupLog ι) : Prop where
  pinned : s.point ≠ .installed → s.point ≠ .cleared → ∀ b, s.log.lh.Holds b →
    ∃ k, (s.bufs k).block = some b ∧ (s.bufs k).dirty = true
  locked : ∀ i logged b, s.phases i = .writing logged b → ∃ k, s.has i b k = true

theorem Boot.buffered (h : s.Boot) : s.Buffered where
  pinned := by
    rintro _ _ b ⟨j, hj, -⟩
    rw [h.admission.empty] at hj
    exact absurd hj (Nat.not_lt_zero j)
  locked i logged b hphase := by
    rw [h.admission.idle i] at hphase
    cases hphase

/-- A step of the log in which no process goes into `log_write` and no block is entered. -/
theorem Buffered.of_kept (h : s.Buffered) (hbufs : t.bufs = s.bufs) (hlh : t.log.lh = s.log.lh)
    (hpoint : t.point ≠ .installed → t.point ≠ .cleared →
      s.point ≠ .installed ∧ s.point ≠ .cleared)
    (hphases : ∀ j logged b, t.phases j = .writing logged b → s.phases j = .writing logged b) :
    t.Buffered where
  pinned hinstalled hcleared := by
    rw [hlh, hbufs]
    exact h.pinned (hpoint hinstalled hcleared).1 (hpoint hinstalled hcleared).2
  locked j logged b hphase := by
    unfold has
    rw [hbufs]
    exact h.locked j logged b (hphases j logged b hphase)

theorem writing_of_move {next : Phase} (hnext : ∀ logged b, next ≠ .writing logged b) {j : ι}
    {logged : Finset Word} {b : Word} (hj : (s.move i next).phases j = .writing logged b) :
    s.phases j = .writing logged b := by
  by_cases hsame : j = i
  · rw [hsame, phases_move_self] at hj
    exact absurd hj (hnext logged b)
  · rwa [phases_move_of_ne _ _ hsame] at hj

theorem Buffered.bread (h : s.Buffered) {b : Word} {k : Fin nBuf}
    (hstep : s.bread i b k = some t) : t.Buffered := by
  obtain rfl | ⟨j, hfree, hclean, rfl⟩ := bread_eq hstep
  · exact ⟨h.pinned, h.locked⟩
  constructor
  · intro hinstalled hcleared c hc
    obtain ⟨k, hblock, hdirty⟩ := h.pinned hinstalled hcleared c hc
    refine ⟨k, ?_⟩
    by_cases hsame : k = j
    · -- a dirty buffer is taken for its own block only
      subst hsame
      rcases hclean with hown | hclean
      · obtain rfl : b = c := Option.mem_unique hown hblock
        rw [bufs_setBuf_self]
        exact ⟨rfl, hdirty⟩
      · rw [hclean] at hdirty
        cases hdirty
    · rw [bufs_setBuf_of_ne hsame]
      exact ⟨hblock, hdirty⟩
  · intro p logged c hphase
    obtain ⟨k, hk⟩ := h.locked p logged c hphase
    have hother : k ≠ j := by
      rintro rfl
      rw [has_iff, hfree] at hk
      cases hk.2
    refine ⟨k, ?_⟩
    rwa [has, bufs_setBuf_of_ne hother]

theorem Buffered.brelse (h : s.Buffered) {k : Fin nBuf} (hstep : s.brelse i k = some t) :
    t.Buffered := by
  obtain ⟨hbusy, hholder, rfl⟩ := brelse_eq hstep
  constructor
  · intro hinstalled hcleared c hc
    obtain ⟨j, hblock, hdirty⟩ := h.pinned hinstalled hcleared c hc
    refine ⟨j, ?_⟩
    by_cases hsame : j = k
    · subst hsame
      rw [bufs_setBuf_self]
      exact ⟨hblock, hdirty⟩
    · rw [bufs_setBuf_of_ne hsame]
      exact ⟨hblock, hdirty⟩
  · intro p logged c hphase
    change s.phases p = .writing logged c at hphase
    obtain ⟨j, hj⟩ := h.locked p logged c hphase
    have hother : j ≠ k := by
      rintro rfl
      rw [has_iff, hholder] at hj
      rw [Option.some.inj hj.2, hphase] at hbusy
      cases hbusy
    refine ⟨j, ?_⟩
    rwa [has, bufs_setBuf_of_ne hother]

theorem Buffered.logTest (h : s.Buffered) {b : Word} (hu : s.logTest i b = some u) :
    ({ s with toAdmission := u } : GroupLog ι).Buffered := by
  obtain ⟨logged, -, hhas, rfl | ⟨-, rfl⟩ | ⟨-, rfl⟩⟩ := logTest_eq hu
  · exact ⟨h.pinned, h.locked⟩
  · exact ⟨h.pinned, h.locked⟩
  · refine ⟨h.pinned, fun j l c hj ↦ ?_⟩
    by_cases hsame : j = i
    · subst hsame
      change (s.move j (.writing logged b)).phases j = .writing l c at hj
      rw [phases_move_self] at hj
      cases hj
      exact hhas
    · exact h.locked j l c (by rwa [← phases_move_of_ne s.toAdmission (.writing logged b) hsame])

end Buffers

/-! ## What a run keeps -/

variable [Fintype ι]

/-- The test of `log_write` passes with at most 28 blocks in the log. -/
theorem n_le_of_not_tooBig (h : s.Shared) (hbig : s.tooBig = false) : s.n ≤ 28 := by
  have hlast : (s.log.size - 1).toNat = 29 := by
    rw [h.size]
    rfl
  have hsize : (BitVec.ofNat 32 logSize).toNat = 30 := rfl
  have hn : s.log.lh.n.toNat ≤ 31 := h.n_le
  rw [tooBig, sle_of_small (by omega) (by omega), sle_of_small (by omega) (by omega), hlast, hsize,
    Bool.or_eq_false_iff, decide_eq_false_iff_not, decide_eq_false_iff_not] at hbig
  rw [n]
  omega

/-- The state of `commit()` next to the shared state. -/
structure Grouped (s : GroupLog ι) : Prop extends s.toAdmission.Shared where
  engaged : s.point ≠ .entered → ∃ i, s.phases i = .committing
  taken : s.point ≠ .entered → s.point ≠ .copied → s.ended = []
  emptied : s.point = .cleared → s.n = 0

theorem Boot.grouped (h : s.Boot) : s.Grouped where
  toShared := h.admission.shared
  engaged hne := absurd h.point hne
  taken hne := absurd h.point hne
  emptied hcleared := by
    rw [h.point] at hcleared
    cases hcleared

/-- While an operation is in progress, or a process is done with `commit()`, none runs it. -/
theorem Grouped.point_eq (h : s.Grouped)
    (hi : (s.phases i).logged.isSome ∨ s.committing = false ∨ s.phases i = .committed) :
    s.point = .entered := by
  by_contra hne
  obtain ⟨j, hj⟩ := h.engaged hne
  have hcommitting := h.commits j (.inl hj)
  rcases hi with hi | hi | hi
  · obtain ⟨logged, hlogged⟩ := Option.isSome_iff_exists.mp hi
    rw [(h.not_committing hlogged).1] at hcommitting
    cases hcommitting
  · rw [hi] at hcommitting
    cases hcommitting
  · rw [h.unique j i (.inl hj) (.inr hi), hi] at hj
    cases hj

theorem Grouped.of_admission (h : s.Grouped) (hu : u.Shared)
    (hi : (s.phases i).logged.isSome ∨ s.committing = false ∨ s.phases i = .committed) :
    ({ s with toAdmission := u } : GroupLog ι).Grouped where
  toShared := hu
  engaged hne := absurd (h.point_eq hi) hne
  taken hne := absurd (h.point_eq hi) hne
  emptied hcleared := by
    change s.point = .cleared at hcleared
    rw [h.point_eq hi] at hcleared
    cases hcleared

/-- A piece of `commit()` that writes to the disk. -/
theorem Grouped.of_writes (h : s.Grouped) (hphase : s.phases i = .committing) {log : State}
    (hlh : log.lh = s.log.lh) (hsize : log.size = s.log.size) {point : CommitPoint}
    (hpoint : point ≠ .cleared) (htaken : point ≠ .copied → s.ended = []) :
    (s.goto point log).Grouped where
  toShared := h.toShared.of_writes hlh hsize (.inl rfl)
  engaged _ := ⟨i, hphase⟩
  taken _ := htaken
  emptied hcleared := absurd hcleared hpoint

theorem Grouped.record (h : s.Grouped) : s.record.Grouped := { h with
  toShared := h.toShared.of_writes rfl rfl (.inr rfl)
  taken _ _ := rfl }

variable [DecidableEq ι]

theorem shared_logTest (h : s.Shared) {b : Word} (hstep : s.logTest i b = some u) :
    u.Shared := by
  obtain ⟨logged, hphase, -, hcases⟩ := logTest_eq hstep
  have hi : (s.phases i).logged = some logged := by rw [hphase]; rfl
  obtain ⟨-, hpos⟩ := h.not_committing hi
  have hinside : s.outstanding.slt 1 = false := by grind [h.few, slt_of_small, h.outstanding]
  rcases hcases with rfl | ⟨houtside, -⟩ | ⟨hbig, rfl⟩
  · exact { h with calm := .inr rfl }
  · rw [hinside] at houtside
    cases houtside
  · have hlogged : (writing logged b).logged = (s.phases i).logged := by rw [hi]; rfl
    have hcounted : (s.move i (.writing logged b)).Counted := h.toCounted.goOn hi rfl
    apply h.of_move (i := i) (.writing logged b) rfl rfl hcounted
    · have hn : s.n ≤ 28 := n_le_of_not_tooBig h hbig
      calc s.n + (s.move i (.writing logged b)).writers
          ≤ 28 + (s.move i (.writing logged b)).active := Nat.add_le_add hn (writers_le_active _)
        _ ≤ 28 + 3 := Nat.add_le_add_left hcounted.few _
    · intro l hl
      exact h.recorded i l (hlogged ▸ hl)
    · exact h.pending
    · rfl

theorem Grouped.commit (h : s.Grouped) (hstep : s.commit i = some t) : t.Grouped := by
  obtain ⟨hphase, ⟨_, rfl⟩ | ⟨hpoint, hnothing, rfl⟩ | ⟨hpoint, rfl⟩ | ⟨hpoint, rfl⟩ |
    ⟨hpoint, rfl⟩ | ⟨hpoint, rfl⟩⟩ := commit_eq hstep
  · exact h.of_writes hphase (header_writeLog s.log).1 (header_writeLog s.log).2 (by decide)
      fun hne ↦ absurd rfl hne
  · -- nothing has been logged
    have hempty : s.n = 0 := by
      have hn := h.n_le
      rw [n] at *
      rw [BitVec.toInt_eq_toNat_of_lt (by omega)] at hnothing
      omega
    exact {
      toShared := h.record.toShared.committed hphase hempty
      engaged := fun hne ↦ absurd hpoint hne
      taken := fun _ _ ↦ rfl
      emptied := fun _ ↦ hempty }
  · have hheaded : CommitPoint.headed ≠ .cleared := by decide
    refine h.record.of_writes hphase ?_ ?_ hheaded fun _ ↦ rfl
    · rfl
    · rfl
  · have hended : s.ended = [] := by
      apply h.taken <;> rw [hpoint] <;> decide
    have hinstalled : (s.goto .installed s.log.installTrans).Grouped :=
      h.of_writes hphase (header_installTrans s.log).1 (header_installTrans s.log).2 (by decide)
        fun _ ↦ hended
    exact { hinstalled with }
  · have hended : s.ended = [] := by
      apply h.taken <;> rw [hpoint] <;> decide
    exact {
      toShared := h.toShared.of_clear (.inl hphase) hended rfl rfl
      engaged := fun _ ↦ ⟨i, hphase⟩
      taken := fun _ _ ↦ hended
      emptied := fun _ ↦ rfl }
  · have hempty := h.emptied hpoint
    have hwritten : (s.goto .entered s.log.writeHead).toAdmission.Shared :=
      h.toShared.of_writes rfl rfl (.inl rfl)
    exact {
      toShared := hwritten.committed hphase hempty
      engaged := fun hne ↦ absurd rfl hne
      taken := fun hne ↦ absurd rfl hne
      emptied := fun _ ↦ hempty }

theorem Grouped.logStep (h : s.Grouped) {a : Act ι} (hstep : s.logStep a = some t) :
    t.Grouped := by
  cases a with
  | beginOp i =>
    obtain ⟨u, hu, rfl⟩ := map_eq_some_iff.mp hstep
    exact h.of_admission (i := i) (h.toShared.beginOp hu) (.inr (.inl (beginOp_eq hu).2.1))
  | logTest i b =>
    obtain ⟨u, hu, rfl⟩ := map_eq_some_iff.mp hstep
    obtain ⟨_, hphase, _⟩ := logTest_eq hu
    exact h.of_admission (i := i) (shared_logTest h.toShared hu) (.inl (by rw [hphase]; rfl))
  | logEnter i =>
    obtain ⟨u, hu, rfl⟩ := map_eq_some_iff.mp hstep
    obtain ⟨_, _, hphase, _⟩ := logEnter_eq hu
    have hentered := h.of_admission (i := i) (h.toShared.logEnter hu) (.inl (by rw [hphase]; rfl))
    exact { hentered with }
  | endOp i =>
    obtain ⟨u, hu, rfl⟩ := map_eq_some_iff.mp hstep
    obtain ⟨_, hphase, _⟩ := endOp_eq hu
    exact h.of_admission (i := i) (h.toShared.endOp hu) (.inl (by rw [hphase]; rfl))
  | commit i => exact h.commit hstep
  | commitDone i =>
    obtain ⟨u, hu, rfl⟩ := map_eq_some_iff.mp hstep
    exact h.of_admission (i := i) (h.toShared.commitDone hu) (.inr (.inr (commitDone_eq hu).1))

/-- **Every step** keeps the shared state and the state of `commit()`. -/
theorem Grouped.step (h : s.Grouped) {a : GroupAct ι} (hstep : s.step a = some t) : t.Grouped := by
  unfold GroupLog.step at hstep
  split at hstep
  · cases hstep
  cases a with
  | bread i b k =>
    obtain rfl | ⟨_, _, _, rfl⟩ := bread_eq hstep
    · exact { h with }
    · exact { h with }
  | brelse i k =>
    obtain ⟨_, _, rfl⟩ := brelse_eq hstep
    exact { h with }
  | log a => exact h.logStep hstep

theorem Buffered.logEnter (h : s.Buffered) (hgrouped : s.Grouped) (hu : s.logEnter i = some u) :
    ({ s with toAdmission := u, bufs := s.pin i } : GroupLog ι).Buffered := by
  obtain ⟨logged, b, hphase, rfl⟩ := logEnter_eq hu
  have hpin : s.pin i = fun k ↦
      { s.bufs k with dirty := (s.bufs k).dirty || s.has i b k } := by
    funext k
    rw [pin, hphase]
  have hsmall : s.log.lh.n.toNat < 2 ^ 30 := lt_of_le_of_lt hgrouped.n_le (by decide)
  rw [hpin]
  constructor
  · intro hinstalled hcleared c hc
    rcases LogHeader.holds_of_logWrite hsmall hc with rfl | hold
    · obtain ⟨k, hk⟩ := h.locked i logged b hphase
      refine ⟨k, (has_iff.mp hk).1, ?_⟩
      dsimp only
      rw [hk, Bool.or_true]
    · obtain ⟨k, hblock, hdirty⟩ := h.pinned hinstalled hcleared c hold
      refine ⟨k, hblock, ?_⟩
      dsimp only
      rw [hdirty, Bool.true_or]
  · intro j l c hj
    exact h.locked j l c (writing_of_move (i := i) (fun _ _ ↦ Phase.noConfusion) hj)

theorem Buffered.commit (h : s.Buffered) (hgrouped : s.Grouped) (hstep : s.commit i = some t) :
    t.Buffered := by
  have hkept {log : State} {point : CommitPoint} (hlh : log.lh = s.log.lh)
      (hpoint : s.point ≠ .installed ∧ s.point ≠ .cleared) : (s.goto point log).Buffered :=
    h.of_kept rfl hlh (fun _ _ ↦ hpoint) fun _ _ _ hj ↦ hj
  obtain ⟨_, ⟨hpoint, rfl⟩ | ⟨hpoint, -, rfl⟩ | ⟨hpoint, rfl⟩ | ⟨hpoint, rfl⟩ | ⟨hpoint, rfl⟩ |
    ⟨hpoint, rfl⟩⟩ := commit_eq hstep
  · exact hkept (header_writeLog s.log).1 (by rw [hpoint]; decide)
  · refine h.of_kept rfl rfl (fun hi hc ↦ ⟨hi, hc⟩) fun j l c hj ↦ ?_
    exact writing_of_move (s := s.record) (i := i) (fun _ _ ↦ Phase.noConfusion) hj
  · refine h.of_kept rfl rfl (fun _ _ ↦ ?_) fun _ _ _ hj ↦ hj
    rw [hpoint]
    decide
  · exact ⟨fun hinstalled ↦ absurd rfl hinstalled, h.locked⟩
  · exact ⟨fun _ hcleared ↦ absurd rfl hcleared, h.locked⟩
  · refine ⟨fun _ _ c hc ↦ ?_, fun j l c hj ↦ ?_⟩
    · -- the log is empty
      obtain ⟨k, hk, -⟩ := hc
      exact absurd (hgrouped.emptied hpoint ▸ hk : k < 0) (Nat.not_lt_zero k)
    · exact h.locked j l c (writing_of_move (s := s) (i := i) (fun _ _ ↦ Phase.noConfusion) hj)

theorem Buffered.logStep (h : s.Buffered) (hgrouped : s.Grouped) {a : Act ι}
    (hstep : s.logStep a = some t) : t.Buffered := by
  cases a with
  | beginOp i =>
    obtain ⟨u, hu, rfl⟩ := map_eq_some_iff.mp hstep
    obtain ⟨_, _, _, rfl⟩ := beginOp_eq hu
    exact h.of_kept rfl rfl (fun hi hc ↦ ⟨hi, hc⟩)
      fun j l c hj ↦ writing_of_move (i := i) (fun _ _ ↦ Phase.noConfusion) hj
  | logTest i b =>
    obtain ⟨u, hu, rfl⟩ := map_eq_some_iff.mp hstep
    exact h.logTest hu
  | logEnter i =>
    obtain ⟨u, hu, rfl⟩ := map_eq_some_iff.mp hstep
    exact h.logEnter hgrouped hu
  | endOp i =>
    obtain ⟨u, hu, rfl⟩ := map_eq_some_iff.mp hstep
    obtain ⟨logged, hphase, heq, _⟩ := endOp_eq hu
    have hi : (s.phases i).logged = some logged := by rw [hphase]; rfl
    obtain rfl := heq (hgrouped.not_committing hi).1
    refine h.of_kept rfl rfl (fun hi hc ↦ ⟨hi, hc⟩) fun j l c hj ↦ ?_
    refine writing_of_move (i := i) (fun _ _ hnext ↦ ?_) hj
    split at hnext <;> cases hnext
  | commit i => exact h.commit hgrouped hstep
  | commitDone i =>
    obtain ⟨u, hu, rfl⟩ := map_eq_some_iff.mp hstep
    obtain ⟨_, rfl⟩ := commitDone_eq hu
    exact h.of_kept rfl rfl (fun hi hc ↦ ⟨hi, hc⟩)
      fun j l c hj ↦ writing_of_move (i := i) (fun _ _ ↦ Phase.noConfusion) hj

/-! ## Whole headers -/

/-- The log fits its array, and every header that has been written holds all that the operations it
commits have logged. -/
structure Whole (s : GroupLog ι) : Prop extends s.Grouped, s.Buffered where
  fits : s.n ≤ logSize
  whole : ∀ c ∈ s.commits, ∀ logged ∈ c.operations, ∀ b ∈ logged, b ∈ c.header

theorem Boot.whole (h : s.Boot) : s.Whole := { h.grouped, h.buffered with
  fits := by
    rw [n, h.admission.empty]
    exact Nat.zero_le _
  whole := by
    rw [h.commits]
    exact fun c hc ↦ absurd hc List.not_mem_nil }

theorem Whole.small (h : s.Whole) : s.log.lh.n.toNat < 2 ^ 31 :=
  lt_of_le_of_lt h.fits (by decide)

/-- The header that is written holds all that the operations which have ended have logged. -/
theorem Whole.record (h : s.Whole) :
    ∀ c ∈ s.record.commits, ∀ logged ∈ c.operations, ∀ b ∈ logged, b ∈ c.header := by
  intro c hc logged hlogged b hb
  rcases List.mem_append.mp hc with hc | hc
  · exact h.whole c hc logged hlogged b hb
  · obtain rfl := List.mem_singleton.mp hc
    exact (LogHeader.mem_entries h.small).mpr (h.pending logged hlogged b hb)

theorem Whole.commit (h : s.Whole) (hstep : s.commit i = some t) : t.Whole := by
  have hgrouped := h.toGrouped.commit hstep
  have hbuffered := h.toBuffered.commit h.toGrouped hstep
  obtain ⟨_, ⟨_, rfl⟩ | ⟨_, -, rfl⟩ | ⟨_, rfl⟩ | ⟨_, rfl⟩ | ⟨_, rfl⟩ | ⟨_, rfl⟩⟩ := commit_eq hstep
  · refine ⟨hgrouped, hbuffered, ?_, h.whole⟩
    change s.log.writeLog.lh.n.toNat ≤ logSize
    rw [(header_writeLog s.log).1]
    exact h.fits
  · exact ⟨hgrouped, hbuffered, h.fits, h.record⟩
  · exact ⟨hgrouped, hbuffered, h.fits, h.record⟩
  · refine ⟨hgrouped, hbuffered, ?_, h.whole⟩
    change s.log.installTrans.lh.n.toNat ≤ logSize
    rw [(header_installTrans s.log).1]
    exact h.fits
  · exact ⟨hgrouped, hbuffered, Nat.zero_le _, h.whole⟩
  · exact ⟨hgrouped, hbuffered, h.fits, h.whole⟩

theorem Whole.logStep (h : s.Whole) {a : Act ι} (hstep : s.logStep a = some t) : t.Whole := by
  have hgrouped := h.toGrouped.logStep hstep
  have hbuffered := h.toBuffered.logStep h.toGrouped hstep
  have hlog {u : Admission ι} (hu : u.log = s.log) : u.n ≤ logSize := by
    rw [n, hu]
    exact h.fits
  cases a with
  | beginOp i =>
    obtain ⟨u, hu, rfl⟩ := map_eq_some_iff.mp hstep
    exact ⟨hgrouped, hbuffered, hlog (by rw [(beginOp_eq hu).2.2.2]; rfl), h.whole⟩
  | logTest i b =>
    obtain ⟨u, hu, rfl⟩ := map_eq_some_iff.mp hstep
    refine ⟨hgrouped, hbuffered, hlog ?_, h.whole⟩
    obtain ⟨_, _, _, rfl | ⟨-, rfl⟩ | ⟨-, rfl⟩⟩ := logTest_eq hu <;> rfl
  | logEnter i =>
    obtain ⟨u, hu, rfl⟩ := map_eq_some_iff.mp hstep
    obtain ⟨_, _, hphase, _⟩ := logEnter_eq hu
    have hpoint : s.point = .entered := h.point_eq (i := i) (.inl (by rw [hphase]; rfl))
    -- every block in the log has its buffer, the new one included
    have hpinned := hbuffered.pinned (ne_of_eq_of_ne hpoint (by decide))
      (ne_of_eq_of_ne hpoint (by decide))
    exact ⟨hgrouped, hbuffered,
      hgrouped.distinct.n_le fun b hb ↦ (hpinned b hb).imp fun _ hk ↦ hk.1, h.whole⟩
  | endOp i =>
    obtain ⟨u, hu, rfl⟩ := map_eq_some_iff.mp hstep
    obtain ⟨_, _, _, hsame⟩ := endOp_eq hu
    exact ⟨hgrouped, hbuffered, hlog hsame, h.whole⟩
  | commit i => exact h.commit hstep
  | commitDone i =>
    obtain ⟨u, hu, rfl⟩ := map_eq_some_iff.mp hstep
    exact ⟨hgrouped, hbuffered, hlog (by rw [(commitDone_eq hu).2]; rfl), h.whole⟩

/-- **Every step** keeps the headers whole. -/
theorem Whole.step (h : s.Whole) {a : GroupAct ι} (hstep : s.step a = some t) : t.Whole := by
  have hgrouped := h.toGrouped.step hstep
  unfold GroupLog.step at hstep
  split at hstep
  · cases hstep
  cases a with
  | bread i b k =>
    have hbuffered := h.toBuffered.bread hstep
    obtain rfl | ⟨_, _, _, rfl⟩ := bread_eq hstep
    · exact ⟨hgrouped, hbuffered, h.fits, h.whole⟩
    · exact ⟨hgrouped, hbuffered, h.fits, h.whole⟩
  | brelse i k =>
    have hbuffered := h.toBuffered.brelse hstep
    obtain ⟨_, _, rfl⟩ := brelse_eq hstep
    exact ⟨hgrouped, hbuffered, h.fits, h.whole⟩
  | log a => exact h.logStep hstep

omit [Fintype ι] in
/-- While `log.committing` is set no operation begins. -/
theorem beginOp_of_committing (h : s.committing = true) (j : ι) :
    s.step (.log (.beginOp j)) = none := by
  unfold GroupLog.step
  split
  · rfl
  · have hnone : s.toAdmission.beginOp j = none := by
      rw [Admission.beginOp, h]
      split <;> rfl
    dsimp only [logStep]
    rw [hnone, Option.map_none]

end GroupLog

/-- **Group commit is all-or-nothing.**  In every interleaving: while a process is in `commit()`, or
has not yet reset `log.committing`, no operation is in progress and none begins; every header that is
written holds all that the operations it commits have logged; the log keeps within its array and no
block is twice in it; and the only panic of the log is the one of the capacity test. -/
theorem group_commit {ι : Type} [DecidableEq ι] [Fintype ι] {s₀ s : GroupLog ι} (hboot : s₀.Boot)
    (hrun : Runs.Reaches GroupLog.step Runs.unguarded s₀ s) :
    (∀ i, s.phases i = .committing ∨ s.phases i = .committed → s.outstanding = 0 ∧
      ∀ j, (s.phases j).logged = none ∧ s.step (.log (.beginOp j)) = none) ∧
    (∀ c ∈ s.commits, ∀ logged ∈ c.operations, ∀ b ∈ logged, b ∈ c.header) ∧
    (∀ i logged, (s.phases i).logged = some logged → ∀ b ∈ logged, b ∈ s.log.lh.entries) ∧
    (∀ logged ∈ s.ended, ∀ b ∈ logged, b ∈ s.log.lh.entries) ∧
    s.log.lh.n.toNat ≤ logSize ∧ s.log.lh.entries.Nodup ∧
    s.panicked ≠ some .logCommitting ∧ s.panicked ≠ some .logWriteOutsideOfTrans := by
  have hwhole : s.Whole := hrun.invariant hboot.whole fun _ _ _ h _ hstep ↦ h.step hstep
  refine ⟨fun i hi ↦ ?_, hwhole.whole, fun i logged hi b hb ↦ ?_, fun logged hlogged b hb ↦ ?_,
    hwhole.fits, hwhole.distinct.nodup_entries hwhole.small, ?_, ?_⟩
  · have hcommitting := hwhole.commits i hi
    have hidle := hwhole.exclusive hcommitting
    refine ⟨?_, fun j ↦ ⟨?_, GroupLog.beginOp_of_committing hcommitting j⟩⟩
    · apply BitVec.eq_of_toNat_eq
      rw [hwhole.outstanding, hidle]
      rfl
    · by_contra hsome
      obtain ⟨logged, hlogged⟩ := Option.ne_none_iff_exists'.mp hsome
      have hpos := (hwhole.not_committing hlogged).2
      omega
  · exact (LogHeader.mem_entries hwhole.small).mpr (hwhole.recorded i logged hi b hb)
  · exact (LogHeader.mem_entries hwhole.small).mpr (hwhole.pending logged hlogged b hb)
  · rcases hwhole.calm with hcalm | hcalm <;> rw [hcalm] <;> decide
  · rcases hwhole.calm with hcalm | hcalm <;> rw [hcalm] <;> decide

/-- The empty log, with nothing committed and no block in a buffer. -/
def emptyGroupLog (ι : Type) : GroupLog ι where
  toAdmission := emptyLog ι
  point := .entered
  commits := []
  bufs _ := ⟨none, none, false⟩
  noBuffers := false

theorem emptyGroupLog_boot (ι : Type) : (emptyGroupLog ι).Boot := ⟨emptyLog_boot ι, rfl, rfl⟩

/-- Two operations share a block and are committed together. -/
def sharedCommit {ι : Type} (i j : ι) (k l : Fin nBuf) : List (GroupAct ι) :=
  [.log (.beginOp i), .log (.beginOp j), .bread j 40 k, .log (.logTest j 40), .log (.logEnter j),
    .brelse j k, .bread i 40 k, .bread j 41 l, .log (.logTest i 40), .log (.logTest j 41),
    .log (.logEnter j), .log (.logEnter i), .brelse i k, .brelse j l, .log (.endOp i),
    .log (.endOp j), .log (.commit j), .log (.commit j), .log (.commit j)]

theorem group_commit_two_operations :
    ∃ s, Runs.run GroupLog.step (sharedCommit 0 1 0 1) (emptyGroupLog (Fin 2)) = some s ∧
      s.commits.map (fun c ↦ (c.header, c.operations)) = [([40, 41], [{40, 41}, {40}])] ∧
      ∀ c ∈ s.commits, ∀ logged ∈ c.operations, ∀ b ∈ logged, b ∈ c.header := by
  obtain ⟨s, hs, hcommits⟩ :
      ∃ s ∈ Runs.run GroupLog.step (sharedCommit 0 1 0 1) (emptyGroupLog (Fin 2)),
        s.commits.map (fun c ↦ (c.header, c.operations)) = [([40, 41], [{40, 41}, {40}])] := by
    decide +kernel
  exact ⟨s, hs, hcommits,
    (group_commit (emptyGroupLog_boot (Fin 2)) (Runs.reaches_of_run hs)).2.1⟩

/-- **The shared log.**  In every interleaving, whatever the operations log, they and the commits
take turns and are counted, and no entry is made past the array. -/
theorem log_shared {ι : Type} [DecidableEq ι] [Fintype ι] {s₀ s : GroupLog ι} (hboot : s₀.Boot)
    (hrun : Runs.Reaches GroupLog.step Runs.unguarded s₀ s) :
    s.Shared ∧ s.n ≤ logSize := by
  have hwhole : s.Whole := hrun.invariant hboot.whole fun _ _ _ h _ hstep ↦ h.step hstep
  exact ⟨hwhole.toShared, hwhole.fits⟩

/-- An operation logs a block, and its process goes on to commit. -/
theorem log_shared_committing : ∃ s : GroupLog (Fin 2), s.committing = true ∧ s.Shared := by
  obtain ⟨s, hs, hcommitting⟩ : ∃ s ∈ Runs.run GroupLog.step
      [.log (.beginOp 0), .bread 0 40 0, .log (.logTest 0 40), .log (.logEnter 0), .brelse 0 0,
        .log (.endOp 0)] (emptyGroupLog (Fin 2)), s.committing = true := by
    decide +kernel
  exact ⟨s, hcommitting,
    (log_shared (emptyGroupLog_boot (Fin 2)) (Runs.reaches_of_run hs)).1⟩

end Xv6Mmap.Log
