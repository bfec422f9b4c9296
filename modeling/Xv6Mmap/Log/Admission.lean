import Mathlib.Data.Finset.Card
import Xv6Mmap.Log.Commit

/-!
# Admission to the log: `begin_op`, `log_write`, `end_op`

Any number of processes run file-system operations.  `begin_op` admits an operation if the blocks in
the log and `MAXOPBLOCKS` for every operation in progress fit `LOGSIZE`.  `log_write` tests the size
of the log before it takes the lock and before it looks for the block in the log, so it is two steps:
the test, and the entry made under the lock.  Its test leaves out the header block, which the test
of `begin_op` does not, so three operations of `MAXOPBLOCKS` blocks each are admitted together and
the last block of the last one panics.
-/

namespace Xv6Mmap.Log

/-! ## The model -/

namespace LogHeader

/-- Where `log_write` enters `blockno`: the place that it has in the log already, or the end. -/
def index (lh : LogHeader) (blockno : Word) : ℕ :=
  ((List.range lh.n.count).find? fun i ↦ lh.block i == blockno).getD lh.n.count

/-- What `log_write` does under the lock. -/
def logWrite (lh : LogHeader) (blockno : Word) : LogHeader :=
  let i := lh.index blockno
  { n := if BitVec.ofNat 32 i = lh.n then lh.n + 1 else lh.n
    block := Function.update lh.block i blockno }

end LogHeader

/-- Where a process stands.  An operation in progress comes with the blocks that it has logged. -/
inductive Phase where
  | idle
  | active (logged : Finset Word)
  | writing (logged : Finset Word) (blockno : Word)
  | committing
  | committed
  deriving DecidableEq

namespace Phase

/-- The blocks that an operation in progress has logged. -/
def logged : Phase → Option (Finset Word)
  | active logged => some logged
  | writing logged _ => some logged
  | _ => none

def opCount (phase : Phase) : ℕ := (phase.logged.map fun _ ↦ 1).getD 0
def logCount (phase : Phase) : ℕ := (phase.logged.map Finset.card).getD 0

/-- What is left of `bound` blocks for an operation in progress. -/
def left (bound : ℕ) (phase : Phase) : ℕ := (phase.logged.map fun logged ↦ bound - logged.card).getD 0

end Phase

inductive Panic where
  | tooBigATransaction
  | logWriteOutsideOfTrans
  | logCommitting
  deriving DecidableEq

/-- The log and the processes that use it.  `ended` lists what the operations that have ended since
the last commit have logged. -/
structure Admission (ι : Type) where
  log : State
  outstanding : Word
  committing : Bool
  phases : ι → Phase
  ended : List (Finset Word)
  panicked : Option Panic

inductive Act (ι : Type) where
  | beginOp (i : ι)
  | logTest (i : ι) (blockno : Word)
  | logEnter (i : ι)
  | endOp (i : ι)
  | commit (i : ι)
  | commitDone (i : ι)

namespace Admission

variable {ι : Type} [DecidableEq ι]

/-- The second test of `begin_op`. -/
def full (s : Admission ι) : Bool :=
  (BitVec.ofNat 32 logSize).slt (s.log.lh.n + (s.outstanding + 1) * BitVec.ofNat 32 maxOpBlocks)

/-- The first test of `log_write`. -/
def tooBig (s : Admission ι) : Bool :=
  (BitVec.ofNat 32 logSize).sle s.log.lh.n || (s.log.size - 1).sle s.log.lh.n

/-- Process `i` goes to another phase. -/
def move (s : Admission ι) (i : ι) (phase : Phase) : Admission ι :=
  { s with phases := Function.update s.phases i phase }

def beginOp (s : Admission ι) (i : ι) : Option (Admission ι) :=
  match s.phases i with
  | .idle =>
    -- `sleep` in either case: the process stays where it is
    if s.committing then none
    else if s.full then none
    else some { s.move i (.active ∅) with outstanding := s.outstanding + 1 }
  | _ => none

def logTest (s : Admission ι) (i : ι) (blockno : Word) : Option (Admission ι) :=
  match s.phases i with
  | .active logged =>
    -- no operation logs more than `MAXOPBLOCKS` blocks
    if maxOpBlocks < (insert blockno logged).card then none
    else if s.tooBig then some { s with panicked := some .tooBigATransaction }
    else if s.outstanding.slt 1 then some { s with panicked := some .logWriteOutsideOfTrans }
    else some (s.move i (.writing logged blockno))
  | _ => none

def logEnter (s : Admission ι) (i : ι) : Option (Admission ι) :=
  match s.phases i with
  | .writing logged blockno =>
    some { s.move i (.active (insert blockno logged)) with
      log := { s.log with lh := s.log.lh.logWrite blockno } }
  | _ => none

def endOp (s : Admission ι) (i : ι) : Option (Admission ι) :=
  match s.phases i with
  | .active logged =>
    let outstanding := s.outstanding - 1
    if s.committing then
      some { s with
        outstanding := outstanding
        panicked := some .logCommitting }
    else if outstanding = 0 then
      some { s.move i .committing with
        outstanding := outstanding
        committing := true
        ended := logged :: s.ended }
    else
      some { s.move i .idle with
        outstanding := outstanding
        ended := logged :: s.ended }
  | _ => none

def commit (s : Admission ι) (i : ι) : Option (Admission ι) :=
  match s.phases i with
  | .committing =>
    some { s.move i .committed with
      log := s.log.commit
      ended := [] }
  | _ => none

def commitDone (s : Admission ι) (i : ι) : Option (Admission ι) :=
  match s.phases i with
  | .committed => some { s.move i .idle with committing := false }
  | _ => none

/-- One step of the system; none after a panic. -/
def step (s : Admission ι) (a : Act ι) : Option (Admission ι) :=
  if s.panicked.isSome then none
  else match a with
    | .beginOp i => s.beginOp i
    | .logTest i blockno => s.logTest i blockno
    | .logEnter i => s.logEnter i
    | .endOp i => s.endOp i
    | .commit i => s.commit i
    | .commitDone i => s.commitDone i

/-- After `initlog`, with the log size that `mkfs` writes. -/
structure Boot (s : Admission ι) : Prop where
  size : s.log.size = BitVec.ofNat 32 logSize
  empty : s.log.lh.n = 0
  outstanding : s.outstanding = 0
  committing : s.committing = false
  idle : ∀ i, s.phases i = .idle
  ended : s.ended = []
  panicked : s.panicked = none

end Admission

end Xv6Mmap.Log
