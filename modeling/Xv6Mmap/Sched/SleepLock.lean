import Xv6Mmap.Kernel.Word
import Xv6Mmap.Library.Locks
import Xv6Mmap.Library.Runs

/-!
# Sleep locks

`sleeplock.c` on `sleep` and `wakeup` of `proc.c`: the flag of a sleep lock is guarded by a spin lock
of its own, the states of the processes by `ptable.lock`.  `sleep` takes the second lock before it
gives the first one back.  The steps here are those between two of these operations, so that any
number of waiters, of processes that give the lock back and of kills come between them.
-/

namespace Xv6Mmap.Sched

open Function Library Option

/-- Where a process is in `acquiresleep`, `releasesleep` and `holdingsleep`. -/
inductive LockPhase
  | idle
  /-- `acquiresleep`: `acquire(&lk->lk)`, also on the way back from `sleep` -/
  | locking
  /-- `while (lk->locked)` -/
  | testing
  /-- `sleep`: `acquire(&ptable.lock)` -/
  | entering
  /-- `release(lk)` -/
  | handing
  /-- `p->chan = chan; p->state = SLEEPING` -/
  | dozing
  /-- `sched()`, `SLEEPING` already -/
  | switching
  | asleep
  /-- `RUNNABLE`, inside `sched` -/
  | woken
  /-- Back from `sched`: `p->chan = 0; release(&ptable.lock)` -/
  | resuming
  /-- `lk->locked = 1; lk->pid = myproc()->pid` -/
  | taking
  /-- `release(&lk->lk)` -/
  | taken
  | holding
  /-- `releasesleep`: `acquire(&lk->lk)` -/
  | releasing
  /-- `lk->locked = 0; lk->pid = 0` -/
  | clearing
  /-- `wakeup`: `acquire(&ptable.lock)` -/
  | waking
  /-- `wakeup1(lk)` -/
  | scanning
  /-- `release(&ptable.lock)` -/
  | scanned
  /-- `release(&lk->lk)` -/
  | leaving
  /-- `holdingsleep`, called by the owner or not: `acquire(&lk->lk)` -/
  | asking (owner : Bool)
  /-- `r = lk->locked && (lk->pid == myproc()->pid); release(&lk->lk)` -/
  | peeking (owner : Bool)
  deriving DecidableEq

open LockPhase

namespace LockPhase

/-- The process has `lk->lk`. -/
def hasInner : LockPhase → Bool
  | .testing | .entering | .handing | .taking | .taken | .clearing | .waking | .scanning | .scanned
  | .leaving | .peeking _ => true
  | _ => false

/-- The process has `ptable.lock`. -/
def hasTable : LockPhase → Bool
  | .handing | .dozing | .switching | .resuming | .scanning | .scanned => true
  | _ => false

/-- The process has the sleep lock: it has set the flag and not cleared it. -/
def owns : LockPhase → Bool
  | .taken | .holding | .releasing | .clearing | .asking true | .peeking true => true
  | _ => false

/-- The process has found the flag set and not given `lk->lk` back. -/
def convinced : LockPhase → Bool
  | .entering | .handing => true
  | _ => false

/-- The process has given `lk->lk` back to sleep and not been woken. -/
def drowsy : LockPhase → Bool
  | .dozing | .switching | .asleep => true
  | _ => false

/-- `p->state == SLEEPING && p->chan == lk` -/
def sleeping : LockPhase → Bool
  | .switching | .asleep => true
  | _ => false

/-- The process has cleared the flag and not yet woken the waiters. -/
def wakes : LockPhase → Bool
  | .waking | .scanning => true
  | _ => false

/-- What `wakeup1` and `kill` do to a process in this phase. -/
def wake : LockPhase → LockPhase
  | .asleep => .woken
  | phase => phase

variable {phase : LockPhase}

theorem hasInner_of_convinced (h : phase.convinced = true) :
    phase.hasInner = true := by
  cases phase <;> first | rfl | cases h

theorem wake_hasInner (phase : LockPhase) : phase.wake.hasInner = phase.hasInner := by
  cases phase <;> rfl

theorem wake_hasTable (phase : LockPhase) : phase.wake.hasTable = phase.hasTable := by
  cases phase <;> rfl

theorem wake_owns (phase : LockPhase) : phase.wake.owns = phase.owns := by
  cases phase <;> rfl

theorem wake_convinced (phase : LockPhase) : phase.wake.convinced = phase.convinced := by
  cases phase <;> rfl

theorem taking_of_wake (h : phase.wake = .taking) : phase = .taking := by
  cases phase <;> first | rfl | cases h

/-- Whoever is on the way to sleep and cannot be woken has `ptable.lock`. -/
theorem hasTable_of_wake_drowsy (h : phase.wake.drowsy = true) :
    phase.hasTable = true := by
  cases phase <;> first | rfl | cases h

theorem drowsy_of_wake (h : phase.wake.drowsy = true) :
    phase.drowsy = true := by
  cases phase <;> first | rfl | cases h

theorem wake_wakes (h : phase.wakes = true) : phase.wake.wakes = true := by
  cases phase <;> first | rfl | cases h

theorem drowsy_of_sleeping (h : phase.sleeping = true) :
    phase.drowsy = true := by
  cases phase <;> first | rfl | cases h

theorem hasInner_of_wakes (h : phase.wakes = true) : phase.hasInner = true := by
  cases phase <;> first | rfl | cases h

end LockPhase

/-- A sleep lock with its processes.  `ptable.lock` is held by a process at one of the phases above,
by a scheduler or `kill` (`some none`), or by nobody. -/
structure SleepLock (ι : Type) where
  locked : Bool
  pid : Word
  inner : Option ι
  table : Option (Option ι)
  phases : ι → LockPhase
  pids : ι → Word
  /-- What `holdingsleep` has returned last. -/
  answers : ι → Bool

inductive SleepAct (ι : Type)
  | acquiresleep (p : ι)
  | releasesleep (p : ι)
  | holdingsleep (p : ι)
  /-- The next step of a process inside one of these calls. -/
  | run (p : ι)
  /-- A scheduler, or `kill`, takes `ptable.lock` and gives it back. -/
  | lockTable
  | unlockTable
  | kill (p : ι)
  /-- A scheduler switches to a process, which comes back from `sched` with `ptable.lock`. -/
  | dispatch (p : ι)

namespace SleepLock

variable {ι : Type}

/-- `initsleeplock` -/
def initsleeplock (pids : ι → Word) : SleepLock ι where
  locked := false
  pid := 0
  inner := none
  table := none
  phases := fun _ ↦ .idle
  pids := pids
  answers := fun _ ↦ false

variable [DecidableEq ι]

def goto (s : SleepLock ι) (p : ι) (phase : LockPhase) : SleepLock ι :=
  { s with phases := update s.phases p phase }

/-- `acquire` and `release` of the spin lock of the sleep lock. -/
def acquireInner (s : SleepLock ι) (p : ι) : Option (SleepLock ι) :=
  if s.inner = none then some { s with inner := some p } else none

def releaseInner (s : SleepLock ι) : SleepLock ι := { s with inner := none }

/-- `acquire` and `release` of `ptable.lock`. -/
def acquireTable (s : SleepLock ι) (p : Option ι) : Option (SleepLock ι) :=
  if s.table = none then some { s with table := some p } else none

def releaseTable (s : SleepLock ι) : SleepLock ι := { s with table := none }

/-- The next step of a process; none if it waits for a lock, or to be woken or called. -/
def advance (s : SleepLock ι) (p : ι) : Option (SleepLock ι) :=
  match s.phases p with
  | .locking => (s.acquireInner p).map (·.goto p .testing)
  | .testing => some (s.goto p (if s.locked then .entering else .taking))
  | .entering => (s.acquireTable (some p)).map (·.goto p .handing)
  | .handing => some (s.releaseInner.goto p .dozing)
  | .dozing => some (s.goto p .switching)
  -- the scheduler on this CPU has the lock now
  | .switching => some ({ s with table := some none }.goto p .asleep)
  | .resuming => some (s.releaseTable.goto p .locking)
  | .taking => some ({ s with locked := true, pid := s.pids p }.goto p .taken)
  | .taken => some (s.releaseInner.goto p .holding)
  | .releasing => (s.acquireInner p).map (·.goto p .clearing)
  | .clearing => some ({ s with locked := false, pid := 0 }.goto p .waking)
  | .waking => (s.acquireTable (some p)).map (·.goto p .scanning)
  | .scanning => some ({ s with phases := fun q ↦ (s.phases q).wake }.goto p .scanned)
  | .scanned => some (s.releaseTable.goto p .leaving)
  | .leaving => some (s.releaseInner.goto p .idle)
  | .asking owner => (s.acquireInner p).map (·.goto p (.peeking owner))
  | .peeking owner =>
    let r := s.locked && s.pid == s.pids p
    some ({ s.releaseInner with answers := update s.answers p r }.goto p
      (if owner then .holding else .idle))
  | .idle | .asleep | .woken | .holding => none

def step (s : SleepLock ι) : SleepAct ι → Option (SleepLock ι)
  | .acquiresleep p => if s.phases p = .idle then some (s.goto p .locking) else none
  | .releasesleep p => if s.phases p = .holding then some (s.goto p .releasing) else none
  | .holdingsleep p =>
    if s.phases p = .idle then some (s.goto p (.asking false))
    else if s.phases p = .holding then some (s.goto p (.asking true))
    else none
  | .run p => s.advance p
  | .lockTable => s.acquireTable none
  | .unlockTable => if s.table = some none then some s.releaseTable else none
  | .kill p => if s.table = some none then some (s.goto p (s.phases p).wake) else none
  | .dispatch p =>
    if s.table = some none ∧ s.phases p = .woken then
      some ({ s with table := some (some p) }.goto p .resuming)
    else none

/-! ## What holds all along -/

/-- The locks are where the phases say, and a process that is about to sleep or sleeps on a lock
that is free will be woken: somebody has cleared the flag and is on the way to `wakeup1`. -/
structure Sound (s : SleepLock ι) : Prop where
  inner : Held LockPhase.hasInner s.phases s.inner
  table : Held LockPhase.hasTable s.phases s.table.join
  owner : ∃ owner, Held LockPhase.owns s.phases owner ∧ s.locked = owner.isSome
  taking : ∀ p, s.phases p = .taking → s.locked = false
  tested : ∀ p, (s.phases p).convinced = true → s.locked = true
  noLost : ∀ p, (s.phases p).drowsy = true → s.locked = false → ∃ q, (s.phases q).wakes = true

omit [DecidableEq ι] in
theorem sound_initsleeplock (pids : ι → Word) : (initsleeplock pids).Sound where
  inner := .nobody fun _ ↦ rfl
  table := .nobody fun _ ↦ rfl
  owner := ⟨none, .nobody fun _ ↦ rfl, rfl⟩
  taking p h := by cases h
  tested p h := by cases h
  noLost p h := by cases h

variable {s t : SleepLock ι} {p : ι} {here next : LockPhase}

omit [DecidableEq ι] in
theorem acquireInner_eq (h : s.acquireInner p = some t) :
    s.inner = none ∧ t = { s with inner := some p } := by
  obtain ⟨hfree, hnext⟩ := ite_none_right_eq_some.mp h
  exact ⟨hfree, (Option.some.inj hnext).symm⟩

omit [DecidableEq ι] in
theorem acquireTable_eq {who : Option ι} (h : s.acquireTable who = some t) :
    s.table = none ∧ t = { s with table := some who } := by
  obtain ⟨hfree, hnext⟩ := ite_none_right_eq_some.mp h
  exact ⟨hfree, (Option.some.inj hnext).symm⟩

section

variable (h : s.Sound)
include h

section

variable (hp : s.phases p = here)
include hp

/-- A process moves from one phase to the next and the flag stays as it is.  What is left to see is
that the two spin locks have moved with the process and that the flag justifies the new phase. -/
theorem Sound.move {inner : Option ι} {table : Option (Option ι)} {answers : ι → Bool}
    (hinner : Held hasInner (update s.phases p next) inner)
    (htable : Held hasTable (update s.phases p next) table.join)
    (howns : next.owns = here.owns) (htaking : next = .taking → s.locked = false)
    (htested : next.convinced = true → here.convinced = true ∨ s.locked = true)
    (hdrowsy : next.drowsy = true → here.drowsy = true ∨ s.locked = true)
    (hwakes : here.wakes = true → next.wakes = true) :
    (({ s with inner, table, answers } : SleepLock ι).goto p next).Sound where
  inner := hinner
  table := htable
  owner := by
    obtain ⟨owner, howner, hflag⟩ := h.owner
    exact ⟨owner, howner.keep (howns.trans (congrArg _ hp.symm)), hflag⟩
  taking q hq := by
    change update s.phases p next q = .taking at hq
    by_cases hqp : q = p
    · rw [hqp, update_self] at hq
      exact htaking hq
    · rw [update_of_ne hqp] at hq
      exact h.taking q hq
  tested q hq := by
    change (update s.phases p next q).convinced = true at hq
    change s.locked = true
    by_cases hqp : q = p
    · grind [update_apply, h.tested]
    · rw [update_of_ne hqp] at hq
      exact h.tested q hq
  noLost q hq hfree := by
    change (update s.phases p next q).drowsy = true at hq
    change s.locked = false at hfree
    change ∃ r, (update s.phases p next r).wakes = true
    have hbefore : ∃ r, (s.phases r).drowsy = true := by grind
    obtain ⟨r, hr⟩ := hbefore
    obtain ⟨waker, hwaker⟩ := h.noLost r hr hfree
    refine ⟨waker, ?_⟩
    by_cases hwp : waker = p
    · rw [hwp] at hwaker ⊢
      rw [update_self]
      exact hwakes (hp ▸ hwaker)
    · rw [update_of_ne hwp]
      exact hwaker

/-! ### The spin locks -/

theorem Sound.keepInner (hsame : next.hasInner = here.hasInner) :
    Held hasInner (update s.phases p next) s.inner :=
  h.inner.keep (hsame.trans (congrArg _ hp.symm))

theorem Sound.keepTable (hsame : next.hasTable = here.hasTable) :
    Held hasTable (update s.phases p next) s.table.join :=
  h.table.keep (hsame.trans (congrArg _ hp.symm))

theorem Sound.giveInner (hhas : here.hasInner = true) (hnext : next.hasInner = false) :
    Held hasInner (update s.phases p next) none :=
  h.inner.release (hp ▸ hhas) hnext

theorem Sound.giveTable (hhas : here.hasTable = true) (hnext : next.hasTable = false) :
    Held hasTable (update s.phases p next) none :=
  h.table.release (hp ▸ hhas) hnext

end

theorem Sound.takeTable (hfree : s.table.join = none) (hnext : next.hasTable = true) :
    Held hasTable (update s.phases p next) (some p) := by
  have htable := h.table
  rw [hfree] at htable
  exact htable.acquire hnext

/-- Wait for the spin lock of the sleep lock. -/
theorem Sound.acquireInner (hp : s.phases p = here)
    (hstep : (s.acquireInner p).map (·.goto p next) = some t) (hnext : next.hasInner = true)
    (hsame : next.hasTable = here.hasTable) (howns : next.owns = here.owns)
    (htaking : next ≠ .taking) (htested : next.convinced = false) (hdrowsy : next.drowsy = false)
    (hwakes : here.wakes = false) : t.Sound := by
  obtain ⟨u, hu, rfl⟩ := map_eq_some_iff.mp hstep
  obtain ⟨hfree, rfl⟩ := acquireInner_eq hu
  have hinner := h.inner
  rw [hfree] at hinner
  refine h.move hp (hinner.acquire hnext) (h.keepTable hp hsame) howns ?_ ?_ ?_ ?_
  · exact fun heq ↦ absurd heq htaking
  · exact fun hset ↦ absurd (htested.symm.trans hset) Bool.false_ne_true
  · exact fun hset ↦ absurd (hdrowsy.symm.trans hset) Bool.false_ne_true
  · exact fun hset ↦ absurd (hwakes.symm.trans hset) Bool.false_ne_true

/-- Wait for `ptable.lock`. -/
theorem Sound.acquireTable (hp : s.phases p = here)
    (hstep : (s.acquireTable (some p)).map (·.goto p next) = some t) (hnext : next.hasTable = true)
    (hsame : next.hasInner = here.hasInner) (howns : next.owns = here.owns)
    (htaking : next ≠ .taking) (htested : next.convinced = here.convinced)
    (hdrowsy : next.drowsy = false) (hwakes : next.wakes = here.wakes) : t.Sound := by
  obtain ⟨u, hu, rfl⟩ := map_eq_some_iff.mp hstep
  obtain ⟨hfree, rfl⟩ := acquireTable_eq hu
  have htable : s.table.join = none := by rw [hfree]; rfl
  refine h.move hp (h.keepInner hp hsame) (h.takeTable htable hnext) howns ?_ ?_ ?_ ?_
  · exact fun heq ↦ absurd heq htaking
  · exact fun hset ↦ .inl (htested ▸ hset)
  · exact fun hset ↦ absurd (hdrowsy.symm.trans hset) Bool.false_ne_true
  · exact fun hset ↦ hwakes ▸ hset

/-! ### The steps -/

/-- `while (lk->locked)` -/
theorem Sound.test (hp : s.phases p = .testing) :
    (s.goto p (if s.locked then .entering else .taking)).Sound := by
  cases hlocked : s.locked with
  | true =>
    exact h.move hp (h.keepInner hp rfl) (h.keepTable hp rfl) rfl nofun
      (fun _ ↦ .inr hlocked) nofun nofun
  | false =>
    exact h.move hp (h.keepInner hp rfl) (h.keepTable hp rfl) rfl (fun _ ↦ hlocked)
      nofun nofun nofun

/-- `lk->locked = 1`: nobody else has tested the flag, since the process has `lk->lk`. -/
theorem Sound.take (hp : s.phases p = .taking) (pid : Word) :
    ({ s with locked := true, pid := pid }.goto p .taken).Sound where
  inner := h.keepInner hp rfl
  table := h.keepTable hp rfl
  owner := by
    obtain ⟨owner, howner, hflag⟩ := h.owner
    rw [h.taking p hp] at hflag
    have hnone : owner = none := isSome_eq_false_iff.mp hflag.symm |> isNone_iff_eq_none.mp
    rw [hnone] at howner
    exact ⟨some p, howner.acquire rfl, rfl⟩
  taking q hq := by
    change update s.phases p .taken q = .taking at hq
    by_cases hqp : q = p
    · rw [hqp, update_self] at hq
      cases hq
    · rw [update_of_ne hqp] at hq
      have hsame : q = p := h.inner.unique (by rw [hq]; rfl) (by rw [hp]; rfl)
      exact absurd hsame hqp
  tested _ _ := rfl
  noLost _ _ hfree := by cases hfree

/-- `lk->locked = 0`: the process itself is on the way to `wakeup1`. -/
theorem Sound.clear (hp : s.phases p = .clearing) (pid : Word) :
    ({ s with locked := false, pid := pid }.goto p .waking).Sound where
  inner := h.keepInner hp rfl
  table := h.keepTable hp rfl
  owner := by
    obtain ⟨owner, howner, -⟩ := h.owner
    exact ⟨none, howner.release (by rw [hp]; rfl) rfl, rfl⟩
  taking _ _ := rfl
  tested q hq := by
    change (update s.phases p .waking q).convinced = true at hq
    by_cases hqp : q = p
    · rw [hqp, update_self] at hq
      cases hq
    · rw [update_of_ne hqp] at hq
      have hsame : q = p := h.inner.unique (hasInner_of_convinced hq) (by rw [hp]; rfl)
      exact absurd hsame hqp
  noLost _ _ _ := by
    refine ⟨p, ?_⟩
    change (update s.phases p .waking p).wakes = true
    rw [update_self]
    rfl

/-- `wakeup1`: nobody else has `ptable.lock`, so whoever is on the way to sleep is asleep. -/
theorem Sound.scan (hp : s.phases p = .scanning) :
    ({ s with phases := fun q ↦ (s.phases q).wake }.goto p .scanned).Sound := by
  have hphase : (s.phases p).wake = .scanning := by rw [hp]; rfl
  have hwoken : ∀ q, ((update (fun q ↦ (s.phases q).wake) p .scanned) q).drowsy = false := by
    intro q
    by_cases hqp : q = p
    · rw [hqp, update_self]
      rfl
    · rw [update_of_ne hqp, ← Bool.not_eq_true]
      intro hdrowsy
      have htable := hasTable_of_wake_drowsy hdrowsy
      exact hqp (h.table.unique htable (by rw [hp]; rfl))
  refine {
    inner := (h.inner.congr fun q ↦ wake_hasInner _).keep (by rw [hphase]; rfl)
    table := (h.table.congr fun q ↦ wake_hasTable _).keep (by rw [hphase]; rfl)
    owner := ?owner
    taking := ?taking
    tested := ?tested
    noLost := ?noLost }
  case owner =>
    obtain ⟨owner, howner, hflag⟩ := h.owner
    exact ⟨owner, (howner.congr fun q ↦ wake_owns _).keep (by rw [hphase]; rfl), hflag⟩
  case taking =>
    intro q hq
    change update (fun q ↦ (s.phases q).wake) p .scanned q = .taking at hq
    by_cases hqp : q = p
    · rw [hqp, update_self] at hq
      cases hq
    · rw [update_of_ne hqp] at hq
      exact h.taking q (taking_of_wake hq)
  case tested =>
    intro q hq
    change (update (fun q ↦ (s.phases q).wake) p .scanned q).convinced = true at hq
    by_cases hqp : q = p
    · rw [hqp, update_self] at hq
      cases hq
    · rw [update_of_ne hqp, wake_convinced] at hq
      exact h.tested q hq
  case noLost =>
    intro q hq
    have hcontra := (hwoken q).symm.trans hq
    cases hcontra

theorem Sound.advance (hstep : s.advance p = some t) : t.Sound := by
  unfold SleepLock.advance at hstep
  generalize hp : s.phases p = here at hstep
  cases here with
  | idle | asleep | woken | holding => cases hstep
  | locking | releasing =>
    exact h.acquireInner hp hstep rfl rfl rfl nofun rfl rfl rfl
  | asking owner =>
    cases owner with
    | true | false => exact h.acquireInner hp hstep rfl rfl rfl nofun rfl rfl rfl
  | entering | waking =>
    exact h.acquireTable hp hstep rfl rfl rfl nofun rfl rfl rfl
  | testing =>
    cases hstep
    exact h.test hp
  | taking =>
    cases hstep
    exact h.take hp _
  | clearing =>
    cases hstep
    exact h.clear hp _
  | scanning =>
    cases hstep
    exact h.scan hp
  | handing =>
    cases hstep
    have hlocked : s.locked = true := h.tested p (by rw [hp]; rfl)
    exact h.move hp (h.giveInner hp rfl rfl) (h.keepTable hp rfl) rfl nofun nofun
      (fun _ ↦ .inr hlocked) nofun
  | dozing =>
    cases hstep
    exact h.move hp (h.keepInner hp rfl) (h.keepTable hp rfl) rfl nofun nofun
      (fun _ ↦ .inl rfl) nofun
  | switching =>
    cases hstep
    exact h.move hp (h.keepInner hp rfl) (h.giveTable hp rfl rfl) rfl nofun nofun
      (fun _ ↦ .inl rfl) nofun
  | resuming | scanned =>
    cases hstep
    exact h.move hp (h.keepInner hp rfl) (h.giveTable hp rfl rfl) rfl nofun nofun nofun nofun
  | taken | leaving =>
    cases hstep
    exact h.move hp (h.giveInner hp rfl rfl) (h.keepTable hp rfl) rfl nofun nofun nofun nofun
  | peeking owner =>
    cases hstep
    cases owner with
    | true | false =>
      exact h.move hp (h.giveInner hp rfl rfl) (h.keepTable hp rfl) rfl nofun nofun nofun nofun

/-- A spurious wakeup. -/
theorem Sound.kill (p : ι) : (s.goto p (s.phases p).wake).Sound := by
  refine h.move rfl (h.keepInner rfl (wake_hasInner _))
    (h.keepTable rfl (wake_hasTable _)) (wake_owns _) ?_ ?_ ?_ ?_
  · exact fun heq ↦ h.taking p (taking_of_wake heq)
  · exact fun hset ↦ .inl (wake_convinced _ ▸ hset)
  · exact fun hset ↦ .inl (drowsy_of_wake hset)
  · exact wake_wakes

omit [DecidableEq ι] in
/-- `ptable.lock` changes hands between nobody and the schedulers. -/
theorem Sound.setTable {table : Option (Option ι)} (hbefore : s.table.join = none)
    (hafter : table.join = none) : ({ s with table := table }).Sound := by
  refine { h with table := ?_ }
  have htable := h.table
  rw [hbefore] at htable
  change Held hasTable s.phases table.join
  rw [hafter]
  exact htable

theorem Sound.step {a : SleepAct ι} (hstep : s.step a = some t) : t.Sound := by
  cases a with
  | acquiresleep p | releasesleep p =>
    obtain ⟨hp, rfl⟩ := ite_some_none_eq_some.mp hstep
    exact h.move hp (h.keepInner hp rfl) (h.keepTable hp rfl) rfl nofun nofun nofun nofun
  | holdingsleep p =>
    unfold SleepLock.step at hstep
    dsimp only at hstep
    by_cases hidle : s.phases p = .idle
    · rw [if_pos hidle] at hstep
      cases hstep
      exact h.move hidle (h.keepInner hidle rfl) (h.keepTable hidle rfl) rfl nofun nofun
        nofun nofun
    · rw [if_neg hidle] at hstep
      obtain ⟨hp, rfl⟩ := ite_some_none_eq_some.mp hstep
      exact h.move hp (h.keepInner hp rfl) (h.keepTable hp rfl) rfl nofun nofun nofun nofun
  | run p => exact h.advance hstep
  | lockTable =>
    obtain ⟨hfree, rfl⟩ := acquireTable_eq hstep
    exact h.setTable (by rw [hfree]; rfl) rfl
  | unlockTable =>
    obtain ⟨hother, rfl⟩ := ite_some_none_eq_some.mp hstep
    exact h.setTable (by rw [hother]; rfl) rfl
  | kill p =>
    obtain ⟨-, rfl⟩ := ite_some_none_eq_some.mp hstep
    exact h.kill p
  | dispatch p =>
    obtain ⟨⟨hother, hp⟩, rfl⟩ := ite_some_none_eq_some.mp hstep
    have htable : s.table.join = none := by rw [hother]; rfl
    exact h.move hp (h.keepInner hp rfl) (h.takeTable htable rfl) rfl nofun nofun nofun nofun

end

theorem Sound.of_reaches (h : Runs.Reaches SleepLock.step Runs.unguarded s t) (hs : s.Sound) :
    t.Sound :=
  h.invariant hs fun _ _ _ hu _ hstep ↦ hu.step hstep

end SleepLock

/-- Sleep locks exclude and lose no wakeup: in every state of every run at most one process is
between a completed `acquiresleep` and its `releasesleep`, and nobody sleeps on a lock that is free
while its spin lock is free. -/
theorem sleeplock_excludes {ι : Type} [DecidableEq ι] {pids : ι → Word} {s : SleepLock ι}
    (h : Runs.Reaches SleepLock.step Runs.unguarded (SleepLock.initsleeplock pids) s) :
    (∀ p q, (s.phases p).owns = true → (s.phases q).owns = true → p = q) ∧
    ¬ (s.locked = false ∧ s.inner = none ∧ ∃ p, (s.phases p).sleeping = true) := by
  have hsound : s.Sound := SleepLock.Sound.of_reaches h (SleepLock.sound_initsleeplock pids)
  constructor
  · intro p q hp hq
    obtain ⟨owner, howner, -⟩ := hsound.owner
    exact howner.unique hp hq
  · rintro ⟨hfree, hinner, p, hp⟩
    obtain ⟨q, hq⟩ := hsound.noLost p (drowsy_of_sleeping hp) hfree
    have hholder := (hsound.inner q).mpr (hasInner_of_wakes hq)
    rw [hinner] at hholder
    cases hholder

/-- A process takes the lock, a second one goes to sleep on it, and the first one gives it back. -/
def handOver : List (SleepAct Bool) :=
  [.acquiresleep false] ++ List.replicate 4 (.run false) ++ [.acquiresleep true] ++
    List.replicate 6 (.run true) ++ [.unlockTable, .releasesleep false, .run false, .run false]

theorem sleeplock_excludes_handOver :
    let s := (Runs.run SleepLock.step handOver (SleepLock.initsleeplock fun _ ↦ 1)).get (by decide)
    (s.phases true).sleeping = true ∧ s.locked = false ∧ s.inner ≠ none :=
  ⟨by decide, by decide, fun hinner ↦ (sleeplock_excludes
    (Runs.reaches_of_run (Option.some_get _).symm)).2 ⟨by decide, hinner, true, by decide⟩⟩

end Xv6Mmap.Sched
