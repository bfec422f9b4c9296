import Xv6Mmap.Kernel.Word
import Xv6Mmap.Library.Runs
import Mathlib.Data.List.FinRange

/-!
# The process table

`proc.c`: the slots of `ptable` under `fork`, `exit`, `wait`, `sleep`, `wakeup`, `kill` and the
scheduler.  A step is a critical section under `ptable.lock`, or one of the stores that `allocproc`
and `fork` make without it.  `fork` is four of these steps: it takes a slot, sets the parent of the
new process and makes it runnable, or gives the slot back when it runs out of memory.
-/

namespace Xv6Mmap

open Function Library List

/-- A process that has been made runnable and has not exited. -/
def ProcState.alive : ProcState → Bool
  | .sleeping | .runnable | .running => true
  | _ => false

namespace Sched

def nProc : ℕ := 64

instance : NeZero nProc := ⟨by decide⟩

/-- What a process sleeps on: `wait` sleeps on the address of the process itself. -/
inductive Chan
  | proc (i : Fin nProc)
  | other (addr : Word)
  deriving DecidableEq

/-- The fields of a `struct proc` that these functions use; a null pointer is `none`. -/
structure Slot where
  state : ProcState
  pid : Word
  parent : Option (Fin nProc)
  killed : Bool
  chan : Option Chan

namespace Slot

/-- A slot that has never been used. -/
def blank : Slot where
  state := .unused
  pid := 0
  parent := none
  killed := false
  chan := none

/-- What `wakeup1(chan)` does to a slot. -/
def wake (chan : Option Chan) (slot : Slot) : Slot :=
  if slot.state = .sleeping ∧ slot.chan = chan then { slot with state := .runnable } else slot

end Slot

/-- Where a process is in `fork` and `wait`. -/
inductive ProcPhase
  | user
  /-- In `fork`, with the slot of the new process. -/
  | forking (np : Fin nProc)
  /-- In `fork`, the parent of the new process is set. -/
  | forked (np : Fin nProc)
  /-- In the loop of `wait`, having slept. -/
  | waiting
  deriving DecidableEq

/-- The slot that a process is about to fill. -/
def ProcPhase.child : ProcPhase → Option (Fin nProc)
  | .forking np | .forked np => some np
  | .user | .waiting => none

abbrev Slots := Fin nProc → Slot

/-- `wakeup1` -/
def wakeup1 (chan : Option Chan) (slots : Slots) : Slots := fun i ↦ (slots i).wake chan

/-- One round of the loop of `exit` that passes abandoned children to init. -/
def adopt (curproc initproc : Fin nProc) (slots : Slots) (i : Fin nProc) : Slots :=
  if (slots i).parent = some curproc then
    let slots := update slots i { slots i with parent := some initproc }
    if (slots i).state = .zombie then wakeup1 (some (.proc initproc)) slots else slots
  else slots

/-- The whole loop. -/
@[irreducible] def reparent (curproc initproc : Fin nProc) (slots : Slots) : Slots :=
  (List.finRange nProc).foldl (adopt curproc initproc) slots

/-- The table, where its processes are, and the histories: the calls of `fork`, the processes that
`kill` or a fault has been aimed at since they got their pid, and the pids that `wait` returned. -/
structure ProcTable where
  slots : Slots
  nextpid : Word
  initproc : Fin nProc
  phases : Fin nProc → ProcPhase
  forks : ℕ
  targeted : Fin nProc → Bool
  reaped : List Word

inductive ProcAct
  | fork (p : Fin nProc)
  | forkFail (p : Fin nProc)
  | forkParent (p : Fin nProc)
  | forkRun (p : Fin nProc)
  | exit (p : Fin nProc)
  | wait (p : Fin nProc)
  | sleep (p : Fin nProc) (chan : Chan)
  | wakeup (chan : Chan)
  | kill (pid : Word)
  /-- The handling of a fault sets `myproc()->killed`. -/
  | fault (p : Fin nProc)
  | yield (p : Fin nProc)
  | schedule (p : Fin nProc)
  deriving DecidableEq

namespace ProcTable

/-- The table when the schedulers start: `userinit` has made the first process. -/
def boot : ProcTable where
  slots := update (fun _ ↦ Slot.blank) 0 { Slot.blank with state := .runnable, pid := 1 }
  nextpid := 2
  initproc := 0
  phases := fun _ ↦ .user
  forks := 0
  targeted := fun _ ↦ false
  reaped := []

def setSlot (t : ProcTable) (i : Fin nProc) (slot : Slot) : ProcTable :=
  { t with slots := update t.slots i slot }

def setState (t : ProcTable) (i : Fin nProc) (state : ProcState) : ProcTable :=
  t.setSlot i { t.slots i with state := state }

def setPhase (t : ProcTable) (p : Fin nProc) (phase : ProcPhase) : ProcTable :=
  { t with phases := update t.phases p phase }

/-- The loops over the table stop at the first slot they look for. -/
def find (t : ProcTable) (test : Slot → Bool) : Option (Fin nProc) :=
  (List.finRange nProc).find? fun i ↦ test (t.slots i)

/-- `allocproc`, up to the release of the lock: the new slot keeps the rest of what it held. -/
def allocproc (t : ProcTable) (p : Fin nProc) : ProcTable :=
  match t.find (·.state == .unused) with
  | none => t
  | some np =>
    { t.setSlot np { t.slots np with state := .embryo, pid := t.nextpid } with
      nextpid := t.nextpid + 1
      phases := update (update t.phases np .user) p (.forking np)
      targeted := update t.targeted np false }

/-- The wakeups and the adoptions of `exit`. -/
def abandon (t : ProcTable) (p : Fin nProc) : Slots :=
  reparent p t.initproc (wakeup1 ((t.slots p).parent.map .proc) t.slots)

/-- `exit`, from the point where it takes the lock. -/
def exit (t : ProcTable) (p : Fin nProc) : ProcTable :=
  ({ t with slots := t.abandon p }).setState p .zombie

/-- A round of the loop of `wait`: it reaps the first zombie among the children, gives up, or goes
to sleep. -/
def wait (t : ProcTable) (p : Fin nProc) : ProcTable :=
  match t.find fun slot ↦ slot.parent == some p && slot.state == .zombie with
  | some c =>
    let slot := t.slots c
    { t.setSlot c { slot with state := .unused, pid := 0, parent := none, killed := false } with
      phases := update t.phases p .user
      reaped := t.reaped ++ [slot.pid] }
  | none =>
    if (t.find fun slot ↦ slot.parent == some p) = none ∨ (t.slots p).killed then
      t.setPhase p .user
    else
      (t.setSlot p { t.slots p with state := .sleeping, chan := some (.proc p) }).setPhase p .waiting

/-- `kill`: the table, and whether a slot with that pid was found. -/
def kill (t : ProcTable) (pid : Word) : ProcTable × Bool :=
  match t.find (·.pid == pid) with
  | none => (t, false)
  | some i =>
    let slot := t.slots i
    let state := if slot.state = .sleeping then .runnable else slot.state
    (t.setSlot i { slot with killed := true, state := state }, true)

/-- A step; the process that takes it is running. -/
def step (t : ProcTable) : ProcAct → Option ProcTable
  | .fork p =>
    if (t.slots p).state = .running ∧ t.phases p = .user then
      some { t.allocproc p with forks := t.forks + 1 }
    else none
  | .forkFail p =>
    match t.phases p with
    | .forking np =>
      if (t.slots p).state = .running then some ((t.setState np .unused).setPhase p .user) else none
    | _ => none
  | .forkParent p =>
    match t.phases p with
    | .forking np =>
      if (t.slots p).state = .running then
        some ((t.setSlot np { t.slots np with parent := some p }).setPhase p (.forked np))
      else none
    | _ => none
  | .forkRun p =>
    match t.phases p with
    | .forked np =>
      if (t.slots p).state = .running then some ((t.setState np .runnable).setPhase p .user)
      else none
    | _ => none
  | .exit p =>
    if (t.slots p).state = .running ∧ t.phases p = .user ∧ p ≠ t.initproc then some (t.exit p)
    else none
  | .wait p =>
    if (t.slots p).state = .running ∧ (t.phases p = .user ∨ t.phases p = .waiting) then
      some (t.wait p)
    else none
  | .sleep p chan =>
    if (t.slots p).state = .running ∧ t.phases p ≠ .waiting then
      some (t.setSlot p { t.slots p with state := .sleeping, chan := some chan })
    else none
  | .wakeup chan => some { t with slots := wakeup1 (some chan) t.slots }
  | .kill pid =>
    some { (t.kill pid).1 with targeted := fun i ↦ t.targeted i || (t.slots i).pid == pid }
  | .fault p =>
    if (t.slots p).state = .running then
      some { t.setSlot p { t.slots p with killed := true } with
        targeted := update t.targeted p true }
    else none
  | .yield p => if (t.slots p).state = .running then some (t.setState p .runnable) else none
  | .schedule p =>
    if (t.slots p).state = .runnable then
      some (t.setSlot p { t.slots p with state := .running, chan := none })
    else none

end ProcTable

/-! ## Waking and adopting -/

/-- A slot after some wakeups: a sleeper may have become runnable. -/
@[grind cases]
structure Slot.Stirs (slot slot' : Slot) : Prop where
  pid : slot'.pid = slot.pid
  killed : slot'.killed = slot.killed
  chan : slot'.chan = slot.chan
  state : slot'.state = slot.state ∨ slot.state = .sleeping ∧ slot'.state = .runnable

namespace Slot.Stirs

variable {a b c : Slot}

theorem refl (a : Slot) : a.Stirs a := ⟨rfl, rfl, rfl, .inl rfl⟩

theorem trans (hab : a.Stirs b) (hbc : b.Stirs c) : a.Stirs c where
  pid := hbc.pid.trans hab.pid
  killed := hbc.killed.trans hab.killed
  chan := hbc.chan.trans hab.chan
  state := by grind

theorem wake (a : Slot) (chan : Option Chan) : a.Stirs (a.wake chan) := by
  unfold Slot.wake
  split
  · rename_i hsleeps
    exact ⟨rfl, rfl, rfl, .inr ⟨hsleeps.1, rfl⟩⟩
  · exact refl a

theorem alive (h : a.Stirs b) : b.state.alive = a.state.alive := by
  rcases h.state with hsame | ⟨hsleeps, hruns⟩
  · rw [hsame]
  · rw [hsleeps, hruns]
    rfl

/-- A state other than the two is not changed. -/
theorem state_iff (h : a.Stirs b) {state : ProcState} (hsleeping : state ≠ .sleeping)
    (hrunnable : state ≠ .runnable) : b.state = state ↔ a.state = state := by grind

theorem sleeping (h : a.Stirs b) (hsleeps : b.state = .sleeping) : a.state = .sleeping := by
  rcases h.state with hsame | ⟨hbefore, -⟩
  · exact hsame ▸ hsleeps
  · exact hbefore

end Slot.Stirs

theorem Slot.parent_wake (slot : Slot) (chan : Option Chan) :
    (slot.wake chan).parent = slot.parent := by
  unfold Slot.wake
  split <;> rfl

/-- Nobody sleeps on a channel. -/
def Awake (chan : Chan) (slots : Slots) : Prop :=
  ∀ i, (slots i).state = .sleeping → (slots i).chan ≠ some chan

theorem awake_wakeup1 (chan : Chan) (slots : Slots) : Awake chan (wakeup1 (some chan) slots) := by
  intro i hsleeps hchan
  have hbefore : (slots i).state = .sleeping ∧ (slots i).chan = some chan := by
    have hstirs := Slot.Stirs.wake (slots i) (some chan)
    exact ⟨hstirs.sleeping hsleeps, hstirs.chan ▸ hchan⟩
  have hwoken : (wakeup1 (some chan) slots i).state = .runnable := by
    rw [wakeup1, Slot.wake, if_pos hbefore]
  rw [hwoken] at hsleeps
  cases hsleeps

theorem Awake.stirs {chan : Chan} {slots slots' : Slots} (h : Awake chan slots)
    (hstirs : ∀ i, (slots i).Stirs (slots' i)) : Awake chan slots' := by
  intro i hsleeps
  rw [(hstirs i).chan]
  exact h i ((hstirs i).sleeping hsleeps)

section Adopt

variable {p init : Fin nProc} {slots : Slots} {i : Fin nProc}

theorem stirs_adopt (p init : Fin nProc) (slots : Slots) (i j : Fin nProc) :
    (slots j).Stirs (adopt p init slots i j) := by
  unfold adopt
  split
  · have hset : (slots j).Stirs
        (update slots i { slots i with parent := some init } j) := by
      by_cases hji : j = i
      · rw [hji, update_self]
        exact ⟨rfl, rfl, rfl, .inl rfl⟩
      · rw [update_of_ne hji]
        exact .refl _
    dsimp only
    split
    · exact hset.trans (.wake _ _)
    · exact hset
  · exact .refl _

theorem parent_adopt (p init : Fin nProc) (slots : Slots) (i j : Fin nProc) :
    (adopt p init slots i j).parent =
      if j = i ∧ (slots j).parent = some p then some init else (slots j).parent := by
  unfold adopt
  by_cases hparent : (slots i).parent = some p
  · rw [if_pos hparent]
    have hset : (update slots i { slots i with parent := some init } j).parent =
        if j = i ∧ (slots j).parent = some p then some init else (slots j).parent := by grind
    dsimp only
    split
    · rw [wakeup1, Slot.parent_wake]
      exact hset
    · exact hset
  · rw [if_neg hparent, if_neg]
    rintro ⟨rfl, hp⟩
    exact hparent hp

/-- A zombie that is adopted wakes init. -/
theorem awake_adopt (hparent : (slots i).parent = some p)
    (hzombie : (slots i).state = .zombie) : Awake (.proc init) (adopt p init slots i) := by
  unfold adopt
  rw [if_pos hparent]
  dsimp only
  rw [if_pos (by rw [update_self]; exact hzombie)]
  exact awake_wakeup1 _ _

theorem stirs_adoptAll (p init : Fin nProc) (l : List (Fin nProc)) (slots : Slots) (j : Fin nProc) :
    (slots j).Stirs (l.foldl (adopt p init) slots j) := by
  induction l generalizing slots with
  | nil => exact .refl _
  | cons i l ih => exact (stirs_adopt p init slots i j).trans (ih _)

theorem parent_adoptAll (hne : init ≠ p) (l : List (Fin nProc)) (slots : Slots) (j : Fin nProc) :
    (l.foldl (adopt p init) slots j).parent =
      if j ∈ l ∧ (slots j).parent = some p then some init else (slots j).parent := by
  induction l generalizing slots with
  | nil => simp
  | cons i l ih =>
    have hstep := parent_adopt p init slots i j
    by_cases hadopts : j = i ∧ (slots j).parent = some p
    · have hinit : ¬ (j ∈ l ∧ some init = some p) := fun h ↦ hne (Option.some.inj h.2)
      rw [if_pos hadopts] at hstep
      rw [foldl_cons, ih, hstep, if_neg hinit, if_pos ⟨hadopts.1 ▸ mem_cons_self, hadopts.2⟩]
    · rw [if_neg hadopts] at hstep
      rw [foldl_cons, ih, hstep]
      congr 1
      rw [mem_cons, or_and_right, eq_iff_iff]
      exact (or_iff_right hadopts).symm

/-- If a zombie is adopted, nobody sleeps in init's `wait` afterwards. -/
theorem awake_adoptAll {l : List (Fin nProc)} (hmem : i ∈ l)
    (hparent : (slots i).parent = some p) (hzombie : (slots i).state = .zombie) :
    Awake (.proc init) (l.foldl (adopt p init) slots) := by
  induction l generalizing slots with
  | nil => cases hmem
  | cons k l ih =>
    rw [foldl_cons]
    by_cases hik : i = k
    · subst hik
      exact (awake_adopt hparent hzombie).stirs fun j ↦ stirs_adoptAll p init l _ j
    · have hmem' : i ∈ l := (mem_cons.mp hmem).resolve_left hik
      apply ih hmem'
      · rw [parent_adopt, if_neg fun h ↦ hik h.1]
        exact hparent
      · rw [(stirs_adopt p init slots k i).state_iff (by decide) (by decide)]
        exact hzombie

theorem stirs_reparent (p init : Fin nProc) (slots : Slots) (j : Fin nProc) :
    (slots j).Stirs (reparent p init slots j) := by
  unfold reparent
  exact stirs_adoptAll p init (List.finRange nProc) slots j

theorem parent_reparent (hne : init ≠ p) (slots : Slots) (j : Fin nProc) :
    (reparent p init slots j).parent =
      if (slots j).parent = some p then some init else (slots j).parent := by
  have hadopt := parent_adoptAll hne (List.finRange nProc) slots j
  simp only [mem_finRange, true_and] at hadopt
  unfold reparent
  exact hadopt

theorem awake_reparent (hparent : (slots i).parent = some p)
    (hzombie : (slots i).state = .zombie) : Awake (.proc init) (reparent p init slots) := by
  unfold reparent
  exact awake_adoptAll (mem_finRange i) hparent hzombie

end Adopt

namespace ProcTable

variable {t : ProcTable} {test : Slot → Bool} {i p : Fin nProc}

theorem find_some (h : t.find test = some i) : test (t.slots i) = true :=
  List.find?_some (p := fun i ↦ test (t.slots i)) h

theorem find_none (h : t.find test = none) (i : Fin nProc) : test (t.slots i) = false := by
  have hall := List.find?_eq_none.mp h i (mem_finRange i)
  rwa [Bool.not_eq_true] at hall

section

variable (t : ProcTable)

@[grind =] theorem slots_setSlot (i j : Fin nProc) (slot : Slot) :
    (t.setSlot i slot).slots j = if j = i then slot else t.slots j := by
  simp only [setSlot, update_apply]

@[grind =] theorem phases_setPhase (p q : Fin nProc) (phase : ProcPhase) :
    (t.setPhase p phase).phases q = if q = p then phase else t.phases q := by
  simp only [setPhase, update_apply]

@[grind =] theorem phases_setSlot (i p : Fin nProc) (slot : Slot) :
    (t.setSlot i slot).phases p = t.phases p := rfl

@[grind =] theorem slots_setPhase (p i : Fin nProc) (phase : ProcPhase) :
    (t.setPhase p phase).slots i = t.slots i := rfl

@[grind =] theorem initproc_setSlot (i : Fin nProc) (slot : Slot) :
    (t.setSlot i slot).initproc = t.initproc := rfl

@[grind =] theorem nextpid_setSlot (i : Fin nProc) (slot : Slot) :
    (t.setSlot i slot).nextpid = t.nextpid := rfl

@[grind =] theorem reaped_setSlot (i : Fin nProc) (slot : Slot) :
    (t.setSlot i slot).reaped = t.reaped := rfl

@[grind =] theorem initproc_setPhase (p : Fin nProc) (phase : ProcPhase) :
    (t.setPhase p phase).initproc = t.initproc := rfl

@[simp] theorem slots_setSlot_self (i : Fin nProc) (slot : Slot) :
    (t.setSlot i slot).slots i = slot := by
  rw [slots_setSlot, if_pos rfl]

end

theorem slots_setSlot_of_ne {j : Fin nProc} (hj : j ≠ i) (slot : Slot) :
    (t.setSlot i slot).slots j = t.slots j := by
  rw [slots_setSlot, if_neg hj]

@[simp] theorem phases_setPhase_self (t : ProcTable) (p : Fin nProc) (phase : ProcPhase) :
    (t.setPhase p phase).phases p = phase := by
  rw [phases_setPhase, if_pos rfl]

/-! ## What `exit` does to a slot -/

theorem slots_exit_self (t : ProcTable) (p : Fin nProc) :
    (t.exit p).slots p = { t.abandon p p with state := .zombie } := by
  simp only [exit, setState, setSlot, update_self]

theorem slots_exit_of_ne (hip : i ≠ p) : (t.exit p).slots i = t.abandon p i := by
  simp only [exit, setState, setSlot, update_of_ne hip]

theorem stirs_abandon (t : ProcTable) (p i : Fin nProc) : (t.slots i).Stirs (t.abandon p i) :=
  (Slot.Stirs.wake (t.slots i) ((t.slots p).parent.map .proc)).trans
    (stirs_reparent p t.initproc (wakeup1 ((t.slots p).parent.map .proc) t.slots) i)

theorem parent_abandon (hne : t.initproc ≠ p) (i : Fin nProc) :
    (t.abandon p i).parent =
      if (t.slots i).parent = some p then some t.initproc else (t.slots i).parent := by
  rw [abandon, parent_reparent hne]
  simp only [wakeup1, Slot.parent_wake]

end ProcTable

end Sched

end Xv6Mmap
