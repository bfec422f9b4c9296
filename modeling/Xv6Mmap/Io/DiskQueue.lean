import Xv6Mmap.Kernel.Word
import Xv6Mmap.Library.LinkedQueue
import Xv6Mmap.Library.Runs
import Mathlib.Data.Fintype.Card

/-!
# The disk queue

`ide.c`: `iderw` appends its buffer to `idequeue`, a queue linked through the buffers, and sleeps
until the request is done; `ideintr` completes the request at the head and starts the next one.  A
step is a critical section under `idelock`.  The disk raises one interrupt for every request that is
started.  The lists of requests appended, started and completed are kept for the statement.
-/

namespace Xv6Mmap.Io

open Function Library List Option

def fsSize : ℕ := 1000

/-- A `struct buf` without its links and its lock; `δ` is what a block can hold. -/
structure DiskBuf (δ : Type) where
  valid : Bool
  dirty : Bool
  dev : Word
  blockno : Word
  data : δ

namespace DiskBuf

variable {δ : Type}

/-- `(b->flags & (B_VALID|B_DIRTY)) == B_VALID` -/
def synced (b : DiskBuf δ) : Bool := b.valid && !b.dirty

/-- The disk the request is for. -/
def unit (b : DiskBuf δ) : Bool := b.dev.has 1

end DiskBuf

/-- What a process is doing in `iderw`. -/
inductive IdeCaller (β : Type)
  | outside
  /-- Past the checks, about to take `idelock`. -/
  | called (b : β)
  /-- In the waiting loop; asleep on the buffer or about to take `idelock` again. -/
  | waiting (b : β) (asleep : Bool)
  | returned (b : β)
  deriving DecidableEq

variable {asleep : Bool}

namespace IdeCaller

variable {β : Type}

/-- The buffer that the process is inside `iderw` with. -/
def buf : IdeCaller β → Option β
  | .called b | .waiting b _ => some b
  | .outside | .returned _ => none

/-- `wakeup(b)` -/
def wake [DecidableEq β] (b : β) : IdeCaller β → IdeCaller β
  | .waiting c asleep => .waiting c (asleep && c != b)
  | caller => caller

variable [DecidableEq β] {b c : β} {caller : IdeCaller β}

theorem wake_buf : (caller.wake b).buf = caller.buf := by
  cases caller <;> rfl

theorem waiting_of_wake (h : caller.wake b = .waiting c asleep) :
    ∃ asleep', caller = .waiting c asleep' := by
  cases caller with
  | waiting d asleep' =>
    cases h
    exact ⟨asleep', rfl⟩
  | outside | called d | returned d => cases h

theorem called_of_wake (h : caller.wake b = .called c) : caller = .called c := by
  cases caller with
  | called d => exact h
  | waiting d asleep | outside | returned d => cases h

theorem returned_of_wake (h : caller.wake b = .returned c) : caller = .returned c := by
  cases caller with
  | returned d => exact h
  | waiting d asleep | outside | called d => cases h

end IdeCaller

/-- The driver, the buffers with the owners of their sleep locks, and the disks. -/
structure IdeState (ι β δ : Type) where
  bufs : β → DiskBuf δ
  owner : β → Option ι
  links : Links β
  disk : Bool → Word → δ
  havedisk1 : Bool
  /-- The interrupts to come. -/
  pending : ℕ
  callers : ι → IdeCaller β
  appended : List β
  started : List β
  completed : List β

inductive IdeAct (ι β δ : Type)
  | acquiresleep (p : ι) (b : β)
  | releasesleep (p : ι) (b : β)
  /-- Whatever is done to a buffer outside `iderw`. -/
  | modify (b : β) (buf : DiskBuf δ)
  | iderw (p : ι) (b : β)
  | append (p : ι)
  | resume (p : ι)
  /-- An interrupt; the flag says whether `idewait` finds no error. -/
  | ideintr (ok : Bool)
  | kill (p : ι)

namespace IdeState

variable {ι β δ : Type} {p : ι} {b : β}

/-- At boot the queue is empty and no buffer is locked. -/
def boot (bufs : β → DiskBuf δ) (disk : Bool → Word → δ) (havedisk1 : Bool) : IdeState ι β δ where
  bufs := bufs
  owner := fun _ ↦ none
  links := { head := none, next := fun _ ↦ none }
  disk := disk
  havedisk1 := havedisk1
  pending := 0
  callers := fun _ ↦ .outside
  appended := []
  started := []
  completed := []

/-- `idestart`: a block beyond the disk panics; a dirty buffer is written. -/
def idestart (s : IdeState ι β δ) (b : β) : Option (IdeState ι β δ) :=
  let buf := s.bufs b
  if fsSize ≤ buf.blockno.toNat then none
  else
    some { s with
      disk :=
        if buf.dirty then
          update s.disk buf.unit
            (update (s.disk buf.unit) buf.blockno buf.data)
        else s.disk
      pending := s.pending + 1
      started := s.started ++ [b] }

section System

variable [DecidableEq ι] [DecidableEq β]

def setCaller (s : IdeState ι β δ) (p : ι) (caller : IdeCaller β) : IdeState ι β δ :=
  { s with callers := update s.callers p caller }

/-- The owner of a buffer, if it is not inside `iderw` with it, or nobody has it locked. -/
def idle (s : IdeState ι β δ) (b : β) : Bool :=
  match s.owner b with
  | none => true
  | some p => (s.callers p).buf != some b

/-- The waiting loop of `iderw`. -/
def await (s : IdeState ι β δ) (p : ι) (b : β) : IdeState ι β δ :=
  if (s.bufs b).synced then s.setCaller p (.returned b) else s.setCaller p (.waiting b true)

/-- Put `b` at the end of `idequeue`; `fuel` bounds the links to follow. -/
def enqueue (s : IdeState ι β δ) (fuel : ℕ) (b : β) : Option (IdeState ι β δ) :=
  let links := { s.links with next := update s.links.next b none }
  (links.lastLink fuel none).map fun link ↦
    { s with
      links := links.write (some b) link
      appended := s.appended ++ [b] }

/-- The first critical section of `iderw`. -/
def appendStep [Fintype β] (s : IdeState ι β δ) (p : ι) (b : β) : Option (IdeState ι β δ) := do
  let s ← s.enqueue (Fintype.card β + 1) b
  let s ← if s.links.head = some b then s.idestart b else some s
  some (s.await p b)

/-- The request at the head is done. -/
def complete (s : IdeState ι β δ) (b : β) (ok : Bool) : IdeState ι β δ :=
  let buf := s.bufs b
  let data := if !buf.dirty && ok then s.disk buf.unit buf.blockno else buf.data
  { s with
    links := { s.links with head := s.links.next b }
    bufs := update s.bufs b { buf with valid := true, dirty := false, data := data }
    callers := fun p ↦ (s.callers p).wake b
    completed := s.completed ++ [b] }

/-- `ideintr` -/
def ideintr (s : IdeState ι β δ) (ok : Bool) : Option (IdeState ι β δ) :=
  let s := { s with pending := s.pending - 1 }
  match s.links.head with
  | none => some s
  | some b =>
    let s := s.complete b ok
    match s.links.head with
    | none => some s
    | some next => s.idestart next

/-- A step; none is taken where the code panics or the process has to wait. -/
def step [Fintype β] (s : IdeState ι β δ) : IdeAct ι β δ → Option (IdeState ι β δ)
  | .acquiresleep p b =>
    if s.owner b = none then some { s with owner := update s.owner b (some p) } else none
  | .releasesleep p b =>
    if s.owner b = some p ∧ (s.callers p).buf ≠ some b then
      some { s with owner := update s.owner b none }
    else none
  | .modify b buf => if s.idle b then some { s with bufs := update s.bufs b buf } else none
  | .iderw p b =>
    if (s.callers p).buf = none ∧ s.owner b = some p ∧ (s.bufs b).synced = false ∧
        ((s.bufs b).dev = 0 ∨ s.havedisk1) then
      some (s.setCaller p (.called b))
    else none
  | .append p =>
    match s.callers p with
    | .called b => s.appendStep p b
    | _ => none
  | .resume p =>
    match s.callers p with
    | .waiting b false => some (s.await p b)
    | _ => none
  | .ideintr ok => if s.pending = 0 then none else s.ideintr ok
  | .kill p =>
    match s.callers p with
    | .waiting b _ => some (s.setCaller p (.waiting b false))
    | _ => some s

end System

/-! ## The queue and its histories -/

/-- The buffers in `idequeue`, in order.  The requests completed are those appended up to the queue,
the requests started go one further, to its head. -/
structure Serves (s : IdeState ι β δ) (queue : List β) : Prop where
  spells : s.links.Spells queue
  nodup : queue.Nodup
  appended : s.appended = s.completed ++ queue
  started : s.started = s.completed ++ queue.head?.toList
  pending : s.pending = queue.head?.toList.length
  owned : ∀ p b, (s.callers p).buf = some b → s.owner b = some p
  queued : ∀ b ∈ queue, (s.bufs b).synced = false ∧ ∃ p asleep, s.callers p = .waiting b asleep
  waiting : ∀ p b asleep, s.callers p = .waiting b asleep → b ∉ queue → (s.bufs b).synced = true
  called : ∀ p b, s.callers p = .called b → (s.bufs b).synced = false

section

variable {s t : IdeState ι β δ} {queue : List β}

theorem serves_boot (bufs : β → DiskBuf δ) (disk : Bool → Word → δ) (havedisk1 : Bool) :
    (boot bufs disk havedisk1 : IdeState ι β δ).Serves [] where
  spells := rfl
  nodup := nodup_nil
  appended := rfl
  started := rfl
  pending := rfl
  owned _ _ h := by cases h
  queued _ h := by cases h
  waiting _ _ _ h := by cases h
  called _ _ h := by cases h

/-- A buffer that a process is about to append is not in the queue: the process would be waiting. -/
theorem Serves.called_notMem (h : s.Serves queue) (hp : s.callers p = .called b) :
    b ∉ queue := by
  intro hmem
  obtain ⟨-, q, asleep, hq⟩ := h.queued b hmem
  have howner_q := h.owned q b (congrArg IdeCaller.buf hq)
  have howner_p := h.owned p b (congrArg IdeCaller.buf hp)
  have hsame : q = p := some.inj (howner_q.symm.trans howner_p)
  rw [hsame, hp] at hq
  cases hq

theorem idestart_eq (h : s.idestart b = some t) :
    ∃ disk, t = { s with
      disk := disk
      pending := s.pending + 1
      started := s.started ++ [b] } := by
  unfold idestart at h
  dsimp only at h
  split at h
  · cases h
  · cases h
    exact ⟨_, rfl⟩

/-- The request is started at once if it is the only one. -/
def startsAtOnce : List β → β → List β
  | [], b => [b]
  | _ :: _, _ => []

theorem head_append (queue : List β) (b : β) :
    (queue ++ [b]).head?.toList = queue.head?.toList ++ startsAtOnce queue b := by
  cases queue with
  | nil | cons c rest => rfl

end

/-! ## What a step does to the callers -/

section Callers

variable [DecidableEq ι] {s t : IdeState ι β δ} {queue : List β} {caller : IdeCaller β}

theorem setCaller_self (s : IdeState ι β δ) (p : ι) (caller : IdeCaller β) :
    (s.setCaller p caller).callers p = caller :=
  update_self ..

theorem setCaller_of_ne {q : ι} (hne : q ≠ p) :
    (s.setCaller p caller).callers q = s.callers q :=
  update_of_ne hne ..

section

variable (h : s.Serves queue)
include h

/-- Nothing but the callers has changed, and the one whose phase did is not in the queue's books. -/
theorem Serves.setCaller (howned : ∀ b, caller.buf = some b → s.owner b = some p)
    (hqueued : ∀ b ∈ queue, ∀ asleep, s.callers p = .waiting b asleep →
      ∃ asleep', caller = .waiting b asleep')
    (hwaiting : ∀ b asleep, caller = .waiting b asleep → b ∉ queue → (s.bufs b).synced = true)
    (hcalled : ∀ b, caller = .called b → (s.bufs b).synced = false) :
    (s.setCaller p caller).Serves queue := by
  refine { h with owned := ?owned, queued := ?queued, waiting := ?waiting, called := ?called }
  case owned =>
    intro q b hq
    by_cases hqp : q = p
    · subst hqp
      rw [setCaller_self] at hq
      exact howned b hq
    · rw [setCaller_of_ne hqp] at hq
      exact h.owned q b hq
  case queued =>
    intro b hb
    obtain ⟨hsynced, q, asleep, hq⟩ := h.queued b hb
    refine ⟨hsynced, q, ?_⟩
    by_cases hqp : q = p
    · subst hqp
      rw [setCaller_self]
      exact hqueued b hb asleep hq
    · rw [setCaller_of_ne hqp]
      exact ⟨asleep, hq⟩
  case waiting =>
    intro q b asleep hq
    by_cases hqp : q = p
    · subst hqp
      rw [setCaller_self] at hq
      exact hwaiting b asleep hq
    · rw [setCaller_of_ne hqp] at hq
      exact h.waiting q b asleep hq
  case called =>
    intro q b hq
    by_cases hqp : q = p
    · subst hqp
      rw [setCaller_self] at hq
      exact hcalled b hq
    · rw [setCaller_of_ne hqp] at hq
      exact h.called q b hq

/-- A process in the waiting loop falls asleep or wakes up. -/
theorem Serves.keep_waiting (hp : s.callers p = .waiting b asleep)
    (asleep' : Bool) : (s.setCaller p (.waiting b asleep')).Serves queue := by
  refine h.setCaller ?_ ?_ ?_ nofun
  · intro c hc
    cases hc
    exact h.owned p b (congrArg IdeCaller.buf hp)
  · intro c hc asleep hwaits
    rw [hp] at hwaits
    cases hwaits
    exact ⟨asleep', rfl⟩
  · intro c asleep hc hmem
    cases hc
    exact h.waiting p b _ hp hmem

theorem Serves.await (hp : s.callers p = .waiting b asleep) :
    (s.await p b).Serves queue := by
  by_cases hsynced : (s.bufs b).synced = true
  · rw [IdeState.await, if_pos hsynced]
    refine h.setCaller nofun ?_ nofun nofun
    grind [h.queued]
  · rw [IdeState.await, if_neg hsynced]
    exact h.keep_waiting hp true

theorem Serves.call (hp : (s.callers p).buf = none) (howner : s.owner b = some p)
    (hsynced : (s.bufs b).synced = false) : (s.setCaller p (.called b)).Serves queue := by
  refine h.setCaller ?_ ?_ nofun ?_
  · intro c hc
    cases hc
    exact howner
  · intro c hc asleep hwaits
    rw [hwaits] at hp
    cases hp
  · intro c hc
    cases hc
    exact hsynced

end

/-- A process that returns from `iderw` in a step has its buffer in step with the disk. -/
def ReturnsSynced (s t : IdeState ι β δ) : Prop :=
  ∀ p b, t.callers p = .returned b → s.callers p = .returned b ∨ (t.bufs b).synced = true

/-- The caller that changes does not return, or has the right to. -/
theorem returnsSynced_of_update (ht : t.callers = update s.callers p caller)
    (hcaller : ∀ b, caller = .returned b → (t.bufs b).synced = true) : ReturnsSynced s t := by
  intro q b hq
  rw [ht] at hq
  by_cases hqp : q = p
  · rw [hqp, update_self] at hq
    exact .inr (hcaller b hq)
  · rw [update_of_ne hqp] at hq
    exact .inl hq

theorem returnsSynced_await (p : ι) (b : β) : ReturnsSynced s (s.await p b) := by
  by_cases hsynced : (s.bufs b).synced = true
  · rw [IdeState.await, if_pos hsynced]
    refine returnsSynced_of_update rfl fun c hc ↦ ?_
    cases hc
    exact hsynced
  · rw [IdeState.await, if_neg hsynced]
    exact returnsSynced_of_update rfl nofun

theorem await_waiting (p : ι) (h : (s.bufs b).synced = false) :
    s.await p b = s.setCaller p (.waiting b true) := by
  rw [await, if_neg (by simp [h])]

end Callers

/-! ## What a step does to the queue and the buffers -/

section Steps

variable [DecidableEq β] {s t : IdeState ι β δ} {queue : List β}

section

variable (h : s.Serves queue)
include h

/-- Nobody is inside `iderw` with an idle buffer. -/
theorem Serves.not_inside (hidle : s.idle b = true) (p : ι) :
    (s.callers p).buf ≠ some b := by
  intro hp
  rw [idle, h.owned p b hp] at hidle
  simp [hp] at hidle

/-- The walk along the links comes to its end, and `b` is linked behind the queue. -/
theorem Serves.enqueue [Fintype β] (hb : b ∉ queue) :
    ∃ links : Links β, links.Spells (queue ++ [b]) ∧
      s.enqueue (Fintype.card β + 1) b =
        some { s with links := links, appended := s.appended ++ [b] } := by
  let links : Links β := { s.links with next := update s.links.next b none }
  have hspells : links.Spells queue := by
    apply Links.From.congr h.spells
    intro c hc
    have hne : c ≠ b := fun heq ↦ hb (heq ▸ hc)
    exact update_of_ne hne none s.links.next
  have hlast := Links.lastLink_eq (q := links) none hspells
    (Nat.lt_succ_of_le h.nodup.length_le_card)
  rw [or_none] at hlast
  refine ⟨links.write (some b) queue.getLast?, ?_, ?_⟩
  · exact hspells.append h.nodup hb (update_self ..)
  · rw [IdeState.enqueue, hlast]
    rfl

/-- A lock changes hands while its owner is not inside `iderw` with the buffer. -/
theorem Serves.setOwner (hout : ∀ p, (s.callers p).buf ≠ some b) (owner : Option ι) :
    ({ s with owner := update s.owner b owner }).Serves queue := by
  refine { h with owned := ?_ }
  intro p c hc
  have hne : c ≠ b := by
    intro heq
    exact hout p (heq ▸ hc)
  change update s.owner b owner c = some p
  rw [update_of_ne hne]
  exact h.owned p c hc

theorem Serves.modify (hout : ∀ p, (s.callers p).buf ≠ some b) (buf : DiskBuf δ) :
    ({ s with bufs := update s.bufs b buf }).Serves queue := by
  have hsame : ∀ p c, (s.callers p).buf = some c → update s.bufs b buf c = s.bufs c := by
    grind
  refine { h with queued := ?queued, waiting := ?waiting, called := ?called }
  case queued =>
    intro c hc
    obtain ⟨hsynced, p, asleep, hp⟩ := h.queued c hc
    refine ⟨?_, p, asleep, hp⟩
    dsimp only
    rw [hsame p c (congrArg IdeCaller.buf hp)]
    exact hsynced
  case waiting =>
    intro p c asleep hp hc
    dsimp only
    rw [hsame p c (congrArg IdeCaller.buf hp)]
    exact h.waiting p c asleep hp hc
  case called =>
    intro p c hp
    dsimp only
    rw [hsame p c (congrArg IdeCaller.buf hp)]
    exact h.called p c hp

/-- What an interrupt does: the head is completed, and its successor started if there is one. -/
theorem Serves.ideintr (hpending : s.pending ≠ 0) {ok : Bool} (hstep : s.ideintr ok = some t) :
    ∃ b rest data disk, queue = b :: rest ∧
      t = { s with
        links := { s.links with head := s.links.next b }
        bufs := update s.bufs b
          { s.bufs b with valid := true, dirty := false, data := data }
        callers := fun p ↦ (s.callers p).wake b
        completed := s.completed ++ [b]
        disk := disk
        pending := rest.head?.toList.length
        started := s.started ++ rest.head?.toList } := by
  cases queue with
  | nil => exact absurd h.pending hpending
  | cons b rest =>
    have hhead : s.links.head = some b := h.spells.head_eq
    have hone : s.pending = 1 := h.pending
    unfold IdeState.ideintr at hstep
    simp only [hhead, hone] at hstep
    have hnext : s.links.next b = rest.head? := h.spells.pop.head_eq
    let data :=
      if !(s.bufs b).dirty && ok then s.disk (s.bufs b).unit (s.bufs b).blockno else (s.bufs b).data
    refine ⟨b, rest, data, ?_⟩
    cases rest with
    | nil =>
      simp only [complete, hnext, List.head?_nil] at hstep
      refine ⟨s.disk, rfl, ?_⟩
      rw [← some.inj hstep]
      simp only [hnext, List.head?_nil, toList_none, append_nil]
      rfl
    | cons c rest =>
      simp only [complete, hnext, List.head?_cons] at hstep
      obtain ⟨disk, rfl⟩ := idestart_eq hstep
      refine ⟨disk, rfl, ?_⟩
      simp only [hnext, List.head?_cons]
      rfl

theorem Serves.interrupt (hpending : s.pending ≠ 0) {ok : Bool} (hstep : s.ideintr ok = some t) :
    ∃ rest, t.Serves rest := by
  obtain ⟨b, rest, data, disk, rfl, rfl⟩ := h.ideintr hpending hstep
  have hnotMem : b ∉ rest := (nodup_cons.mp h.nodup).1
  refine ⟨rest, {
    spells := h.spells.pop
    nodup := (nodup_cons.mp h.nodup).2
    appended := ?appended
    started := ?started
    pending := rfl
    owned := ?owned
    queued := ?queued
    waiting := ?waiting
    called := ?called }⟩
  case appended =>
    dsimp only
    rw [h.appended, append_assoc]
    rfl
  case started =>
    dsimp only
    rw [h.started]
    rfl
  case owned =>
    intro p c hp
    rw [IdeCaller.wake_buf] at hp
    exact h.owned p c hp
  case queued =>
    intro c hc
    have hne : c ≠ b := fun heq ↦ hnotMem (heq ▸ hc)
    obtain ⟨hsynced, p, asleep, hp⟩ := h.queued c (mem_cons_of_mem b hc)
    refine ⟨?_, p, asleep && c != b, ?_⟩
    · dsimp only
      rw [update_of_ne hne]
      exact hsynced
    · dsimp only
      rw [hp]
      rfl
  case waiting =>
    intro p c asleep hp hc
    obtain ⟨asleep', hwaits⟩ := IdeCaller.waiting_of_wake hp
    dsimp only
    by_cases heq : c = b
    · rw [heq, update_self]
      rfl
    · grind [update_apply, h.waiting]
  case called =>
    intro p c hp
    have hcalls := IdeCaller.called_of_wake hp
    have hne : c ≠ b := fun heq ↦ h.called_notMem hcalls (heq ▸ mem_cons_self)
    dsimp only
    rw [update_of_ne hne]
    exact h.called p c hcalls

end

variable [DecidableEq ι]

section

variable (h : s.Serves queue)
include h

theorem Serves.appendStep [Fintype β] (hp : s.callers p = .called b)
    (hstep : s.appendStep p b = some t) :
    ∃ links disk, links.Spells (queue ++ [b]) ∧
      t = { s.setCaller p (.waiting b true) with
        links := links
        disk := disk
        appended := s.appended ++ [b]
        pending := s.pending + (startsAtOnce queue b).length
        started := s.started ++ startsAtOnce queue b } := by
  have hb := h.called_notMem hp
  have hsynced := h.called p b hp
  obtain ⟨links, hspells, henqueue⟩ := h.enqueue hb
  unfold IdeState.appendStep at hstep
  rw [henqueue, bind_eq_bind, bind_some] at hstep
  dsimp only at hstep
  have hhead := hspells.head_eq
  refine ⟨links, ?_⟩
  cases queue with
  | nil =>
    have hfirst : links.head = some b := hhead
    rw [if_pos hfirst] at hstep
    obtain ⟨u, hstart, hu⟩ := bind_eq_some_iff.mp hstep
    obtain ⟨disk, rfl⟩ := idestart_eq hstart
    refine ⟨disk, hspells, ?_⟩
    rw [← some.inj hu, await_waiting]
    · rfl
    · exact hsynced
  | cons c rest =>
    have hne : ¬ links.head = some b := by
      intro heq
      rw [hhead] at heq
      exact hb (some.inj heq ▸ mem_cons_self)
    rw [if_neg hne, bind_some] at hstep
    refine ⟨s.disk, hspells, ?_⟩
    rw [← some.inj hstep, await_waiting, startsAtOnce, append_nil]
    · rfl
    · exact hsynced

theorem Serves.append [Fintype β] (hp : s.callers p = .called b)
    (hstep : s.appendStep p b = some t) : t.Serves (queue ++ [b]) := by
  have hb := h.called_notMem hp
  have hsynced := h.called p b hp
  obtain ⟨links, disk, hspells, rfl⟩ := h.appendStep hp hstep
  refine {
    spells := hspells
    nodup := ?nodup
    appended := ?appended
    started := ?started
    pending := ?pending
    owned := ?owned
    queued := ?queued
    waiting := ?waiting
    called := ?called }
  case nodup => exact nodup_append'.mpr ⟨h.nodup, nodup_singleton b, by simpa using hb⟩
  case appended =>
    dsimp only
    rw [h.appended, append_assoc]
    rfl
  case started =>
    dsimp only
    rw [h.started, append_assoc, head_append]
    rfl
  case pending =>
    dsimp only
    rw [h.pending, head_append, length_append]
  case owned =>
    intro q c hq
    change (update s.callers p (.waiting b true) q).buf = some c at hq
    by_cases hqp : q = p
    · subst hqp
      rw [update_self] at hq
      cases hq
      exact h.owned q b (congrArg IdeCaller.buf hp)
    · rw [update_of_ne hqp] at hq
      exact h.owned q c hq
  case queued =>
    intro c hc
    rcases mem_append.mp hc with hold | hnew
    · obtain ⟨hc', q, asleep, hq⟩ := h.queued c hold
      have hqp : q ≠ p := by
        intro heq
        rw [heq, hp] at hq
        cases hq
      exact ⟨hc', q, asleep, (update_of_ne hqp ..).trans hq⟩
    · rw [mem_singleton] at hnew
      subst hnew
      exact ⟨hsynced, p, true, update_self ..⟩
  case waiting =>
    intro q c asleep hq hc
    rw [mem_append, not_or] at hc
    change update s.callers p (.waiting b true) q = .waiting c asleep at hq
    by_cases hqp : q = p
    · grind
    · rw [update_of_ne hqp] at hq
      exact h.waiting q c asleep hq hc.1
  case called =>
    intro q c hq
    change update s.callers p (.waiting b true) q = .called c at hq
    by_cases hqp : q = p
    · subst hqp
      rw [update_self] at hq
      cases hq
    · rw [update_of_ne hqp] at hq
      exact h.called q c hq

theorem Serves.step [Fintype β] {a : IdeAct ι β δ} (hstep : s.step a = some t) :
    (∃ queue', t.Serves queue') ∧ ReturnsSynced s t := by
  cases a with
  | acquiresleep p b =>
    obtain ⟨hfree, rfl⟩ := ite_some_none_eq_some.mp hstep
    refine ⟨⟨queue, h.setOwner ?_ _⟩, fun _ _ ↦ .inl⟩
    intro q hq
    rw [h.owned q b hq] at hfree
    cases hfree
  | releasesleep p b =>
    obtain ⟨⟨howner, hout⟩, rfl⟩ := ite_some_none_eq_some.mp hstep
    refine ⟨⟨queue, h.setOwner ?_ _⟩, fun _ _ ↦ .inl⟩
    intro q hq
    have hsame : q = p := some.inj ((h.owned q b hq).symm.trans howner)
    rw [hsame] at hq
    exact hout hq
  | modify b buf =>
    obtain ⟨hidle, rfl⟩ := ite_some_none_eq_some.mp hstep
    exact ⟨⟨queue, h.modify (h.not_inside hidle) buf⟩, fun _ _ ↦ .inl⟩
  | iderw p b =>
    obtain ⟨⟨hp, howner, hsynced, -⟩, rfl⟩ := ite_some_none_eq_some.mp hstep
    exact ⟨⟨queue, h.call hp howner hsynced⟩, returnsSynced_of_update rfl nofun⟩
  | append p =>
    unfold IdeState.step at hstep
    dsimp only at hstep
    split at hstep
    · rename_i b hp
      refine ⟨⟨queue ++ [b], h.append hp hstep⟩, ?_⟩
      obtain ⟨links, disk, -, rfl⟩ := h.appendStep hp hstep
      exact returnsSynced_of_update rfl nofun
    · cases hstep
  | resume p =>
    unfold IdeState.step at hstep
    dsimp only at hstep
    split at hstep
    · rename_i b hp
      cases hstep
      exact ⟨⟨queue, h.await hp⟩, returnsSynced_await p b⟩
    · cases hstep
  | ideintr ok =>
    obtain ⟨hpending, hnext⟩ := ite_none_left_eq_some.mp hstep
    refine ⟨h.interrupt hpending hnext, ?_⟩
    obtain ⟨c, rest, data, disk, rfl, rfl⟩ := h.ideintr hpending hnext
    exact fun q b hq ↦ .inl (IdeCaller.returned_of_wake hq)
  | kill p =>
    unfold IdeState.step at hstep
    dsimp only at hstep
    split at hstep
    · rename_i b asleep hp
      cases hstep
      exact ⟨⟨queue, h.keep_waiting hp false⟩, returnsSynced_of_update rfl nofun⟩
    · cases hstep
      exact ⟨⟨queue, h⟩, fun _ _ ↦ .inl⟩

omit h in
theorem serves_of_reaches [Fintype β] {bufs : β → DiskBuf δ} {disk : Bool → Word → δ}
    {havedisk1 : Bool} (h : Runs.Reaches step Runs.unguarded (boot bufs disk havedisk1) s) :
    ∃ queue, s.Serves queue := by
  apply h.invariant (I := fun s ↦ ∃ queue, s.Serves queue)
  · exact ⟨[], serves_boot bufs disk havedisk1⟩
  · intro t a t' hinv _ hstep
    obtain ⟨queue, hserves⟩ := hinv
    exact (hserves.step hstep).1

end

end Steps

end IdeState

/-- The disk queue serves every request once and in order: in every state of every run the queue
holds no buffer twice, the requests completed are those appended before the queue, the requests
started are these and the one at the head, as many interrupts are to come as requests are started
and not completed, and `iderw` returns only with `B_VALID` set and `B_DIRTY` clear. -/
theorem disk_queue_in_order {ι β δ : Type} [DecidableEq ι] [DecidableEq β] [Fintype β]
    {bufs : β → DiskBuf δ} {disk : Bool → Word → δ} {havedisk1 : Bool} {s : IdeState ι β δ}
    (h : Runs.Reaches IdeState.step Runs.unguarded (IdeState.boot bufs disk havedisk1) s) :
    (∃ queue, s.links.Spells queue ∧ queue.Nodup ∧ s.appended = s.completed ++ queue ∧
      s.started = s.completed ++ queue.head?.toList ∧
      s.pending + s.completed.length = s.started.length) ∧
    ∀ a p b t, s.step a = some t → s.callers p ≠ .returned b → t.callers p = .returned b →
      (t.bufs b).valid = true ∧ (t.bufs b).dirty = false := by
  obtain ⟨queue, hserves⟩ := IdeState.serves_of_reaches h
  constructor
  · refine ⟨queue, hserves.spells, hserves.nodup, hserves.appended, hserves.started, ?_⟩
    rw [hserves.pending, hserves.started, List.length_append, Nat.add_comm]
  · intro a p b t hstep hbefore hafter
    have hsynced := ((hserves.step hstep).2 p b hafter).resolve_left hbefore
    simpa [DiskBuf.synced] using hsynced

/-- Two readers on two buffers: the second request is started by the interrupt for the first. -/
def twoReads : List (IdeAct (Fin 2) (Fin 2) ℕ) :=
  [.acquiresleep 0 0, .acquiresleep 1 1, .iderw 0 0, .iderw 1 1, .append 1, .append 0,
    .ideintr true, .resume 1, .ideintr true]

theorem disk_queue_in_order_twoReads :
    let bufs : Fin 2 → DiskBuf ℕ := fun b ↦ ⟨false, false, 0, BitVec.ofNat 32 b.val, 0⟩
    let disk : Bool → Word → ℕ := fun _ blockno ↦ blockno.toNat + 7
    let s := (Runs.run IdeState.step twoReads (IdeState.boot bufs disk false)).get (by decide)
    s.completed = [1, 0] ∧ (s.bufs 1).data = 8 ∧
      s.pending + s.completed.length = s.started.length :=
  ⟨by decide, by decide, (disk_queue_in_order
    (Runs.reaches_of_run (Option.some_get _).symm)).1.elim
      fun _ hqueue ↦ hqueue.2.2.2.2⟩

end Xv6Mmap.Io
