import Xv6Mmap.Sched.ProcTable
import Xv6Mmap.Library.Locks
import Xv6Mmap.Library.Ownership

/-!
# Context switches

`scheduler`, `sched` and the functions of `proc.c` that change the state of a process: `ptable.lock`
is taken by one thread and given back by another, on the far side of `swtch`.  A CPU runs on the
stack of its scheduler or on the kernel stack of a process; `swtch` leaves the stack it is on in the
context of a process and goes on where another context lies.  A process that has become runnable
is still on its stack until the switch, with the lock held.
-/

namespace Xv6Mmap

open Function Library Option

/-- The states that a process leaves its CPU in. -/
def ProcState.left : ProcState → Bool
  | .runnable | .sleeping | .zombie => true
  | _ => false

namespace Sched

variable {κ ι σ : Type}

/-- What a CPU is doing, and on which stack. -/
inductive Thread (ι σ : Type)
  /-- In `scheduler`, outside the lock. -/
  | idle
  /-- In the loop over the table. -/
  | scanning
  /-- `c->proc = p; switchuvm(p)` is done. -/
  | chosen (p : ι)
  /-- `p->state = RUNNING` is done, next is `swtch(&c->scheduler, p->context)`. -/
  | marked (p : ι)
  /-- Back from `swtch`. -/
  | returned
  /-- An interrupt handler on the scheduler's stack that has taken the lock. -/
  | handling
  /-- On the kernel stack of a process, or in user mode. -/
  | running (stack : σ)
  /-- The same with the lock. -/
  | locked (stack : σ)
  /-- In `sched`, the state of the process is changed; next is `swtch(&p->context, c->scheduler)`. -/
  | leaving (stack : σ)
  deriving DecidableEq

namespace Thread

def hasLock : Thread ι σ → Bool
  | .idle | .running _ => false
  | _ => true

/-- The kernel stack that the CPU uses. -/
def stack : Thread ι σ → Option σ
  | .running k | .locked k | .leaving k => some k
  | _ => none

/-- The process of the CPU is `RUNNING`. -/
def runs : Thread ι σ → Bool
  | .marked _ | .running _ | .locked _ => true
  | _ => false

/-- The code of a process without the lock. -/
def unlocked : Thread ι σ → Bool
  | .running _ => true
  | _ => false

/-- Code that may change the state of other processes. -/
def mayChange : Thread ι σ → Bool
  | .locked _ | .handling => true
  | _ => false

theorem hasLock_of_mayChange {thread : Thread ι σ} (h : thread.mayChange = true) :
    thread.hasLock = true := by
  cases thread <;> first | rfl | cases h

end Thread

/-- The processes, with their kernel stacks and the stacks their saved contexts lie on, the frames
that are free or in use for something else, and the CPUs. -/
structure Cpus (κ ι σ : Type) where
  states : ι → ProcState
  kstack : ι → Option σ
  freelist : List σ
  elsewhere : σ → Bool
  context : ι → Option σ
  proc : κ → Option ι
  threads : κ → Thread ι σ
  lock : Option κ

/-- The reasons for a process to leave its CPU. -/
inductive Leave
  | yield
  | sleep
  | exit
  deriving DecidableEq

def Leave.state : Leave → ProcState
  | .yield => .runnable
  | .sleep => .sleeping
  | .exit => .zombie

inductive CpuAct (κ ι σ : Type)
  | acquire (c : κ)
  /-- An interrupt on the scheduler's stack. -/
  | interrupt (c : κ)
  | release (c : κ)
  | pick (c : κ) (p : ι)
  | mark (c : κ)
  | switchIn (c : κ)
  | back (c : κ)
  | leave (c : κ) (why : Leave)
  | switchOut (c : κ)
  /-- `wakeup1` or `kill` reaches a sleeping process. -/
  | wake (c : κ) (q : ι)
  | allocproc (c : κ) (q : ι)
  /-- `allocproc` gets a stack for the new process. -/
  | kalloc (c : κ) (q : ι)
  | forkFail (c : κ) (q : ι)
  | forkRun (c : κ) (q : ι)
  | reap (c : κ) (q : ι)
  /-- A frame is taken for another use, such as a page or a page table. -/
  | kallocPage
  | kfreePage (f : σ)

namespace Cpus

/-- The first process is runnable and every CPU is in its scheduler. -/
def boot [DecidableEq ι] (p : ι) (k : σ) (freelist : List σ) : Cpus κ ι σ where
  states := update (fun _ ↦ .unused) p .runnable
  kstack := update (fun _ ↦ none) p (some k)
  freelist := freelist
  elsewhere := fun _ ↦ false
  context := update (fun _ ↦ none) p (some k)
  proc := fun _ ↦ none
  threads := fun _ ↦ .idle
  lock := none

variable [DecidableEq κ] [DecidableEq ι] [DecidableEq σ]

def goto (s : Cpus κ ι σ) (c : κ) (thread : Thread ι σ) : Cpus κ ι σ :=
  { s with threads := update s.threads c thread }

def setState (s : Cpus κ ι σ) (p : ι) (state : ProcState) : Cpus κ ι σ :=
  { s with states := update s.states p state }

def setProc (s : Cpus κ ι σ) (c : κ) (p : Option ι) : Cpus κ ι σ :=
  { s with proc := update s.proc c p }

/-- The slot of a process is given back, after `kfree(p->kstack)`. -/
def freeSlot (s : Cpus κ ι σ) (q : ι) : Cpus κ ι σ :=
  { s.setState q .unused with
    kstack := update s.kstack q none
    freelist := (s.kstack q).toList ++ s.freelist }

/-- `acquire(&ptable.lock)` -/
def acquire (s : Cpus κ ι σ) (c : κ) (thread : Thread ι σ) : Option (Cpus κ ι σ) :=
  if s.lock = none then some ({ s with lock := some c }.goto c thread) else none

/-- The steps.  `myproc()` is `c->proc`, whatever stack the CPU is on. -/
def step (s : Cpus κ ι σ) : CpuAct κ ι σ → Option (Cpus κ ι σ)
  | .acquire c =>
    match s.threads c with
    | .idle => s.acquire c .scanning
    | .running k => s.acquire c (.locked k)
    | _ => none
  | .interrupt c =>
    match s.threads c with
    | .idle => s.acquire c .handling
    | _ => none
  | .release c =>
    match s.threads c with
    | .scanning | .handling => some ({ s with lock := none }.goto c .idle)
    | .locked k => some ({ s with lock := none }.goto c (.running k))
    | _ => none
  | .pick c p =>
    if s.threads c = .scanning ∧ s.states p = .runnable then
      some ((s.setProc c (some p)).goto c (.chosen p))
    else none
  | .mark c =>
    match s.threads c with
    | .chosen p => some ((s.setState p .running).goto c (.marked p))
    | _ => none
  | .switchIn c =>
    match s.threads c with
    | .marked p => (s.context p).map fun k ↦ s.goto c (.locked k)
    | _ => none
  | .back c =>
    match s.threads c with
    | .returned => some ((s.setProc c none).goto c .scanning)
    | _ => none
  | .leave c why =>
    match s.threads c with
    | .locked k => (s.proc c).map fun p ↦ (s.setState p why.state).goto c (.leaving k)
    | _ => none
  | .switchOut c =>
    match s.threads c with
    | .leaving k =>
      (s.proc c).map fun p ↦
        ({ s with context := update s.context p (some k) }).goto c .returned
    | _ => none
  | .wake c q =>
    if (s.threads c).mayChange ∧ s.states q = .sleeping then some (s.setState q .runnable) else none
  | .allocproc c q =>
    if (s.threads c).mayChange ∧ s.states q = .unused then some (s.setState q .embryo) else none
  | .kalloc c q =>
    -- without `ptable.lock`; on an empty list `allocproc` fails
    match s.freelist with
    | k :: rest =>
      if (s.threads c).unlocked ∧ s.states q = .embryo ∧ s.kstack q = none then
        some { s with
          kstack := update s.kstack q (some k)
          context := update s.context q (some k)
          freelist := rest }
      else none
    | [] => none
  | .forkFail c q =>
    if (s.threads c).unlocked ∧ s.states q = .embryo then some (s.freeSlot q) else none
  | .forkRun c q =>
    if (s.threads c).mayChange ∧ s.states q = .embryo ∧ s.kstack q ≠ none then
      some (s.setState q .runnable)
    else none
  | .reap c q =>
    if (s.threads c).mayChange ∧ s.states q = .zombie then some (s.freeSlot q) else none
  | .kallocPage =>
    match s.freelist with
    | f :: rest => some { s with freelist := rest, elsewhere := update s.elsewhere f true }
    | [] => none
  | .kfreePage f =>
    if s.elsewhere f then
      some { s with freelist := f :: s.freelist, elsewhere := update s.elsewhere f false }
    else none

end Cpus

/-! ## What holds all along -/

/-- A CPU, with its thread and its process, agrees with the table: it has no process, or one that is
runnable until it is marked, running until it is about to leave, and on whose stack the CPU is. -/
def Fits (states : ι → ProcState) (kstack : ι → Option σ) (proc : Option ι) : Thread ι σ → Prop
  | .idle | .scanning | .handling => proc = none
  | .chosen p => proc = some p ∧ states p = .runnable
  | .marked p => proc = some p ∧ states p = .running
  | .returned => ∃ p, proc = some p ∧ (states p).left = true
  | .running k | .locked k => ∃ p, proc = some p ∧ kstack p = some k ∧ states p = .running
  | .leaving k => ∃ p, proc = some p ∧ kstack p = some k ∧ (states p).left = true

namespace Fits

variable {states states' : ι → ProcState} {kstack kstack' : ι → Option σ} {proc : Option ι}
  {thread : Thread ι σ} {p : ι} {k : σ}

section

variable (h : Fits states kstack proc thread)
include h

/-- The process of a CPU is running iff the thread says so, and it is neither unused nor new. -/
theorem state (hp : proc = some p) :
    if thread.runs then states p = .running
    else thread.hasLock = true ∧ (states p).left = true := by
  subst hp
  cases thread with
  | idle | scanning | handling => cases h
  | chosen q =>
    cases h.1
    exact ⟨rfl, by rw [h.2]; rfl⟩
  | marked q =>
    cases h.1
    exact h.2
  | returned =>
    obtain ⟨q, hq, hleft⟩ := h
    cases hq
    exact ⟨rfl, hleft⟩
  | running k | locked k =>
    obtain ⟨q, hq, -, hruns⟩ := h
    cases hq
    exact hruns
  | leaving k =>
    obtain ⟨q, hq, -, hleft⟩ := h
    cases hq
    exact ⟨rfl, hleft⟩

theorem running_or (hp : proc = some p) :
    states p = .running ∨ thread.hasLock = true ∧ thread.runs = false ∧ (states p).left = true := by
  grind [h.state]

theorem onStack (hk : thread.stack = some k) :
    ∃ p, proc = some p ∧ kstack p = some k := by
  cases thread with
  | running j | locked j | leaving j =>
    cases hk
    obtain ⟨p, hp, hstack, -⟩ := h
    exact ⟨p, hp, hstack⟩
  | idle | scanning | handling | chosen q | marked q | returned => cases hk

/-- The table changes, but not at the process of the CPU. -/
theorem congr (hstates : ∀ p, proc = some p → states' p = states p)
    (hkstack : ∀ p, proc = some p → kstack' p = kstack p) : Fits states' kstack' proc thread := by
  cases thread with
  | idle | scanning | handling => exact h
  | chosen p | marked p => exact ⟨h.1, by rw [hstates p h.1]; exact h.2⟩
  | returned =>
    obtain ⟨p, hp, hleft⟩ := h
    exact ⟨p, hp, by rw [hstates p hp]; exact hleft⟩
  | running k | locked k =>
    obtain ⟨p, hp, hstack, hruns⟩ := h
    exact ⟨p, hp, by rw [hkstack p hp]; exact hstack, by rw [hstates p hp]; exact hruns⟩
  | leaving k =>
    obtain ⟨p, hp, hstack, hleft⟩ := h
    exact ⟨p, hp, by rw [hkstack p hp]; exact hstack, by rw [hstates p hp]; exact hleft⟩

end

end Fits

namespace Cpus

/-- The frames in use: a process has its stack, and the rest of the kernel what is in use
elsewhere. -/
def owned (s : Cpus κ ι σ) : Option ι → σ → Prop
  | some q, k => s.kstack q = some k
  | none, k => s.elsewhere k = true

/-- The lock is with the CPU whose thread says so, every CPU agrees with the table, a running process
is that of one CPU, no frame has two uses, and every process keeps its stack, with its context
on it. -/
structure Scheduled (s : Cpus κ ι σ) : Prop where
  held : Held Thread.hasLock s.threads s.lock
  fits : ∀ c, Fits s.states s.kstack (s.proc c) (s.threads c)
  ran : ∀ p, s.states p = .running → ∃ c, s.proc c = some p
  unique : ∀ c d p, s.proc c = some p → s.proc d = some p → s.states p = .running → c = d
  frames : Ownership.Sound s.freelist s.owned fun _ _ ↦ False
  contexts : ∀ p k, s.kstack p = some k → s.context p = some k
  kept : ∀ p, s.states p = .running ∨ (s.states p).left = true → s.kstack p ≠ none

theorem Scheduled.apart {s : Cpus κ ι σ} (h : s.Scheduled) {p q : ι} {k : σ}
    (hp : s.kstack p = some k) (hq : s.kstack q = some k) : p = q :=
  some.inj ((h.frames.exclusive (some p) (some q) k hp hq).resolve_right not_false)

section Boot

variable [DecidableEq ι] {p : ι} {k : σ} {freelist : List σ}

theorem boot_kstack {q : ι} {j : σ}
    (hq : (boot p k freelist : Cpus κ ι σ).kstack q = some j) : q = p ∧ j = k := by
  by_cases hqp : q = p
  · simp only [boot, hqp, update_self] at hq
    exact ⟨hqp, (some.inj hq).symm⟩
  · simp only [boot, update_of_ne hqp] at hq
    cases hq

theorem frames_boot (hfree : (k :: freelist).Nodup) :
    Ownership.Sound freelist (boot p k freelist : Cpus κ ι σ).owned fun _ _ ↦ False := by
  obtain ⟨hk, hnodup⟩ := List.nodup_cons.mp hfree
  refine ⟨hnodup, ?_, ?_⟩
  · intro o f ho
    cases o with
    | none => cases ho
    | some q =>
      rw [(boot_kstack ho).2]
      exact hk
  · intro o o' f ho ho'
    cases o with
    | none => cases ho
    | some q =>
      cases o' with
      | none => cases ho'
      | some r => exact .inl (congrArg some ((boot_kstack ho).1.trans (boot_kstack ho').1.symm))

theorem scheduled_boot (hfree : (k :: freelist).Nodup) :
    (boot p k freelist : Cpus κ ι σ).Scheduled := by
  have hself : (boot p k freelist : Cpus κ ι σ).states p = .runnable := by simp [boot]
  have hother : ∀ q, q ≠ p → (boot p k freelist : Cpus κ ι σ).states q = .unused := by
    intro q hq
    simp [boot, hq]
  have hidle : ∀ q, (boot p k freelist : Cpus κ ι σ).states q ≠ .running := by
    intro q
    by_cases hq : q = p
    · rw [hq, hself]
      decide
    · rw [hother q hq]
      decide
  refine {
    held := .nobody fun _ ↦ rfl
    fits := fun _ ↦ rfl
    ran := fun q hq ↦ absurd hq (hidle q)
    unique := nofun
    frames := frames_boot hfree
    contexts := ?contexts
    kept := ?kept }
  case contexts =>
    intro q j hq
    obtain ⟨rfl, rfl⟩ := boot_kstack hq
    simp [boot]
  case kept =>
    intro q hlives
    have hqp : q = p := by
      by_contra hqp
      rw [hother q hqp] at hlives
      rcases hlives with hruns | hleft
      · cases hruns
      · cases hleft
    simp [boot, hqp]

end Boot

variable {p : ι}

/-- As long as a CPU has the lock, the other ones run their processes. -/
theorem Scheduled.others_run {s : Cpus κ ι σ} (h : s.Scheduled) {c d : κ}
    (hlock : (s.threads c).hasLock = true) (hd : s.proc d = some p) (hne : d ≠ c) :
    s.states p = .running := by
  rcases (h.fits d).running_or hd with hruns | ⟨hlock', -⟩
  · exact hruns
  · exact absurd (h.held.unique hlock' hlock) hne

/-! ## The steps of a CPU -/

variable {k : σ}

section OneCpu

variable [DecidableEq κ] {s t : Cpus κ ι σ} {c : κ} {here next : Thread ι σ}

section

variable (h : s.Scheduled)
include h

omit [DecidableEq κ] in
/-- A running process is that of this CPU and of no other, or not of this one. -/
theorem Scheduled.mine_or_not (c : κ) (hp : s.states p = .running) :
    (s.proc c = some p ∧ ∀ d, d ≠ c → s.proc d ≠ some p) ∨
      (s.proc c ≠ some p ∧ s.proc c ≠ some p ∧ s.states p = .running) := by
  by_cases hc : s.proc c = some p
  · exact .inl ⟨hc, fun d hd hp' ↦ hd (h.unique d c p hp' hc hp)⟩
  · exact .inr ⟨hc, hc, hp⟩

/-- A CPU moves on.  The states may change at processes that no other CPU has; a process that is
running afterwards is now that of this CPU alone, or it was running and is not concerned. -/
theorem Scheduled.move {states : ι → ProcState} {context : ι → Option σ} {proc : κ → Option ι}
    {lock : Option κ} {mine : Option ι} (hproc : proc = update s.proc c mine)
    (hcontexts : ∀ p k, s.kstack p = some k → context p = some k)
    (hheld : Held Thread.hasLock (update s.threads c next) lock)
    (hfits : Fits states s.kstack mine next)
    (hothers : ∀ d p, d ≠ c → s.proc d = some p → states p = s.states p)
    (hruns : ∀ p, states p = .running →
      (mine = some p ∧ ∀ d, d ≠ c → s.proc d ≠ some p) ∨
      (mine ≠ some p ∧ s.proc c ≠ some p ∧ s.states p = .running))
    (hkept : ∀ p, states p = .running ∨ (states p).left = true → s.kstack p ≠ none) :
    (({ s with states, context, proc, lock } : Cpus κ ι σ).goto c next).Scheduled := by
  subst hproc
  have hself : update s.proc c mine c = mine := update_self ..
  have hother : ∀ d, d ≠ c → update s.proc c mine d = s.proc d :=
    fun d hd ↦ update_of_ne hd ..
  refine { h with
    held := hheld
    fits := ?fits
    ran := ?ran
    unique := ?unique
    contexts := hcontexts
    kept := hkept }
  case fits =>
    intro d
    change Fits states s.kstack (update s.proc c mine d) (update s.threads c next d)
    by_cases hd : d = c
    · rw [hd, hself, update_self]
      exact hfits
    · rw [hother d hd, update_of_ne hd]
      exact (h.fits d).congr (fun p hp ↦ hothers d p hd hp) fun _ _ ↦ rfl
  case ran =>
    intro p hp
    change ∃ d, update s.proc c mine d = some p
    rcases hruns p hp with ⟨hmine, -⟩ | ⟨-, hnot, hbefore⟩
    · exact ⟨c, by rw [hself]; exact hmine⟩
    · grind [h.ran]
  case unique =>
    intro d e p hd he hp
    change update s.proc c mine _ = some p at hd he
    rcases hruns p hp with ⟨-, honly⟩ | ⟨hnot, -, hbefore⟩
    · grind
    · have hsame : ∀ f, update s.proc c mine f = some p → s.proc f = some p := by
        intro f hf
        by_cases hfc : f = c
        · rw [hfc, hself] at hf
          exact absurd hf hnot
        · rw [hother f hfc] at hf
          exact hf
      exact h.unique d e p (hsame d hd) (hsame e he) hbefore

/-- Neither the table nor the process of the CPU changes. -/
theorem Scheduled.goto {lock : Option κ}
    (hheld : Held Thread.hasLock (update s.threads c next) lock)
    (hfits : Fits s.states s.kstack (s.proc c) next) :
    (({ s with lock := lock } : Cpus κ ι σ).goto c next).Scheduled :=
  h.move (update_eq_self c s.proc).symm h.contexts hheld hfits (fun _ _ _ _ ↦ rfl)
    (fun _ hp ↦ h.mine_or_not c hp) h.kept

theorem Scheduled.acquire (hstep : s.acquire c next = some t) (hlock : next.hasLock = true)
    (hfits : Fits s.states s.kstack (s.proc c) next) : t.Scheduled := by
  obtain ⟨hfree, rfl⟩ := ite_some_none_eq_some.mp hstep
  have hheld := h.held
  rw [hfree] at hheld
  exact h.goto (hheld.acquire hlock) hfits

theorem Scheduled.release (hlock : (s.threads c).hasLock = true) (hunlock : next.hasLock = false)
    (hfits : Fits s.states s.kstack (s.proc c) next) :
    (({ s with lock := none } : Cpus κ ι σ).goto c next).Scheduled :=
  h.goto (h.held.release hlock hunlock) hfits

theorem Scheduled.keep (hlock : (s.threads c).hasLock = true) (hnext : next.hasLock = true) :
    Held Thread.hasLock (update s.threads c next) s.lock :=
  h.held.keep (hnext.trans hlock.symm)

omit [DecidableEq κ] in
theorem Scheduled.fits_at (hc : s.threads c = here) : Fits s.states s.kstack (s.proc c) here :=
  hc ▸ h.fits c

/-- The scheduler makes a runnable process that of its CPU. -/
theorem Scheduled.pick (hc : s.threads c = .scanning) (hp : s.states p = .runnable) :
    ((s.setProc c (some p)).goto c (.chosen p)).Scheduled := by
  refine h.move rfl h.contexts (h.keep (by rw [hc]; rfl) rfl) ⟨rfl, hp⟩ (fun _ _ _ _ ↦ rfl) ?_
    h.kept
  intro q hq
  have hqp : q ≠ p := by
    intro heq
    change s.states q = .running at hq
    rw [heq, hp] at hq
    cases hq
  refine .inr ⟨fun heq ↦ hqp (some.inj heq).symm, ?_, hq⟩
  rw [show s.proc c = none from h.fits_at hc]
  exact nofun

/-- After `swtch`, the scheduler gives the process up. -/
theorem Scheduled.back (hc : s.threads c = .returned) :
    ((s.setProc c none).goto c .scanning).Scheduled := by
  obtain ⟨p, hp, hleft⟩ := h.fits_at hc
  refine h.move rfl h.contexts (h.keep (by rw [hc]; rfl) rfl) rfl (fun _ _ _ _ ↦ rfl) ?_ h.kept
  intro q hq
  refine .inr ⟨nofun, ?_, hq⟩
  intro heq
  change s.states q = .running at hq
  rw [hp] at heq
  rw [← some.inj heq] at hq
  rw [hq] at hleft
  cases hleft

/-- `swtch` to the context of the process, which lies on its own stack. -/
theorem Scheduled.switchIn (hc : s.threads c = .marked p)
    (hk : s.context p = some k) : (s.goto c (.locked k)).Scheduled := by
  obtain ⟨hp, hruns⟩ := h.fits_at hc
  refine h.goto (h.keep (by rw [hc]; rfl) rfl) ⟨p, hp, ?_, hruns⟩
  obtain ⟨j, hj⟩ := ne_none_iff_exists'.mp (h.kept p (.inl hruns))
  rw [h.contexts p j hj] at hk
  rw [hj, hk]

/-- `swtch` to the scheduler: the context is saved on the stack of the process. -/
theorem Scheduled.switchOut [DecidableEq ι] (hc : s.threads c = .leaving k)
    (hp : s.proc c = some p) :
    (({ s with context := update s.context p (some k) }).goto c .returned).Scheduled := by
  obtain ⟨q, hq, hk, hleft⟩ := h.fits_at hc
  cases some.inj (hp.symm.trans hq)
  refine h.move (update_eq_self c s.proc).symm ?_ (h.keep (by rw [hc]; rfl) rfl) ⟨p, hp, hleft⟩
    (fun _ _ _ _ ↦ rfl) (fun _ hr ↦ h.mine_or_not c hr) h.kept
  intro r j hr
  change update s.context p (some k) r = some j
  by_cases hrp : r = p
  · rw [hrp, update_self]
    rw [hrp, hk] at hr
    exact hr
  · rw [update_of_ne hrp]
    exact h.contexts r j hr

/-- The state of the CPU's process changes. -/
theorem Scheduled.change [DecidableEq ι] {state : ProcState}
    (hlock : (s.threads c).hasLock = true) (hnext : next.hasLock = true) (hp : s.proc c = some p)
    (hothers : ∀ d, d ≠ c → s.proc d ≠ some p)
    (hbefore : s.states p = .running ∨ (s.states p).left = true)
    (hfits : Fits (update s.states p state) s.kstack (some p) next) :
    ((s.setState p state).goto c next).Scheduled := by
  have hother : ∀ q, q ≠ p → update s.states p state q = s.states q :=
    fun q hq ↦ update_of_ne hq ..
  have hproc : s.proc = update s.proc c (some p) := by
    rw [← hp]
    exact (update_eq_self c s.proc).symm
  refine h.move hproc h.contexts (h.keep hlock hnext) hfits ?_ ?_ ?_
  · intro d q hd hq
    exact hother q fun heq ↦ hothers d hd (heq ▸ hq)
  · intro q hq
    change update s.states p state q = .running at hq
    by_cases hqp : q = p
    · rw [hqp]
      exact .inl ⟨rfl, hothers⟩
    · grind
  · intro q hq
    change update s.states p state q = _ ∨ (update s.states p state q).left = _ at hq
    by_cases hqp : q = p
    · rw [hqp]
      exact h.kept p hbefore
    · rw [hother q hqp] at hq
      exact h.kept q hq

theorem Scheduled.mark [DecidableEq ι] (hc : s.threads c = .chosen p) :
    ((s.setState p .running).goto c (.marked p)).Scheduled := by
  have hlock : (s.threads c).hasLock = true := by rw [hc]; rfl
  obtain ⟨hmine, hstate⟩ := h.fits_at hc
  refine h.change hlock rfl hmine ?_ (.inr (by rw [hstate]; rfl)) ⟨rfl, update_self ..⟩
  intro d hd hp
  have hruns := h.others_run hlock hp hd
  rw [hstate] at hruns
  cases hruns

theorem Scheduled.leave [DecidableEq ι] (why : Leave) (hc : s.threads c = .locked k)
    (hp : s.proc c = some p) : ((s.setState p why.state).goto c (.leaving k)).Scheduled := by
  obtain ⟨q, hq, hk, hruns⟩ := h.fits_at hc
  cases some.inj (hp.symm.trans hq)
  refine h.change (by rw [hc]; rfl) rfl hp ?_ (.inl hruns) ⟨p, rfl, hk, ?_⟩
  · intro d hd hd'
    exact hd (h.unique d c p hd' hp hruns)
  · rw [update_self]
    cases why <;> rfl

end

end OneCpu

/-! ## The steps that change another process -/

section Others

variable [DecidableEq ι] {s t : Cpus κ ι σ} {c : κ} {q : ι} {state : ProcState}
  {stack context : Option σ}

section

variable (h : s.Scheduled)
include h

/-- A process that no CPU has changes its state, and with it possibly its stack. -/
theorem Scheduled.other {states : ι → ProcState} {kstack contexts : ι → Option σ}
    {freelist : List σ} (hfree : ∀ d, s.proc d ≠ some q) (hstates : states = update s.states q state)
    (hkstack : kstack = update s.kstack q stack) (hcontext : contexts = update s.context q context)
    (hstate : state ≠ .running) (hframes : Ownership.Sound freelist
      { s with states, kstack, context := contexts, freelist }.owned fun _ _ ↦ False)
    (hsaved : ∀ k, stack = some k → context = some k) (hkept : state.left = true → stack ≠ none) :
    { s with states, kstack, context := contexts, freelist }.Scheduled := by
  subst hstates hkstack hcontext
  have hother : ∀ r, r ≠ q → update s.states q state r = s.states r :=
    fun r hr ↦ update_of_ne hr ..
  have hstacks : ∀ r, r ≠ q → update s.kstack q stack r = s.kstack r :=
    fun r hr ↦ update_of_ne hr ..
  refine { h with
    fits := ?fits
    ran := ?ran
    unique := ?unique
    frames := hframes
    contexts := ?contexts
    kept := ?kept }
  case fits =>
    intro d
    have hne : ∀ p, s.proc d = some p → p ≠ q := fun p hp heq ↦ hfree d (heq ▸ hp)
    exact (h.fits d).congr (fun p hp ↦ hother p (hne p hp)) fun p hp ↦ hstacks p (hne p hp)
  case ran =>
    intro p hp
    have hpq : p ≠ q := by
      rintro rfl
      exact hstate ((update_self ..).symm.trans hp)
    exact h.ran p ((hother p hpq).symm.trans hp)
  case unique =>
    intro d e p hd he hp
    have hpq : p ≠ q := fun heq ↦ hfree d (heq ▸ hd)
    exact h.unique d e p hd he ((hother p hpq).symm.trans hp)
  case contexts =>
    intro p k hp
    change update s.kstack q stack p = some k at hp
    change update s.context q context p = some k
    by_cases hpq : p = q
    · rw [hpq, update_self] at hp ⊢
      exact hsaved k hp
    · rw [update_of_ne hpq] at hp ⊢
      exact h.contexts p k hp
  case kept =>
    intro p hp
    change update s.states q state p = _ ∨ (update s.states q state p).left = _ at hp
    change update s.kstack q stack p ≠ none
    by_cases hpq : p = q
    · rw [hpq, update_self] at hp ⊢
      exact hkept (hp.resolve_left hstate)
    · rw [hother p hpq] at hp
      rw [hstacks p hpq]
      exact h.kept p hp

omit [DecidableEq ι] in
/-- A process that is unused or new is no CPU's. -/
theorem Scheduled.free_of_new (hq : s.states q = .unused ∨ s.states q = .embryo) (d : κ) :
    s.proc d ≠ some q := by
  intro hd
  rcases (h.fits d).running_or hd with hruns | ⟨-, -, hleft⟩
  · grind
  · rcases hq with hunused | hembryo
    · rw [hunused] at hleft
      cases hleft
    · rw [hembryo] at hleft
      cases hleft

omit [DecidableEq ι] in
/-- To the code that has the lock, a process that is not running is no CPU's. -/
theorem Scheduled.free_of_locked (hc : (s.threads c).mayChange = true) (hq : s.states q ≠ .running)
    (d : κ) : s.proc d ≠ some q := by
  intro hd
  rcases (h.fits d).running_or hd with hruns | ⟨hlock, hnot, -⟩
  · exact hq hruns
  · have hsame : d = c := h.held.unique hlock (Thread.hasLock_of_mayChange hc)
    rw [hsame] at hd hnot
    cases hthread : s.threads c with
    | locked k =>
      rw [hthread] at hnot
      cases hnot
    | handling =>
      rw [show s.proc c = none from h.fits_at hthread] at hd
      cases hd
    | idle | scanning | chosen p | marked p | returned | running k | leaving k =>
      rw [hthread] at hc
      cases hc

/-- A process that no CPU has changes its state and keeps its stack. -/
theorem Scheduled.setState (hfree : ∀ d, s.proc d ≠ some q) (hstate : state ≠ .running)
    (hkept : state.left = true → s.kstack q ≠ none) : (s.setState q state).Scheduled := by
  exact h.other hfree rfl (update_eq_self q s.kstack).symm (update_eq_self q s.context).symm hstate
    h.frames (h.contexts q) hkept

/-- The stack of a process goes back to the free list. -/
theorem Scheduled.frames_freeSlot :
    Ownership.Sound (s.freeSlot q).freelist (s.freeSlot q).owned fun _ _ ↦ False := by
  have hleft : ∀ o f, (s.freeSlot q).owned o f → s.owned o f ∧ o ≠ some q := by
    intro o f ho
    cases o with
    | none => exact ⟨ho, nofun⟩
    | some r =>
      by_cases hr : r = q
      · rw [hr] at ho
        simp [owned, freeSlot] at ho
      · simp only [owned, freeSlot, update_of_ne hr] at ho
        exact ⟨ho, fun heq ↦ hr (some.inj heq)⟩
  cases hstack : s.kstack q with
  | none =>
    simp only [freeSlot, hstack, toList_none, List.nil_append]
    exact h.frames.mono fun o f ho ↦ (hleft o f ho).1
  | some k =>
    simp only [freeSlot, hstack, toList_some, List.singleton_append]
    refine h.frames.push (h.frames.not_free (some q) k hstack) (fun o f ho ↦ (hleft o f ho).1) ?_
    intro o ho
    obtain ⟨hbefore, hne⟩ := hleft o k ho
    exact hne ((h.frames.exclusive o (some q) k hbefore hstack).resolve_right not_false)

/-- A process that no CPU has is freed together with its stack. -/
theorem Scheduled.freeSlot (hfree : ∀ d, s.proc d ≠ some q) : (s.freeSlot q).Scheduled :=
  h.other hfree rfl rfl (update_eq_self q s.context).symm nofun h.frames_freeSlot nofun nofun

/-- A new process gets the first free frame as its stack, which nobody has. -/
theorem Scheduled.kalloc {k : σ} {rest : List σ} (hq : s.states q = .embryo)
    (hlist : s.freelist = k :: rest) :
    ({ s with
      kstack := update s.kstack q (some k)
      context := update s.context q (some k)
      freelist := rest }).Scheduled := by
  have hframes := h.frames
  rw [hlist] at hframes
  obtain ⟨hrest, hk, hnobody⟩ := hframes.pop
  refine h.other (h.free_of_new (.inr hq)) (update_eq_self q s.states).symm rfl rfl
    (by rw [hq]; decide) (hrest.assign (o := some q) hk ?_ ?_) (fun _ hj ↦ hj) fun _ ↦ nofun
  · exact fun o ho ↦ absurd ho (hnobody o)
  · intro o f ho
    cases o with
    | none => exact .inl ho
    | some r =>
      by_cases hr : r = q
      · rw [hr] at ho ⊢
        simp only [owned, update_self] at ho
        exact .inr ⟨rfl, (some.inj ho).symm⟩
      · simp only [owned, update_of_ne hr] at ho
        exact .inl ho

end

end Others

section Frames

variable [DecidableEq σ] {s : Cpus κ ι σ} {f : σ}

theorem Scheduled.kallocPage {rest : List σ} (h : s.Scheduled) (hlist : s.freelist = f :: rest) :
    ({ s with freelist := rest, elsewhere := update s.elsewhere f true }).Scheduled := by
  have hframes := h.frames
  rw [hlist] at hframes
  obtain ⟨hrest, hf, hnobody⟩ := hframes.pop
  refine { h with frames := hrest.assign (o := none) hf ?_ ?_ }
  · exact fun o ho ↦ absurd ho (hnobody o)
  · intro o g ho
    cases o with
    | some q => exact .inl ho
    | none =>
      by_cases hg : g = f
      · exact .inr ⟨rfl, hg⟩
      · simp only [owned, update_of_ne hg] at ho
        exact .inl ho

theorem Scheduled.kfreePage (h : s.Scheduled) (hf : s.elsewhere f = true) :
    ({ s with freelist := f :: s.freelist, elsewhere := update s.elsewhere f false }).Scheduled := by
  refine { h with frames := h.frames.push (h.frames.not_free none f hf) ?_ ?_ }
  · intro o g ho
    cases o with
    | some q => exact ho
    | none =>
      by_cases hg : g = f
      · rw [hg]
        exact hf
      · simp only [owned, update_of_ne hg] at ho
        exact ho
  · intro o ho
    cases o with
    | some q => exact absurd (h.frames.exclusive (some q) none f ho hf) (by simp)
    | none => simp [owned] at ho

end Frames

/-! ## Runs -/

variable [DecidableEq κ] [DecidableEq ι] [DecidableEq σ] {s t : Cpus κ ι σ}

theorem Scheduled.step {a : CpuAct κ ι σ} (h : s.Scheduled) (hstep : s.step a = some t) :
    t.Scheduled := by
  unfold Cpus.step at hstep
  cases a with
  | acquire c =>
    dsimp only at hstep
    split at hstep
    · rename_i hc
      exact h.acquire hstep rfl (h.fits_at hc :)
    · rename_i k hc
      exact h.acquire hstep rfl (h.fits_at hc :)
    · cases hstep
  | interrupt c =>
    dsimp only at hstep
    split at hstep
    · rename_i hc
      exact h.acquire hstep rfl (h.fits_at hc :)
    · cases hstep
  | release c =>
    dsimp only at hstep
    split at hstep
    · rename_i hc
      cases hstep
      exact h.release (by rw [hc]; rfl) rfl (h.fits_at hc :)
    · rename_i hc
      cases hstep
      exact h.release (by rw [hc]; rfl) rfl (h.fits_at hc :)
    · rename_i k hc
      cases hstep
      exact h.release (by rw [hc]; rfl) rfl (h.fits_at hc :)
    · cases hstep
  | pick c p => grind [h.pick]
  | mark c => grind [h.mark]
  | switchIn c =>
    dsimp only at hstep
    split at hstep
    · rename_i p hc
      obtain ⟨k, hk, rfl⟩ := map_eq_some_iff.mp hstep
      exact h.switchIn hc hk
    · cases hstep
  | back c => grind [h.back]
  | leave c why =>
    dsimp only at hstep
    split at hstep
    · rename_i k hc
      obtain ⟨p, hp, rfl⟩ := map_eq_some_iff.mp hstep
      exact h.leave why hc hp
    · cases hstep
  | switchOut c =>
    dsimp only at hstep
    split at hstep
    · rename_i k hc
      obtain ⟨p, hp, rfl⟩ := map_eq_some_iff.mp hstep
      exact h.switchOut hc hp
    · cases hstep
  | wake c q =>
    obtain ⟨⟨hc, hq⟩, rfl⟩ := ite_some_none_eq_some.mp hstep
    exact h.setState (h.free_of_locked hc (by rw [hq]; decide)) nofun
      fun _ ↦ h.kept q (.inr (by rw [hq]; rfl))
  | allocproc c q =>
    obtain ⟨⟨-, hq⟩, rfl⟩ := ite_some_none_eq_some.mp hstep
    exact h.setState (h.free_of_new (.inl hq)) nofun nofun
  | kalloc c q =>
    dsimp only at hstep
    split at hstep
    · rename_i k rest hlist
      obtain ⟨⟨-, hq, -⟩, rfl⟩ := ite_some_none_eq_some.mp hstep
      exact h.kalloc hq hlist
    · cases hstep
  | forkFail c q => grind [h.freeSlot, h.free_of_new]
  | forkRun c q => grind [h.setState, h.free_of_new]
  | reap c q => grind [h.freeSlot, h.free_of_locked]
  | kallocPage =>
    dsimp only at hstep
    split at hstep
    · rename_i f rest hlist
      cases hstep
      exact h.kallocPage hlist
    · cases hstep
  | kfreePage f => grind [h.kfreePage]

theorem scheduled_of_reaches {freelist : List σ} (hfree : (k :: freelist).Nodup)
    (h : Runs.Reaches Cpus.step Runs.unguarded (boot p k freelist) s) : s.Scheduled :=
  h.invariant (scheduled_boot hfree) fun _ _ _ hu _ hstep ↦ hu.step hstep

omit [DecidableEq κ] [DecidableEq ι] [DecidableEq σ] in
/-- Two CPUs on one stack have one process; it is running on both, or one of them has the lock. -/
theorem Scheduled.stack_unique (h : s.Scheduled) {c d : κ}
    (hc : (s.threads c).stack = some k) (hd : (s.threads d).stack = some k) : c = d := by
  obtain ⟨p, hp, hpk⟩ := (h.fits c).onStack hc
  obtain ⟨q, hq, hqk⟩ := (h.fits d).onStack hd
  have hpq : p = q := h.apart hpk hqk
  rw [← hpq] at hq
  rcases (h.fits c).running_or hp with hruns | ⟨hlock, -, hleft⟩
  · exact h.unique c d p hp hq hruns
  · rcases (h.fits d).running_or hq with hruns | ⟨hlock', -⟩
    · exact h.unique c d p hp hq hruns
    · exact h.held.unique hlock hlock'

end Cpus

/-- A process runs on at most one CPU: in every state of every run with `ptable.lock` free, the
processes that are `RUNNING` are those of the CPUs, each of exactly one, and in every state no kernel
stack is in use by two CPUs. -/
theorem process_on_one_cpu {κ ι σ : Type} [DecidableEq κ] [DecidableEq ι] [DecidableEq σ]
    {p : ι} {k : σ} {freelist : List σ} {s : Cpus κ ι σ} (hfree : (k :: freelist).Nodup)
    (h : Runs.Reaches Cpus.step Runs.unguarded (Cpus.boot p k freelist) s) :
    (s.lock = none → (∀ q, s.states q = .running → ∃! c, s.proc c = some q) ∧
      ∀ c q, s.proc c = some q → s.states q = .running) ∧
    ∀ c d j, (s.threads c).stack = some j → (s.threads d).stack = some j → c = d := by
  have hscheduled := Cpus.scheduled_of_reaches hfree h
  refine ⟨?_, fun c d j ↦ hscheduled.stack_unique⟩
  intro hfree
  constructor
  · intro q hq
    obtain ⟨c, hc⟩ := hscheduled.ran q hq
    exact ⟨c, hc, fun d hd ↦ hscheduled.unique d c q hd hc hq⟩
  · intro c q hc
    rcases (hscheduled.fits c).running_or hc with hruns | ⟨hlock, -⟩
    · exact hruns
    · have hholder := (hscheduled.held c).mpr hlock
      rw [hfree] at hholder
      cases hholder

/-- A process starts on one CPU, yields, goes on on the other, and forks a child that the first CPU
then runs. -/
def migratesAndForks : List (CpuAct Bool Bool ℕ) :=
  [.acquire false, .pick false false, .mark false, .switchIn false, .release false, .acquire false,
    .leave false .yield, .switchOut false, .back false, .release false, .acquire true,
    .pick true false, .mark true, .switchIn true, .allocproc true true, .release true,
    .kallocPage, .kalloc true true, .acquire true, .forkRun true true, .release true,
    .acquire false, .pick false true, .mark false, .switchIn false, .release false]

theorem process_on_one_cpu_forks :
    let s := (Runs.run Cpus.step migratesAndForks (Cpus.boot false 0 [1, 2, 3])).get (by decide)
    s.proc true = some false ∧ s.proc false = some true ∧ s.kstack true = some 2 ∧
      (s.states false = .running ∧ ∃! c, s.proc c = some false) ∧
      s.states true = .running ∧ ∃! c, s.proc c = some true := by
  intro s
  have hreach : Runs.Reaches Cpus.step Runs.unguarded (Cpus.boot false 0 [1, 2, 3]) s :=
    Runs.reaches_of_run (Option.some_get _).symm
  have honce := ((process_on_one_cpu (by decide) hreach).1 (by decide)).1
  exact ⟨by decide, by decide, by decide, ⟨by decide, honce false (by decide)⟩, by decide,
    honce true (by decide)⟩

end Sched

end Xv6Mmap
