import Xv6Mmap.Kernel.Word
import Xv6Mmap.Library.Ring
import Xv6Mmap.Library.Runs

/-!
# Pipes

`pipe.c`: any number of callers are inside `pipewrite` and `piperead` of one pipe.  A step is a
critical section under `p->lock`, from `acquire`, or from the return of `sleep`, to the next `sleep`
or `release`.  The byte counters run freely modulo `2 ^ 32`.  The bytes between them are those that
have been stored and not delivered, so what is delivered is a prefix of what has been stored.
-/

namespace Xv6Mmap.Io

open Library List

def pipeSize : ℕ := 512

instance : NeZero pipeSize := ⟨by decide⟩

/-- `struct pipe` without its lock. -/
structure Pipe where
  data : Fin pipeSize → Byte
  nread : Word
  nwrite : Word
  readopen : Bool
  writeopen : Bool

namespace Pipe

/-- `pipealloc`, on a page that holds anything. -/
def pipealloc (page : Fin pipeSize → Byte) : Pipe where
  data := page
  nread := 0
  nwrite := 0
  readopen := true
  writeopen := true

def empty (p : Pipe) : Bool := p.nread == p.nwrite
def full (p : Pipe) : Bool := p.nwrite == p.nread + BitVec.ofNat 32 pipeSize

/-- `p->data[p->nwrite++ % PIPESIZE] = c` -/
def store (p : Pipe) (c : Byte) : Pipe :=
  { p with
    data := Function.update p.data (Ring.cell pipeSize p.nwrite) c
    nwrite := p.nwrite + 1 }

/-- `p->data[p->nread++ % PIPESIZE]` -/
def fetch (p : Pipe) : Byte × Pipe :=
  (p.data (Ring.cell pipeSize p.nread), { p with nread := p.nread + 1 })

/-- How a critical section of `pipewrite` ends. -/
inductive Outcome
  | finished
  | failed
  | sleeps (i : ℕ)
  deriving DecidableEq

/-- The loop of `pipewrite` with `left` bytes to go, the next one at `addr[i]`, up to where it
sleeps or returns: the pipe, the bytes it has stored, and how it ends. -/
def writeLoop (killed : Bool) (addr : ℕ → Byte) : ℕ → ℕ → Pipe → Pipe × List Byte × Outcome
  | 0, _, p => (p, [], .finished)
  | left + 1, i, p =>
    if p.full then
      (p, [], if !p.readopen || killed then .failed else .sleeps i)
    else
      let (p', bytes, outcome) := writeLoop killed addr left (i + 1) (p.store (addr i))
      (p', addr i :: bytes, outcome)

/-- The copy loop of `piperead`: the bytes it delivers. -/
def readLoop : ℕ → Pipe → Pipe × List Byte
  | 0, p => (p, [])
  | left + 1, p =>
    if p.empty then (p, [])
    else
      let (c, p') := p.fetch
      let (p'', bytes) := readLoop left p'
      (p'', c :: bytes)

end Pipe

/-- What a process is doing with the pipe. -/
inductive Caller
  | outside
  /-- Inside `pipewrite`, about to store `addr[i]`; asleep on `&p->nwrite` or about to lock. -/
  | writing (n : Word) (i : ℕ) (asleep : Bool)
  /-- Inside `piperead`; asleep on `&p->nread` or about to lock. -/
  | reading (n : Word) (asleep : Bool)
  | returned (value : Word)
  deriving DecidableEq

namespace Caller

/-- `wakeup(&p->nread)` -/
def wakeReader : Caller → Caller
  | .reading n _ => .reading n false
  | c => c

/-- `wakeup(&p->nwrite)` -/
def wakeWriter : Caller → Caller
  | .writing n i _ => .writing n i false
  | c => c

/-- A writer has no more than `n` bytes behind it. -/
def Within : Caller → Prop
  | .writing n i _ => i ≤ n.count
  | _ => True

/-- Outside the pipe's functions. -/
def away : Caller → Bool
  | .outside | .returned _ => true
  | _ => false

end Caller

/-- A pipe, its callers, and what has been stored and delivered so far. -/
structure PipeState (ι : Type) where
  pipe : Pipe
  freed : Bool
  callers : ι → Caller
  killed : ι → Bool
  stored : List Byte
  delivered : List Byte

/-- The steps; a writer's memory is read when it stores. -/
inductive PipeAct (ι : Type)
  | pipewrite (p : ι) (n : Word)
  | piperead (p : ι) (n : Word)
  | write (p : ι) (addr : ℕ → Byte)
  | read (p : ι)
  | pipeclose (writable : Bool)
  | kill (p : ι)

namespace PipeState

variable {ι : Type}

/-- Nobody has used the pipe yet. -/
def fresh (page : Fin pipeSize → Byte) (killed : ι → Bool) : PipeState ι where
  pipe := Pipe.pipealloc page
  freed := false
  callers := fun _ ↦ .outside
  killed := killed
  stored := []
  delivered := []

variable [DecidableEq ι]

def setCaller (s : PipeState ι) (p : ι) (c : Caller) : PipeState ι :=
  { s with callers := Function.update s.callers p c }

def wakeReaders (s : PipeState ι) : PipeState ι :=
  { s with callers := fun q ↦ (s.callers q).wakeReader }

def wakeWriters (s : PipeState ι) : PipeState ι :=
  { s with callers := fun q ↦ (s.callers q).wakeWriter }

/-- A critical section of `pipewrite`.  A writer that gives up does not wake the readers. -/
def writeStep (s : PipeState ι) (p : ι) (n : Word) (i : ℕ) (addr : ℕ → Byte) : PipeState ι :=
  let (pipe, bytes, outcome) := s.pipe.writeLoop (s.killed p) addr (n.count - i) i
  let s := { s with pipe := pipe, stored := s.stored ++ bytes }
  match outcome with
  | .finished => s.wakeReaders.setCaller p (.returned n)
  | .failed => s.setCaller p (.returned (-1))
  | .sleeps j => s.wakeReaders.setCaller p (.writing n j true)

/-- A critical section of `piperead`. -/
def readStep (s : PipeState ι) (p : ι) (n : Word) : PipeState ι :=
  if s.pipe.empty && s.pipe.writeopen then
    if s.killed p then s.setCaller p (.returned (-1)) else s.setCaller p (.reading n true)
  else
    let (pipe, bytes) := s.pipe.readLoop n.count
    let s := { s with pipe := pipe, delivered := s.delivered ++ bytes }
    s.wakeWriters.setCaller p (.returned (BitVec.ofNat 32 bytes.length))

/-- `pipeclose`: the pipe goes when both of its ends are closed. -/
def closeStep (s : PipeState ι) (writable : Bool) : PipeState ι :=
  let s :=
    if writable then { s.wakeReaders with pipe := { s.pipe with writeopen := false } }
    else { s.wakeWriters with pipe := { s.pipe with readopen := false } }
  { s with freed := !s.pipe.readopen && !s.pipe.writeopen }

/-- The step of an action; none is taken on a pipe that is gone. -/
def step (s : PipeState ι) (a : PipeAct ι) : Option (PipeState ι) :=
  if s.freed then none
  else match a with
    | .pipewrite p n => if (s.callers p).away then some (s.setCaller p (.writing n 0 false)) else none
    | .piperead p n => if (s.callers p).away then some (s.setCaller p (.reading n false)) else none
    | .write p addr =>
      match s.callers p with
      | .writing n i false => some (s.writeStep p n i addr)
      | _ => none
    | .read p =>
      match s.callers p with
      | .reading n false => some (s.readStep p n)
      | _ => none
    | .pipeclose writable => some (s.closeStep writable)
    | .kill p =>
      let woken := (s.callers p).wakeReader.wakeWriter
      some { s.setCaller p woken with killed := Function.update s.killed p true }

end PipeState

/-! ## The bytes between the counters -/

/-- The bytes that have been stored and not fetched. -/
def Pipe.Contains (p : Pipe) (contents : List Byte) : Prop :=
  Ring.Holds p.data p.nread p.nwrite contents

namespace Pipe

variable {p : Pipe} {contents : List Byte}

theorem contains_pipealloc (page : Fin pipeSize → Byte) : (pipealloc page).Contains [] :=
  .nil page 0

section

variable (h : p.Contains contents)
include h

theorem Contains.empty_iff : p.empty = true ↔ contents = [] := by
  rw [empty, beq_iff_eq]
  exact Ring.Holds.eq_iff (by decide) h

theorem Contains.full_iff :
    p.full = true ↔ contents.length = pipeSize := by
  rw [full, beq_iff_eq]
  exact Ring.Holds.full_iff (by decide) h

theorem Contains.store (hroom : ¬ p.full = true) (c : Byte) :
    (p.store c).Contains (contents ++ [c]) := by
  have hlength : contents.length < pipeSize := by
    apply lt_of_le_of_ne h.fits
    intro hfull
    exact hroom (h.full_iff.mpr hfull)
  exact .push (by decide) h hlength c

/-- The writer's loop appends what it stores. -/
theorem Contains.writeLoop (killed : Bool) (addr : ℕ → Byte) (left i : ℕ) :
    (p.writeLoop killed addr left i).1.Contains
      (contents ++ (p.writeLoop killed addr left i).2.1) := by
  induction left generalizing p contents i with
  | zero =>
    rw [Pipe.writeLoop, append_nil]
    exact h
  | succ left ih =>
    rw [Pipe.writeLoop]
    by_cases hfull : p.full = true
    · rw [if_pos hfull, append_nil]
      exact h
    · rw [if_neg hfull]
      have hrest := ih (h.store hfull (addr i)) (i + 1)
      rw [append_assoc] at hrest
      exact hrest

/-- The reader's loop takes from the front, and all there is unless its count is met. -/
theorem Contains.readLoop (left : ℕ) :
    (p.readLoop left).2 = contents.take left ∧
      (p.readLoop left).1.Contains (contents.drop left) := by
  induction left generalizing p contents with
  | zero => exact ⟨rfl, h⟩
  | succ left ih =>
    rw [Pipe.readLoop]
    cases contents with
    | nil =>
      rw [if_pos (h.empty_iff.mpr rfl)]
      exact ⟨rfl, h⟩
    | cons c rest =>
      have hnonempty : ¬ p.empty = true := by
        intro hempty
        cases h.empty_iff.mp hempty
      have hhead : p.fetch.1 = c := Ring.Holds.head h
      have hpop : p.fetch.2.Contains rest := .pop h
      obtain ⟨hbytes, hleft⟩ := ih hpop
      rw [if_neg hnonempty]
      constructor
      · rw [take_succ_cons, ← hbytes, ← hhead]
      · exact hleft

end

/-- The writer's loop stores the bytes from `addr[i]` on, all of them unless the pipe is full. -/
theorem writeLoop_bytes (p : Pipe) (killed : Bool) (addr : ℕ → Byte) (left i : ℕ) :
    ∃ m ≤ left, (p.writeLoop killed addr left i).2.1 = (range m).map (fun k ↦ addr (i + k)) ∧
      (p.writeLoop killed addr left i).2.2 = (if m = left then .finished
        else if !p.readopen || killed then .failed else .sleeps (i + m)) ∧
      (m < left → (p.writeLoop killed addr left i).1.full = true) := by
  induction left generalizing p i with
  | zero => exact ⟨0, le_rfl, rfl, rfl, fun h ↦ absurd h (Nat.lt_irrefl 0)⟩
  | succ left ih =>
    rw [Pipe.writeLoop]
    by_cases hfull : p.full = true
    · rw [if_pos hfull]
      exact ⟨0, Nat.zero_le _, rfl, rfl, fun _ ↦ hfull⟩
    · rw [if_neg hfull]
      obtain ⟨m, hm, hbytes, houtcome, hstops⟩ := ih (p.store (addr i)) (i + 1)
      refine ⟨m + 1, by omega, ?_, ?_, fun hlt ↦ hstops (by omega)⟩
      · have hshift : (fun k ↦ addr (i + k)) ∘ Nat.succ = fun k ↦ addr (i + 1 + k) := by
          funext k
          rw [Function.comp_apply, Nat.succ_eq_add_one, show i + (k + 1) = i + 1 + k by omega]
        rw [range_succ_eq_map, map_cons, map_map, hshift, ← hbytes]
        rfl
      · refine houtcome.trans ?_
        simp only [Nat.add_right_cancel_iff]
        rw [show i + 1 + m = i + (m + 1) by omega]
        rfl

theorem readLoop_writeopen (p : Pipe) (left : ℕ) :
    (p.readLoop left).1.writeopen = p.writeopen := by
  induction left generalizing p with
  | zero => rfl
  | succ left ih =>
    rw [readLoop]
    by_cases hempty : p.empty = true
    · rw [if_pos hempty]
    · rw [if_neg hempty]
      exact ih p.fetch.2

end Pipe

/-! ## Runs -/

namespace PipeState

variable {ι : Type} {s t : PipeState ι}

/-- What has been stored is what has been delivered and then what is in the pipe. -/
def Fifo (s : PipeState ι) : Prop :=
  ∃ contents, s.pipe.Contains contents ∧ s.stored = s.delivered ++ contents

theorem fifo_fresh (page : Fin pipeSize → Byte) (killed : ι → Bool) :
    (fresh page killed).Fifo :=
  ⟨[], Pipe.contains_pipealloc page, rfl⟩

theorem Fifo.counters (h : s.Fifo) : (s.pipe.nwrite - s.pipe.nread).toNat ≤ pipeSize := by
  obtain ⟨contents, hcontains, -⟩ := h
  rw [Ring.Holds.toNat_sub (by decide) hcontains]
  exact hcontains.fits

theorem Fifo.closeStep (h : s.Fifo) (writable : Bool) : (s.closeStep writable).Fifo := by
  obtain ⟨contents, hcontains, hstored⟩ := h
  cases writable with
  | true | false => exact ⟨contents, hcontains, hstored⟩

variable [DecidableEq ι]

theorem Fifo.writeStep (h : s.Fifo) (p : ι) (n : Word) (i : ℕ) (addr : ℕ → Byte) :
    (s.writeStep p n i addr).Fifo := by
  obtain ⟨contents, hcontains, hstored⟩ := h
  let written := s.pipe.writeLoop (s.killed p) addr (n.count - i) i
  refine ⟨contents ++ written.2.1, ?_, ?_⟩
  · have hpipe : (s.writeStep p n i addr).pipe = written.1 := by
      unfold PipeState.writeStep
      dsimp only
      split <;> rfl
    rw [hpipe]
    exact hcontains.writeLoop (s.killed p) addr (n.count - i) i
  · have hhistory : (s.writeStep p n i addr).stored = s.stored ++ written.2.1 ∧
        (s.writeStep p n i addr).delivered = s.delivered := by
      unfold PipeState.writeStep
      dsimp only
      split <;> exact ⟨rfl, rfl⟩
    rw [hhistory.1, hhistory.2, hstored, append_assoc]

theorem Fifo.readStep (h : s.Fifo) (p : ι) (n : Word) : (s.readStep p n).Fifo := by
  obtain ⟨contents, hcontains, hstored⟩ := h
  rw [PipeState.readStep]
  by_cases hsleep : (s.pipe.empty && s.pipe.writeopen) = true
  · rw [if_pos hsleep]
    by_cases hkilled : s.killed p = true
    · rw [if_pos hkilled]
      exact ⟨contents, hcontains, hstored⟩
    · rw [if_neg hkilled]
      exact ⟨contents, hcontains, hstored⟩
  · rw [if_neg hsleep]
    obtain ⟨hbytes, hleft⟩ := hcontains.readLoop n.count
    refine ⟨contents.drop n.count, hleft, ?_⟩
    change s.stored = (s.delivered ++ (s.pipe.readLoop n.count).2) ++ contents.drop n.count
    rw [hbytes, append_assoc, take_append_drop, hstored]

theorem step_eq_some {a : PipeAct ι} (hstep : s.step a = some t) :
    match a with
    | .pipewrite p n => t = s.setCaller p (.writing n 0 false)
    | .piperead p n => t = s.setCaller p (.reading n false)
    | .write p addr => ∃ n i, s.callers p = .writing n i false ∧ t = s.writeStep p n i addr
    | .read p => ∃ n, s.callers p = .reading n false ∧ t = s.readStep p n
    | .pipeclose writable => t = s.closeStep writable
    | .kill p => t = { s.setCaller p (s.callers p).wakeReader.wakeWriter with
        killed := Function.update s.killed p true } := by
  unfold PipeState.step at hstep
  by_cases hfreed : s.freed = true
  · rw [if_pos hfreed] at hstep
    cases hstep
  rw [if_neg hfreed] at hstep
  cases a with
  | pipewrite p n | piperead p n =>
    exact (Option.some.inj (Option.ite_none_right_eq_some.mp hstep).2).symm
  | write p addr =>
    dsimp only at hstep
    split at hstep
    · exact ⟨_, _, by assumption, (Option.some.inj hstep).symm⟩
    · cases hstep
  | read p =>
    dsimp only at hstep
    split at hstep
    · exact ⟨_, by assumption, (Option.some.inj hstep).symm⟩
    · cases hstep
  | pipeclose writable | kill p => exact (Option.some.inj hstep).symm

theorem Fifo.step {a : PipeAct ι} (h : s.Fifo) (hstep : s.step a = some t) : t.Fifo := by
  have hnext := step_eq_some hstep
  cases a with
  | pipewrite p n | piperead p n | kill p =>
    obtain rfl : t = _ := hnext
    exact h
  | write p addr =>
    obtain ⟨n, i, -, rfl⟩ := hnext
    exact h.writeStep p n i addr
  | read p =>
    obtain ⟨n, -, rfl⟩ := hnext
    exact h.readStep p n
  | pipeclose writable =>
    obtain rfl : t = _ := hnext
    exact h.closeStep writable

theorem Fifo.of_reaches (h : Runs.Reaches PipeState.step Runs.unguarded s t) (hs : s.Fifo) : t.Fifo :=
  h.invariant hs fun _ _ _ hu _ hstep ↦ hu.step hstep

/-! ## One critical section -/

/-- What a critical section of `pipewrite` does that has `addr[i]` to store next: it stores the bytes
before `addr[j]`, and returns `n` if that is all.  Else the pipe is full, and it sleeps, or fails if
the read end is closed or the process killed. -/
def Stores (s : PipeState ι) (p : ι) (n : Word) (i : ℕ) (addr : ℕ → Byte) (t : PipeState ι) : Prop :=
  ∃ j, i ≤ j ∧ j ≤ n.count ∧ t.stored = s.stored ++ (range (j - i)).map (fun k ↦ addr (i + k)) ∧
    t.callers p = (if j = n.count then .returned n
      else if !s.pipe.readopen || s.killed p then .returned (-1) else .writing n j true) ∧
    (j < n.count → t.pipe.full = true)

/-- What a critical section of `piperead` does on a pipe that holds `contents`: it delivers its first
bytes, at most `n` of them, and returns their number.  On an empty pipe that may still be written to it
sleeps, or fails if the process is killed. -/
def Delivers (s : PipeState ι) (p : ι) (n : Word) (contents : List Byte) (t : PipeState ι) : Prop :=
  if contents = [] ∧ s.pipe.writeopen = true then
    t.delivered = s.delivered ∧ t.callers p = if s.killed p then .returned (-1) else .reading n true
  else t.delivered = s.delivered ++ contents.take n.count ∧
    t.callers p = .returned (BitVec.ofNat 32 (contents.take n.count).length)

theorem writeStep_stores {p : ι} {n : Word} {i : ℕ} (hi : i ≤ n.count) (addr : ℕ → Byte) :
    s.Stores p n i addr (s.writeStep p n i addr) := by
  obtain ⟨m, hm, hbytes, houtcome, hstops⟩ :=
    s.pipe.writeLoop_bytes (s.killed p) addr (n.count - i) i
  rcases hloop : s.pipe.writeLoop (s.killed p) addr (n.count - i) i with ⟨pipe, bytes, outcome⟩
  rw [hloop] at hbytes houtcome hstops
  simp only [writeStep, hloop]
  dsimp only at hbytes houtcome hstops
  have hend : i + m = n.count ↔ m = n.count - i := by omega
  refine ⟨i + m, by omega, by omega, ?_, ?_, fun hlt ↦ ?_⟩
  · rw [Nat.add_sub_cancel_left, ← hbytes]
    split <;> rfl
  · subst houtcome
    simp only [hend]
    split_ifs <;> simp [setCaller]
  · rw [← hstops (by omega)]
    split <;> rfl

theorem readStep_delivers {contents : List Byte} (h : s.pipe.Contains contents) (p : ι) (n : Word) :
    s.Delivers p n contents (s.readStep p n) := by
  obtain ⟨hbytes, -⟩ := h.readLoop n.count
  have hsleeps : (s.pipe.empty && s.pipe.writeopen) = true ↔
      contents = [] ∧ s.pipe.writeopen = true := by
    rw [Bool.and_eq_true, h.empty_iff]
  unfold Delivers PipeState.readStep
  simp only [hsleeps]
  split
  · split <;> exact ⟨rfl, by simp [setCaller]⟩
  · rw [← hbytes]
    exact ⟨rfl, by simp [setCaller]⟩

theorem within_update (h : ∀ p, (s.callers p).Within) (p : ι) {c : Caller} (hc : c.Within)
    (wake : Caller → Caller) (hwake : ∀ c, c.Within → (wake c).Within) (q : ι) :
    (Function.update (fun q ↦ wake (s.callers q)) p c q).Within := by
  by_cases hq : q = p
  · rw [hq, Function.update_self]
    exact hc
  · rw [Function.update_of_ne hq]
    exact hwake _ (h q)

theorem within_step {a : PipeAct ι} (h : ∀ p, (s.callers p).Within) (hstep : s.step a = some t)
    (q : ι) : (t.callers q).Within := by
  have hreader (c : Caller) (hc : c.Within) : c.wakeReader.Within := by
    cases c <;> exact hc
  have hwriter (c : Caller) (hc : c.Within) : c.wakeWriter.Within := by
    cases c <;> exact hc
  have hnext := step_eq_some hstep
  cases a with
  | pipewrite p n =>
    obtain rfl : t = _ := hnext
    exact within_update h p (Nat.zero_le _) id (fun _ ↦ id) q
  | piperead p n =>
    obtain rfl : t = _ := hnext
    exact within_update (c := .reading n false) h p trivial id (fun _ ↦ id) q
  | write p addr =>
    obtain ⟨n, i, hcaller, rfl⟩ := hnext
    have hi : i ≤ n.count := by
      have hp := h p
      rwa [hcaller] at hp
    obtain ⟨m, hm, -, houtcome, -⟩ :=
      s.pipe.writeLoop_bytes (s.killed p) addr (n.count - i) i
    rcases hloop : s.pipe.writeLoop (s.killed p) addr (n.count - i) i with ⟨pipe, bytes, outcome⟩
    rw [hloop] at houtcome
    simp only [writeStep, hloop]
    cases outcome with
    | finished => exact within_update (c := .returned n) h p trivial _ hreader q
    | failed => exact within_update (c := .returned (-1)) h p trivial id (fun _ ↦ id) q
    | sleeps j =>
      have hj : j ≤ n.count := by grind
      exact within_update (c := .writing n j true) h p hj _ hreader q
  | read p =>
    obtain ⟨n, -, rfl⟩ := hnext
    unfold readStep
    split
    · split
      · exact within_update (c := .returned (-1)) h p trivial id (fun _ ↦ id) q
      · exact within_update (c := .reading n true) h p trivial id (fun _ ↦ id) q
    · exact within_update (c := .returned _) h p trivial _ hwriter q
  | pipeclose writable =>
    obtain rfl : t = _ := hnext
    cases writable with
    | true => exact hreader _ (h q)
    | false => exact hwriter _ (h q)
  | kill p =>
    obtain rfl : t = _ := hnext
    exact within_update h p (hwriter _ (hreader _ (h p))) id (fun _ ↦ id) q

/-- A reader that wants bytes and gets none has found the pipe empty and its write end closed. -/
theorem Fifo.readStep_zero (h : s.Fifo) {p : ι} {n : Word} (hn : 0 < n.toInt)
    (hzero : (s.readStep p n).callers p = .returned 0) :
    (s.readStep p n).pipe.empty = true ∧ (s.readStep p n).pipe.writeopen = false := by
  obtain ⟨contents, hcontains, -⟩ := h
  have hcount : 0 < n.count := by
    unfold Word.count
    omega
  unfold PipeState.readStep at hzero ⊢
  by_cases hsleep : (s.pipe.empty && s.pipe.writeopen) = true
  · rw [if_pos hsleep] at hzero
    by_cases hkilled : s.killed p = true
    · rw [if_pos hkilled] at hzero
      simp [setCaller] at hzero
    · rw [if_neg hkilled] at hzero
      simp [setCaller] at hzero
  · rw [if_neg hsleep] at hzero ⊢
    obtain ⟨hbytes, hleft⟩ := hcontains.readLoop n.count
    have hnone : contents.take n.count = [] := by
      have hlength : BitVec.ofNat 32 (s.pipe.readLoop n.count).2.length = 0 := by
        simpa [setCaller] using hzero
      have hsmall : (contents.take n.count).length ≤ pipeSize :=
        (length_take_le' n.count contents).trans hcontains.fits
      rw [hbytes] at hlength
      have hmod : (contents.take n.count).length % 2 ^ 32 = 0 := by
        have hnat := congrArg BitVec.toNat hlength
        rwa [BitVec.toNat_ofNat] at hnat
      rw [Nat.mod_eq_of_lt (lt_of_le_of_lt hsmall (by decide))] at hmod
      exact length_eq_zero_iff.mp hmod
    have hempty : contents = [] := by
      rcases take_eq_nil_iff.mp hnone with hzero' | hnil
      · omega
      · exact hnil
    have hdrop : contents.drop n.count = [] := by rw [hempty, drop_nil]
    constructor
    · exact hleft.empty_iff.mpr hdrop
    · change (s.pipe.readLoop n.count).1.writeopen = false
      rw [Pipe.readLoop_writeopen]
      have hpipe : s.pipe.empty = true := hcontains.empty_iff.mpr hempty
      simpa [hpipe] using hsleep

end PipeState

/-- **Pipes are lossless first-in first-out queues.**  In every state of every run on a fresh pipe the
counters are at most `PIPESIZE` apart, and the bytes stored are those delivered and then those in the
pipe.  Each critical section of `pipewrite` stores the next bytes of its caller, so that all `n` are
stored when it returns `n`; each one of `piperead` delivers the oldest bytes, and a read of a positive
count returns `0` only if the pipe is empty and its write end closed. -/
theorem pipe_fifo {ι : Type} [DecidableEq ι] (page : Fin pipeSize → Byte) (killed : ι → Bool)
    {s : PipeState ι}
    (h : Runs.Reaches PipeState.step Runs.unguarded (PipeState.fresh page killed) s) :
    (s.pipe.nwrite - s.pipe.nread).toNat ≤ pipeSize ∧
      (∃ contents, s.pipe.Contains contents ∧ s.stored = s.delivered ++ contents ∧
        ∀ p n t, s.callers p = .reading n false → s.step (.read p) = some t →
          s.Delivers p n contents t) ∧
      (∀ p n i addr t, s.callers p = .writing n i false → s.step (.write p addr) = some t →
        s.Stores p n i addr t) ∧
      ∀ p n t, s.callers p = .reading n false → s.step (.read p) = some t →
        t.callers p = .returned 0 → 0 < n.toInt →
          t.pipe.nread = t.pipe.nwrite ∧ t.pipe.writeopen = false := by
  have hfifo : s.Fifo := PipeState.Fifo.of_reaches h (PipeState.fifo_fresh page killed)
  have hwithin : ∀ p, (s.callers p).Within :=
    h.invariant (I := fun s ↦ ∀ p, (s.callers p).Within) (fun _ ↦ trivial)
      fun _ _ _ hu _ hstep ↦ PipeState.within_step hu hstep
  have hread {p n t} (hcaller : s.callers p = .reading n false) (hstep : s.step (.read p) = some t) :
      t = s.readStep p n := by
    obtain ⟨n', hcaller', rfl⟩ := PipeState.step_eq_some hstep
    rw [hcaller] at hcaller'
    cases hcaller'
    rfl
  refine ⟨hfifo.counters, ?_, ?_, ?_⟩
  · obtain ⟨contents, hcontains, hstored⟩ := hfifo
    refine ⟨contents, hcontains, hstored, fun p n t hcaller hstep ↦ ?_⟩
    rw [hread hcaller hstep]
    exact PipeState.readStep_delivers hcontains p n
  · intro p n i addr t hcaller hstep
    obtain ⟨n', i', hcaller', rfl⟩ := PipeState.step_eq_some hstep
    rw [hcaller] at hcaller'
    cases hcaller'
    have hi := hwithin p
    rw [hcaller] at hi
    exact PipeState.writeStep_stores hi addr
  · intro p n t hcaller hstep hzero hn
    rw [hread hcaller hstep] at hzero ⊢
    obtain ⟨hempty, hclosed⟩ := hfifo.readStep_zero hn hzero
    exact ⟨beq_iff_eq.mp hempty, hclosed⟩

/-- Two callers: the first one stores three bytes, the second one takes two of them, and the third is
still in the pipe. -/
theorem pipe_fifo_threeBytes :
    ∃ s : PipeState Bool, Runs.Reaches PipeState.step Runs.unguarded
        (PipeState.fresh (fun _ ↦ 0) fun _ ↦ false) s ∧
      s.delivered = [7, 8] ∧ s.pipe.Contains [9] ∧ s.callers false = .returned 3 ∧
      s.callers true = .returned 2 := by
  obtain ⟨s, hs, hstored, hdelivered, hcallers⟩ : ∃ s ∈ Runs.run PipeState.step
      [.pipewrite false 3, .write false fun i ↦ BitVec.ofNat 8 (7 + i), .piperead true 2, .read true]
      (PipeState.fresh (fun _ ↦ 0) fun _ ↦ false),
      s.stored = [7, 8, 9] ∧ s.delivered = [7, 8] ∧ s.callers false = .returned 3 ∧
        s.callers true = .returned 2 := by
    decide
  have hreaches := Runs.reaches_of_run hs
  obtain ⟨-, ⟨contents, hcontains, hall, -⟩, -⟩ := pipe_fifo _ _ hreaches
  rw [hstored, hdelivered, show ([7, 8, 9] : List Byte) = [7, 8] ++ [9] from rfl,
    append_cancel_left_eq] at hall
  exact ⟨s, hreaches, hdelivered, hall ▸ hcontains, hcallers⟩

end Xv6Mmap.Io
