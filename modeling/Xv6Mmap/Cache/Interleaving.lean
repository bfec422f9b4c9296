import Mathlib.Data.List.FinRange
import Xv6Mmap.Kernel.Word
import Xv6Mmap.Library.Memory

/-!
# The page cache under concurrency (`pagecache.c`, `sleeplock.c`)

Any number of processes call `copyPage` and `updatePage`.  A step of a process goes from one lock
operation to the next: the lookup under `pagecache.lock`, `acquiresleep` on the lock of a page, and
the parts of the work under that lock, during which other processes run.  What `readi` delivers is a
parameter of the step that reads, and so are the bytes that `updatePage` copies.

A process that looks a page up and finds it keeps `pagecache.lock` while it calls `acquiresleep`.  If
the page is locked it goes to sleep with a spin lock held, and `sched` panics.
-/

namespace Xv6Mmap.Cache

open Function Library.Memory

structure Key where
  dev : Word
  inodeNumber : Word
  offset : Word
  deriving DecidableEq

/-- The offset of the page that a file offset lies in. -/
def alignedOffset (offset : Word) : Word := offset - offset.srem pgSize

/-- The arguments of `copyPage`. -/
structure CopyCall where
  offset : Word
  inum : Word
  dev : Word
  dest : Word
  size : Word
  destOffset : Word

def CopyCall.key (c : CopyCall) : Key := ⟨c.dev, c.inum, alignedOffset c.offset⟩

/-- The arguments of `updatePage`, with the bytes at `addr`. -/
structure UpdateCall where
  offset : Word
  inum : Word
  dev : Word
  data : ℕ → Byte
  size : Word

def UpdateCall.key (c : UpdateCall) : Key := ⟨c.dev, c.inum, alignedOffset c.offset⟩
def UpdateCall.startAddr (c : UpdateCall) : Word := c.offset.srem pgSize

inductive Call where
  | copy (c : CopyCall)
  | update (c : UpdateCall)

/-- `struct cached_page`; `lock` is the process that holds the sleep lock. -/
structure Entry (ι : Type) where
  key : Key
  page : Word
  lock : Option ι

inductive SpinLock where
  | pagecache
  | ptable
  deriving DecidableEq

/-- On whose behalf a process calls `acquiresleep`. -/
inductive Job where
  | hit (c : CopyCall)
  | miss (c : CopyCall)
  | update (c : UpdateCall)

/-- The spin locks that the process holds during that call, apart from the one inside the sleep
lock. -/
def Job.held : Job → List SpinLock
  | .hit _ => [.pagecache]
  | .miss _ => []
  | .update _ => []

/-- Where a process stands. -/
inductive Phase where
  | idle
  | waits (job : Job) (i : Fin nPageCache) (asleep : Bool)
  | locked (c : CopyCall) (i : Fin nPageCache)
  | wrapped (c : CopyCall) (i : Fin nPageCache)
  | filled (c : CopyCall) (i : Fin nPageCache)
  | holds (c : CopyCall) (i : Fin nPageCache)
  | patches (c : UpdateCall) (i : Fin nPageCache)
  | done (i : Fin nPageCache)

/-- What the process does next once it has the lock. -/
def Job.granted : Job → Fin nPageCache → Phase
  | .hit c => .holds c
  | .miss c => .locked c
  | .update c => .patches c

inductive Panic where
  | schedLocks
  | copyPage
  /-- Not a panic of the source: an access to `pages[i]` with `i ≥ NPAGECACHE`. -/
  | wildVictim
  deriving DecidableEq

/-- The page cache, the memory of its frames and the processes.  `spin` is the process that holds
`pagecache.lock`; `victims` lists the indices of all victims chosen so far. -/
structure State (ι : Type) where
  entries : Fin nPageCache → Entry ι
  totalCount : ℕ
  spin : Option ι
  mem : Word → Byte
  phases : ι → Phase
  victims : List ℕ
  panicked : Option Panic

namespace State

variable {ι : Type}

def findPage (s : State ι) (key : Key) : Option (Fin nPageCache) :=
  (List.finRange nPageCache).find? fun i ↦ (s.entries i).key = key

section Steps

variable [DecidableEq ι]

/-- Process `p` goes to another phase. -/
def move (s : State ι) (p : ι) (phase : Phase) : State ι :=
  { s with phases := update s.phases p phase }

def setEntry (s : State ι) (i : Fin nPageCache) (entry : Entry ι) : State ι :=
  { s with entries := update s.entries i entry }

/-- `pagecache.totalCount++` on a miss. -/
def chooseVictim (s : State ι) : State ι :=
  { s with
    totalCount := s.totalCount + 1
    victims := s.victims ++ [s.totalCount] }

/-- The part of `getPage` and `updatePage` under `pagecache.lock`, up to `acquiresleep`. -/
def lookup (s : State ι) (p : ι) (call : Call) : Option (State ι) :=
  match s.spin, s.phases p with
  | none, .idle =>
    match call with
    | .copy c =>
      match s.findPage c.key with
      | some i => some { s.move p (.waits (.hit c) i false) with spin := some p }
      | none =>
        if h : s.totalCount < nPageCache then
          some (s.chooseVictim.move p (.waits (.miss c) ⟨s.totalCount, h⟩ false))
        else some { s.chooseVictim with panicked := some .wildVictim }
    | .update c =>
      match s.findPage c.key with
      | some i => some (s.move p (.waits (.update c) i false))
      | none => some s
  | _, _ => none

/-- `acquiresleep`, once: it takes the lock or goes to sleep.  In `sched` the process holds
`ptable.lock` and what it held before. -/
def acquiresleep (s : State ι) (p : ι) : Option (State ι) :=
  match s.phases p with
  | .waits job i false =>
    match (s.entries i).lock with
    | none =>
      some { (s.setEntry i { s.entries i with lock := some p }).move p (job.granted i) with
        -- on a hit `release(&pagecache.lock)` follows
        spin := if .pagecache ∈ job.held then none else s.spin }
    | some _ =>
      let s := s.move p (.waits job i true)
      if (SpinLock.ptable :: job.held).length = 1 then some s
      else some { s with panicked := some .schedLocks }
  | _ => none

def wrap (s : State ι) (p : ι) : Option (State ι) :=
  match s.phases p with
  | .locked c i =>
    some { s.move p (.wrapped c i) with
      totalCount := if s.totalCount = nPageCache then 0 else s.totalCount }
  | _ => none

/-- `memset` and `readi`; `none` is the result `-1` of `readi`, after which `copyPage` returns with
the page still locked. -/
def fill (s : State ι) (p : ι) (data : Option (List Byte)) : Option (State ι) :=
  match s.phases p with
  | .wrapped c i =>
    let page := (s.entries i).page
    let cleared := blit s.mem page 4096 fun _ ↦ 0
    match data with
    | none => some { s.move p .idle with mem := cleared }
    | some bytes =>
      some { s.move p (.filled c i) with
        mem := blit cleared page (min bytes.length 4096) fun k ↦ bytes.getD k 0 }
  | _ => none

def setKey (s : State ι) (p : ι) : Option (State ι) :=
  match s.phases p with
  | .filled c i => some ((s.setEntry i { s.entries i with key := c.key }).move p (.holds c i))
  | _ => none

/-- The rest of `copyPage` up to `releasesleep`. -/
def copy (s : State ι) (p : ι) : Option (State ι) :=
  match s.phases p with
  | .holds c i =>
    if (s.entries i).lock = some p then
      some { s.move p (.done i) with
        mem := blit s.mem c.dest c.size.toNat fun k ↦
          s.mem ((s.entries i).page + c.destOffset + BitVec.ofNat 32 k) }
    else some { s with panicked := some .copyPage }
  | _ => none

/-- The `memmove` of `updatePage`. -/
def patch (s : State ι) (p : ι) : Option (State ι) :=
  match s.phases p with
  | .patches c i =>
    some { s.move p (.done i) with
      mem := blit s.mem ((s.entries i).page + c.startAddr) c.size.toNat c.data }
  | _ => none

/-- `wakeup` on the lock of page `i`. -/
def wake (i : Fin nPageCache) : Phase → Phase
  | .waits job j true => .waits job j (!decide (j = i))
  | phase => phase

def releasesleep (s : State ι) (p : ι) : Option (State ι) :=
  match s.phases p with
  | .done i =>
    let s := s.setEntry i { s.entries i with lock := none }
    some ({ s with phases := fun q ↦ wake i (s.phases q) }.move p .idle)
  | _ => none

end Steps

end State

inductive Act (ι : Type) where
  | lookup (p : ι) (call : Call)
  | acquiresleep (p : ι)
  | wrap (p : ι)
  | fill (p : ι) (data : Option (List Byte))
  | setKey (p : ι)
  | copy (p : ι)
  | patch (p : ι)
  | releasesleep (p : ι)

namespace State

variable {ι : Type}

/-- One step of the system; none after a panic. -/
def step [DecidableEq ι] (s : State ι) (a : Act ι) : Option (State ι) :=
  if s.panicked.isSome then none
  else match a with
    | .lookup p call => s.lookup p call
    | .acquiresleep p => s.acquiresleep p
    | .wrap p => s.wrap p
    | .fill p data => s.fill p data
    | .setKey p => s.setKey p
    | .copy p => s.copy p
    | .patch p => s.patch p
    | .releasesleep p => s.releasesleep p

/-- After `pagecacheinit`. -/
structure Boot (s : State ι) : Prop where
  keys : ∀ i, (s.entries i).key = ⟨0, 0, 0⟩
  locks : ∀ i, (s.entries i).lock = none
  aligned : ∀ i, (s.entries i).page.toNat % 4096 = 0
  distinct : ∀ i j, (s.entries i).page = (s.entries j).page → i = j
  totalCount : s.totalCount = 0
  spin : s.spin = none
  idle : ∀ p, s.phases p = .idle
  victims : s.victims = []
  panicked : s.panicked = none

/-! ## What a step can do -/

section Inversion

variable [DecidableEq ι] {s t : State ι}

/-- The steps of the system, one case for each way a step can go. -/
inductive Step (s : State ι) : Act ι → State ι → Prop
  | hit {p c i} (hspin : s.spin = none) (hphase : s.phases p = .idle)
      (hfind : s.findPage c.key = some i) :
      Step s (.lookup p (.copy c)) { s with
        phases := update s.phases p (.waits (.hit c) i false)
        spin := some p }
  | miss {p c} (hspin : s.spin = none) (hphase : s.phases p = .idle)
      (hfind : s.findPage c.key = none) (hcount : s.totalCount < nPageCache) :
      Step s (.lookup p (.copy c)) { s with
        phases := update s.phases p (.waits (.miss c) ⟨s.totalCount, hcount⟩ false)
        totalCount := s.totalCount + 1
        victims := s.victims ++ [s.totalCount] }
  | wild {p c} (hspin : s.spin = none) (hphase : s.phases p = .idle)
      (hfind : s.findPage c.key = none) (hcount : nPageCache ≤ s.totalCount) :
      Step s (.lookup p (.copy c)) { s with
        totalCount := s.totalCount + 1
        victims := s.victims ++ [s.totalCount]
        panicked := some .wildVictim }
  | found {p c i} (hspin : s.spin = none) (hphase : s.phases p = .idle)
      (hfind : s.findPage c.key = some i) :
      Step s (.lookup p (.update c)) { s with
        phases := update s.phases p (.waits (.update c) i false) }
  | absent {p c} (hspin : s.spin = none) (hphase : s.phases p = .idle)
      (hfind : s.findPage c.key = none) : Step s (.lookup p (.update c)) s
  | granted {p job i} (hphase : s.phases p = .waits job i false)
      (hlock : (s.entries i).lock = none) :
      Step s (.acquiresleep p) { s with
        entries := update s.entries i { s.entries i with lock := some p }
        phases := update s.phases p (job.granted i)
        spin := if .pagecache ∈ job.held then none else s.spin }
  | sleeps {p job i q} (hphase : s.phases p = .waits job i false)
      (hlock : (s.entries i).lock = some q) (hheld : job.held = []) :
      Step s (.acquiresleep p) { s with
        phases := update s.phases p (.waits job i true) }
  | schedLocks {p job i q} (hphase : s.phases p = .waits job i false)
      (hlock : (s.entries i).lock = some q) (hheld : job.held ≠ []) :
      Step s (.acquiresleep p) { s with
        phases := update s.phases p (.waits job i true)
        panicked := some .schedLocks }
  | wraps {p c i} (hphase : s.phases p = .locked c i) :
      Step s (.wrap p) { s with
        phases := update s.phases p (.wrapped c i)
        totalCount := if s.totalCount = nPageCache then 0 else s.totalCount }
  | fails {p c i mem} (hphase : s.phases p = .wrapped c i) :
      Step s (.fill p none) { s with
        phases := update s.phases p .idle
        mem := mem }
  | fills {p c i mem bytes} (hphase : s.phases p = .wrapped c i) :
      Step s (.fill p (some bytes)) { s with
        phases := update s.phases p (.filled c i)
        mem := mem }
  | keyed {p c i} (hphase : s.phases p = .filled c i) :
      Step s (.setKey p) { s with
        entries := update s.entries i { s.entries i with key := c.key }
        phases := update s.phases p (.holds c i) }
  | copies {p c i mem} (hphase : s.phases p = .holds c i) (hlock : (s.entries i).lock = some p) :
      Step s (.copy p) { s with
        phases := update s.phases p (.done i)
        mem := mem }
  | notHolding {p c i} (hphase : s.phases p = .holds c i) (hlock : (s.entries i).lock ≠ some p) :
      Step s (.copy p) { s with panicked := some .copyPage }
  | patches {p c i} (hphase : s.phases p = .patches c i) :
      Step s (.patch p) { s with
        phases := update s.phases p (.done i)
        mem := blit s.mem ((s.entries i).page + c.startAddr) c.size.toNat c.data }
  | releases {p i} (hphase : s.phases p = .done i) :
      Step s (.releasesleep p) { s with
        entries := update s.entries i { s.entries i with lock := none }
        phases := update (fun q ↦ wake i (s.phases q)) p .idle }

theorem step_lookup {p : ι} {call : Call} (h : s.lookup p call = some t) :
    Step s (.lookup p call) t := by
  unfold lookup at h
  split at h
  case h_2 => cases h
  rename_i hspin hphase
  cases call with
  | copy c =>
    dsimp only at h
    split at h
    · rename_i i hfind
      cases h
      exact .hit hspin hphase hfind
    · rename_i hfind
      split at h
      · rename_i hcount
        cases h
        exact .miss hspin hphase hfind hcount
      · rename_i hcount
        cases h
        exact .wild hspin hphase hfind (Nat.not_lt.mp hcount)
  | update c =>
    dsimp only at h
    split at h
    · rename_i i hfind
      cases h
      exact .found hspin hphase hfind
    · rename_i hfind
      cases h
      exact .absent hspin hphase hfind

theorem step_acquiresleep {p : ι} (h : s.acquiresleep p = some t) :
    Step s (.acquiresleep p) t := by
  rw [acquiresleep] at h
  split at h
  case h_2 => cases h
  rename_i job i hphase
  split at h
  · rename_i hlock
    cases h
    exact .granted hphase hlock
  · rename_i q hlock
    dsimp only at h
    split at h
    · rename_i hlength
      cases h
      apply Step.sleeps hphase hlock
      simpa using hlength
    · rename_i hlength
      cases h
      apply Step.schedLocks hphase hlock
      simpa using hlength

theorem step_cases {a : Act ι} (h : s.step a = some t) :
    s.panicked = none ∧ Step s a t := by
  unfold step at h
  split at h
  · cases h
  rename_i hcalm
  refine ⟨by simpa using hcalm, ?_⟩
  cases a with
  | lookup p call => exact step_lookup h
  | acquiresleep p => exact step_acquiresleep h
  | wrap p =>
    dsimp only at h
    rw [wrap] at h
    split at h
    · cases h
      exact .wraps (by assumption)
    · cases h
  | fill p data =>
    dsimp only at h
    rw [fill] at h
    split at h
    · rename_i hphase
      cases data with
      | none =>
        cases h
        exact .fails hphase
      | some bytes =>
        cases h
        exact .fills hphase
    · cases h
  | setKey p =>
    dsimp only at h
    rw [setKey] at h
    split at h
    · cases h
      exact .keyed (by assumption)
    · cases h
  | copy p =>
    dsimp only at h
    rw [copy] at h
    split at h
    · rename_i hphase
      split at h
      · rename_i hlock
        cases h
        exact .copies hphase hlock
      · rename_i hlock
        cases h
        exact .notHolding hphase hlock
    · cases h
  | patch p =>
    dsimp only at h
    rw [patch] at h
    split at h
    · cases h
      exact .patches (by assumption)
    · cases h
  | releasesleep p =>
    dsimp only at h
    rw [releasesleep] at h
    split at h
    · cases h
      exact .releases (by assumption)
    · cases h

end Inversion

end State

/-! ## An empty cache -/

/-- The page cache after boot, with its frames from `0x300000` on. -/
def cold (ι : Type) : State ι where
  entries i :=
    { key := ⟨0, 0, 0⟩
      page := BitVec.ofNat 32 (0x300000 + 4096 * i.val)
      lock := none }
  totalCount := 0
  spin := none
  mem _ := 0
  phases _ := .idle
  victims := []
  panicked := none

theorem cold_boot {ι : Type} : (cold ι).Boot := by
  have hpage (i : Fin nPageCache) :
      (BitVec.ofNat 32 (0x300000 + 4096 * i.val)).toNat = 0x300000 + 4096 * i.val := by
    have hlt : i.val < 30 := i.isLt
    rw [BitVec.toNat_ofNat]
    omega
  constructor
  case aligned =>
    intro i
    change (BitVec.ofNat 32 (0x300000 + 4096 * i.val)).toNat % 4096 = 0
    rw [hpage]
    omega
  case distinct =>
    intro i j hequal
    have hnat := congrArg BitVec.toNat hequal
    change (BitVec.ofNat 32 (0x300000 + 4096 * i.val)).toNat =
      (BitVec.ofNat 32 (0x300000 + 4096 * j.val)).toNat at hnat
    rw [hpage, hpage] at hnat
    exact Fin.ext (by omega)
  case keys => exact fun _ ↦ rfl
  case locks => exact fun _ ↦ rfl
  case totalCount => rfl
  case spin => rfl
  case idle => exact fun _ ↦ rfl
  case victims => rfl
  case panicked => rfl

/-- A call of `copyPage` for the first byte of a page of inode 2 on device 1. -/
def filePage (offset : Word) : CopyCall where
  offset := offset
  inum := 2
  dev := 1
  dest := 0x400000
  size := 1
  destOffset := 0

end Xv6Mmap.Cache
