import Xv6Mmap.Library.Ownership
import Xv6Mmap.Library.Runs
import Xv6Mmap.Machine.Process

/-!
# The system

Processes take turns: one operation of one runnable process is one step.  An operation that puts its
process to sleep for ever leaves the machine as it is at that point; a panic ends the run.  A killed
process can only exit.

At boot, `init` is the only process.  Every frame in use (the page directory of `init`, its page
tables and pages, its kernel stack and the pages of the page cache) has one owner and is not on the
free list.
-/

namespace Xv6Mmap

open Library Ownership BitVec List

variable {nproc : ℕ}

namespace Kernel

open Prog

/-- Whether a user access to an address goes through without a trap. -/
def allowed (s : Machine nproc) (p : Fin nproc) (addr : Word) (write : Bool) : Bool :=
  let pte := (s.pgdirs (s.procs p).pgdir).pte (vpn addr)
  pte.has pteP && pte.has pteU && (!write || pte.has pteW)

/-- The page-fault case of `trap`, in user mode. -/
def pageFault (p : Fin nproc) (addr : Word) : Kernel nproc Unit :=
  if isMmapAddr addr then handlePageFault p addr else kill p

/-- A user load, up to the trap if there is one; the instruction is then tried again. -/
def load (p : Fin nproc) (addr : Word) : Kernel nproc Unit := do
  let s ← get
  if allowed s p addr false then return () else pageFault p addr

def store (p : Fin nproc) (addr : Word) (b : Byte) : Kernel nproc Unit := do
  let s ← get
  if allowed s p addr true then
    modify fun s ↦ { s with mem := Function.update s.mem (physical s p addr) b }
  else pageFault p addr

end Kernel

/-- One operation of one process. -/
inductive Op (nproc : ℕ) where
  | load (p : Fin nproc) (addr : Word)
  | store (p : Fin nproc) (addr : Word) (b : Byte)
  | mmap (p : Fin nproc) (call : Kernel.MmapCall)
  | munmap (p : Fin nproc) (addr size : Word)
  | fork (p : Fin nproc)
  | exec (p : Fin nproc) (image : Kernel.ExecImage)
  | exit (p : Fin nproc)
  | wait (p : Fin nproc)

namespace Op

def actor : Op nproc → Fin nproc
  | load p _ => p
  | store p _ _ => p
  | mmap p _ => p
  | munmap p _ _ => p
  | fork p => p
  | exec p _ => p
  | exit p => p
  | wait p => p

def isExit : Op nproc → Bool
  | exit _ => true
  | _ => false

def body : Op nproc → Kernel nproc Unit
  | load p addr => Kernel.load p addr
  | store p addr b => Kernel.store p addr b
  | mmap p call => do let _ ← Kernel.myMmap p call
  | munmap p addr size => do let _ ← Kernel.myMunmap p addr size
  | fork p => do let _ ← Kernel.fork p
  | exec p image => do let _ ← Kernel.exec p image
  | exit p => Kernel.exit p
  | wait p => do let _ ← Kernel.wait p

end Op

namespace Machine

/-- Process `p` never runs again. -/
def asleep (s : Machine nproc) (p : Fin nproc) : Machine nproc :=
  { s with procs := Function.update s.procs p { s.procs p with state := .sleeping } }

def mayRun (s : Machine nproc) (op : Op nproc) : Bool :=
  (s.procs op.actor).state = .runnable && (op.isExit || !(s.procs op.actor).killed)

/-- One step of the system. -/
def step (s : Machine nproc) (op : Op nproc) : Option (Machine nproc) :=
  if s.mayRun op then
    match op.body s with
    | (.ok _, s') => some s'
    | (.error e, s') => if e.sleeps then some (s'.asleep op.actor) else none
  else none

variable {s t : Machine nproc} {op : Op nproc}

/-- A step runs the body of its operation to the end, or until its process is stuck. -/
theorem step_cases (hstep : s.step op = some t) :
    (s.procs op.actor).state = .runnable ∧ (op.body s = (.ok (), t) ∨
      ∃ u e, op.body s = (.error e, u) ∧ e.sleeps = true ∧ t = u.asleep op.actor) := by
  rw [Machine.step] at hstep
  split at hstep
  · rename_i hmay
    rw [mayRun, Bool.and_eq_true] at hmay
    refine ⟨of_decide_eq_true hmay.1, ?_⟩
    rcases hrun : op.body s with ⟨outcome, u⟩
    rw [hrun] at hstep
    cases outcome with
    | ok _ =>
      cases hstep
      exact .inl rfl
    | error e => grind
  · cases hstep

/-- The same for an operation that drops the result of a call. -/
theorem call_cases {α : Type} {c : Kernel nproc α} (hbody : op.body = do let _ ← c)
    (hstep : s.step op = some t) :
    (s.procs op.actor).state = .runnable ∧ ((∃ r, c s = (.ok r, t)) ∨
      ∃ u e, c s = (.error e, u) ∧ e.sleeps = true ∧ t = u.asleep op.actor) := by
  obtain ⟨hp, hrun⟩ := step_cases hstep
  refine ⟨hp, ?_⟩
  rw [hbody, Prog.bind_apply] at hrun
  rcases hcall : c s with ⟨outcome, u⟩
  rw [hcall] at hrun
  rcases hrun with hrun | ⟨w, e, hrun, hsleeps, rfl⟩
  · cases outcome with
    | ok r =>
      cases hrun
      exact .inl ⟨r, rfl⟩
    | error e => cases hrun
  · cases outcome with
    | ok r => cases hrun
    | error e =>
      cases hrun
      exact .inr ⟨u, _, rfl, hsleeps, rfl⟩

end Machine

/-! ## Who owns a frame -/

/-- The places that hold a frame; `reserved` stands for a frame in the hands of the running call. -/
inductive Owner (nproc : ℕ) where
  | dir (pgdir : Word)
  | table (pgdir : Word) (i : BitVec 10)
  | page (pgdir : Word) (v : Vpn)
  | stack (p : Fin nproc)
  | cache (i : Fin nPageCache)
  | reserved (f : Word)

/-- An entry is only filled in where there is a page-table page for it. -/
def PageDir.Tabled (dir : PageDir) : Prop :=
  ∀ v : Vpn, (dir.tabs v.pdx).isSome = false → dir.pte v = 0

namespace Machine

/-- The frames held, by the page directories `dirs` and what hangs off them, the kernel stacks, the
page cache and the running call. -/
def Owns (s : Machine nproc) (dirs reserved : Set Word) : Owner nproc → Word → Prop
  | .dir pgdir, f => pgdir ∈ dirs ∧ f = pgdir
  | .table pgdir i, f => pgdir ∈ dirs ∧ (s.pgdirs pgdir).tabs i = some f
  | .page pgdir v, f => pgdir ∈ dirs ∧ ((s.pgdirs pgdir).pte v).has pteP = true ∧
      pteAddr ((s.pgdirs pgdir).pte v) = f ∧ f ≠ 0
  | .stack p, f => (s.procs p).kstack = f ∧ f ≠ 0
  | .cache i, f => (s.pagecache.pages i).page = f
  | .reserved g, f => g ∈ reserved ∧ f = g

/-- The state after `main` has started `init`.  Files and their contents are arbitrary. -/
structure Boot (s : Machine nproc) : Prop where
  kend_pos : 0 < s.kend
  free_aligned : ∀ f ∈ s.freelist, f.toNat % 4096 = 0
  free_range : ∀ f ∈ s.freelist, s.kend ≤ f ∧ f < physTop
  owners : Sound s.freelist (s.Owns {(s.procs s.initproc).pgdir} ∅) fun _ _ ↦ False
  held_ok : ∀ o f, s.Owns {(s.procs s.initproc).pgdir} ∅ o f → f ≠ 0 ∧ f.toNat % 4096 = 0
  entries : ∀ v, (s.pgdirs (s.procs s.initproc).pgdir).pte v ≠ 0 →
    ((s.pgdirs (s.procs s.initproc).pgdir).pte v).has pteP = true
  init_pages : ∀ v, ((s.pgdirs (s.procs s.initproc).pgdir).pte v).has pteP = true ↔ v = 0
  tabled : ∀ d, (s.pgdirs d).Tabled
  init_sz : (s.procs s.initproc).sz = pgSize
  init_runnable : (s.procs s.initproc).state = .runnable
  unused : ∀ p, p ≠ s.initproc → (s.procs p).state = .unused
  alive : ∀ p, (s.procs p).killed = false
  tables : ∀ p, (s.procs p).mmaps.Fresh
  uncached : ∀ i, (s.pagecache.pages i).dev = 0 ∧ (s.pagecache.pages i).inodeNumber = 0 ∧
    (s.pagecache.pages i).offset = 0 ∧ (s.pagecache.pages i).locked = false
  totalCount_eq : s.pagecache.totalCount = 0
  held_eq : s.held = none

end Machine

/-! ## A boot state -/

namespace BootImage

/-- A frame by its number above a base. -/
def frame (base i : ℕ) : Word := BitVec.ofNat 32 (base + 4096 * i)

theorem toNat_frame (base i : ℕ) (h : base + 4096 * i < 2 ^ 32) :
    (frame base i).toNat = base + 4096 * i := by
  rw [frame, toNat_ofNat, Nat.mod_eq_of_lt h]

def isKernelPde (i : BitVec 10) : Bool :=
  (512 ≤ i.toNat && i.toNat < 568) || 1016 ≤ i.toNat

/-- The page directory of `init`: one user page and the kernel half. -/
def initDir : PageDir where
  tabs i := if i = 0 then some 0x203000
    else if isKernelPde i then some (frame 0x1000000 i.toNat) else none
  pte v := if v = 0 then 0x204007 else 0

/-- A machine that has just booted, with `n + 1` process slots and `frames` free frames. -/
def machine (n frames : ℕ) (files : Word → File) (inodes : InodeRef → Inode) :
    Machine (n + 1) where
  mem _ := 0
  kend := 0x200000
  freelist := (List.range frames).map (frame 0x400000)
  pgdirs d := if d = 0x202000 then initDir else { tabs := fun _ ↦ none, pte := fun _ ↦ 0 }
  procs p :=
    { sz := if p = 0 then pgSize else 0
      pgdir := if p = 0 then 0x202000 else 0
      kstack := if p = 0 then 0x201000 else 0
      state := if p = 0 then .runnable else .unused
      pid := if p = 0 then 1 else 0
      parent := none
      killed := false
      ofile := fun _ ↦ 0
      mmaps := fun _ ↦ MmapRegion.blank }
  initproc := 0
  nextpid := 2
  pagecache :=
    { pages := fun i ↦
        { dev := 0, inodeNumber := 0, offset := 0, page := frame 0x300000 i, locked := false }
      totalCount := 0 }
  files := files
  inodes := inodes
  held := none

/-- The machine without any file. -/
def idle (n frames : ℕ) : Machine (n + 1) :=
  machine n frames
    (fun _ ↦ { type := .none, ref := 0, readable := false, writable := false, ip := ⟨0, 0⟩, off := 0 })
    (fun _ ↦ { size := 0, data := fun _ ↦ 0 })

/-- A private anonymous mapping of one page, at an address of the kernel's choice. -/
def anonymousPage : Kernel.MmapCall where
  addr := 0
  f := 0
  size := pgSize
  offset := 0
  flags := mapPrivate ||| mapAnonymous
  protection := protRead ||| protWrite

/-- A shared anonymous mapping of one page that can be read. -/
def sharedPage : Kernel.MmapCall where
  addr := 0
  f := 0
  size := pgSize
  offset := 0
  flags := mapShared ||| mapAnonymous
  protection := protRead

variable {n frames : ℕ} {files : Word → File} {inodes : InodeRef → Inode}

/-- The one owner that a frame in use can have. -/
def ownerOf (f : Word) : Owner (n + 1) :=
  if f = 0x201000 then .stack 0
  else if f = 0x202000 then .dir 0x202000
  else if f = 0x203000 then .table 0x202000 0
  else if f = 0x204000 then .page 0x202000 0
  else if h : f.toNat < 0x400000 ∧ (f.toNat - 0x300000) / 4096 < nPageCache then
    .cache ⟨(f.toNat - 0x300000) / 4096, h.2⟩
  else .table 0x202000 (BitVec.ofNat 10 ((f.toNat - 0x1000000) / 4096))

theorem owner_unique {o : Owner (n + 1)} {f : Word}
    (h : (machine n frames files inodes).Owns {0x202000} ∅ o f) :
    o = ownerOf f ∧ 0 < f.toNat ∧ f.toNat % 4096 = 0 ∧
      (f.toNat < 0x400000 ∨ 0x1000000 ≤ f.toNat) := by
  cases o with
  | dir d =>
    obtain ⟨rfl, rfl⟩ := h
    exact ⟨rfl, by decide⟩
  | table d i =>
    obtain ⟨rfl, htab⟩ := h
    change initDir.tabs i = some f at htab
    rw [initDir] at htab
    dsimp only at htab
    split at htab
    · rename_i hi
      cases htab
      exact ⟨by rw [hi]; rfl, by decide⟩
    · split at htab
      · cases htab
        have hlt := i.isLt
        have hf := toNat_frame 0x1000000 i.toNat (by omega)
        have hne {c : Word} (hc : c.toNat < 0x400000) : frame 0x1000000 i.toNat ≠ c := by
          intro hequal
          rw [hequal] at hf
          omega
        refine ⟨?_, by omega⟩
        rw [ownerOf, if_neg (hne (by decide)), if_neg (hne (by decide)), if_neg (hne (by decide)),
          if_neg (hne (by decide)), dif_neg (by omega), hf]
        congr
        apply eq_of_toNat_eq
        rw [toNat_ofNat]
        omega
      · cases htab
  | page d v =>
    obtain ⟨rfl, hpresent, hframe, _⟩ := h
    change (initDir.pte v).has pteP = true at hpresent
    change pteAddr (initDir.pte v) = f at hframe
    rw [initDir] at hpresent hframe
    dsimp only at hpresent hframe
    split at hpresent
    · rename_i hv
      subst hv
      rw [if_pos rfl] at hframe
      subst hframe
      exact ⟨rfl, by decide⟩
    · exact absurd hpresent (by decide)
  | stack p =>
    obtain ⟨hstack, hne⟩ := h
    change (if p = 0 then (0x201000 : Word) else 0) = f at hstack
    split at hstack
    · rename_i hp
      subst hp hstack
      exact ⟨rfl, by decide⟩
    · exact absurd hstack.symm hne
  | cache i =>
    change frame 0x300000 i = f at h
    subst h
    have hlt : i.val < 30 := i.isLt
    have hf := toNat_frame 0x300000 i.val (by omega)
    have hne {c : Word} (hc : c.toNat < 0x300000) : frame 0x300000 i.val ≠ c := by
      intro hequal
      rw [hequal] at hf
      omega
    refine ⟨?_, by omega⟩
    rw [ownerOf, if_neg (hne (by decide)), if_neg (hne (by decide)), if_neg (hne (by decide)),
      if_neg (hne (by decide)), dif_pos ⟨by omega, by change _ < 30; omega⟩]
    congr
    apply Fin.ext
    simp only
    omega
  | reserved g =>
    exact absurd h.1 (Set.notMem_empty g)

theorem free_frame {f : Word} (hframes : frames ≤ 0xC00)
    (h : f ∈ (machine n frames files inodes).freelist) :
    ∃ k < frames, f = frame 0x400000 k ∧ f.toNat = 0x400000 + 4096 * k := by
  obtain ⟨k, hk, rfl⟩ := mem_map.mp h
  have hlt := mem_range.mp hk
  exact ⟨k, hlt, rfl, toNat_frame 0x400000 k (by omega)⟩

theorem boot (hframes : frames ≤ 0xC00) : (machine n frames files inodes).Boot where
  kend_pos := by
    change (0 : Word) < 0x200000
    decide
  free_aligned f hf := by
    obtain ⟨k, _, _, hk⟩ := free_frame hframes hf
    omega
  free_range f hf := by
    obtain ⟨k, hlt, _, hk⟩ := free_frame hframes hf
    change (0x200000 : Word) ≤ f ∧ f < physTop
    rw [le_def, lt_def, hk]
    have hkend : (0x200000 : Word).toNat = 0x200000 := rfl
    have htop : physTop.toNat = 0xE000000 := rfl
    omega
  owners := by
    refine ⟨?_, ?_, ?_⟩
    · refine List.Nodup.map_on ?_ nodup_range
      intro k hk l hl hequal
      have hk' := mem_range.mp hk
      have hl' := mem_range.mp hl
      have hnat := congrArg BitVec.toNat hequal
      rw [toNat_frame _ _ (by omega), toNat_frame _ _ (by omega)] at hnat
      omega
    · intro o f ho hf
      obtain ⟨_, _, _, hrange⟩ := owner_unique ho
      obtain ⟨k, hlt, _, hk⟩ := free_frame hframes hf
      omega
    · intro o o' f ho ho'
      exact .inl ((owner_unique ho).1.trans (owner_unique ho').1.symm)
  held_ok o f ho := by
    obtain ⟨_, hpositive, haligned, _⟩ := owner_unique ho
    refine ⟨?_, haligned⟩
    rintro rfl
    exact absurd hpositive (lt_irrefl _)
  entries v hv := by
    change (initDir.pte v).has pteP = true
    change initDir.pte v ≠ 0 at hv
    rw [initDir] at hv ⊢
    dsimp only at hv ⊢
    split
    · decide
    · rename_i hne
      exact absurd (if_neg hne) hv
  init_pages v := by
    change ((if v = 0 then (0x204007 : Word) else 0).has pteP = true) ↔ v = 0
    by_cases hv : v = 0
    · rw [if_pos hv]
      exact iff_of_true (by decide) hv
    · rw [if_neg hv]
      exact iff_of_false (by decide) hv
  tabled d v hv := by
    change (if d = 0x202000 then initDir else ⟨fun _ ↦ none, fun _ ↦ 0⟩ : PageDir).pte v = 0
    change ((if d = 0x202000 then initDir else ⟨fun _ ↦ none, fun _ ↦ 0⟩ : PageDir).tabs
      v.pdx).isSome = false at hv
    split at hv
    · rename_i hd
      rw [if_pos hd, initDir]
      by_cases hzero : v = 0
      · subst hzero
        exact absurd hv (by decide)
      · exact if_neg hzero
    · rename_i hd
      rw [if_neg hd]
  init_sz := rfl
  init_runnable := rfl
  unused p hp := if_neg hp
  alive _ := rfl
  tables _ := ⟨fun _ _ ↦ rfl, rfl⟩
  uncached _ := ⟨rfl, rfl, rfl, rfl⟩
  totalCount_eq := rfl
  held_eq := rfl

end BootImage

end Xv6Mmap
