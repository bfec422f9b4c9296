import Xv6Mmap.Machine.Mmap

/-!
# Processes (`proc.c`, `exec.c`) and `copy_maps`

The current directory, the name and the trap frame of a process are left out, as are the bytes that
`exec` loads: an `ExecImage` says which headers `exec` finds in the file and whether its reads and
copies succeed.
-/

namespace Xv6Mmap.Kernel

open Library.Prog

variable {nproc : ℕ}

/-! ## `fork` -/

/-- The first `UNUSED` slot. -/
def findUnused (s : Machine nproc) : Option (Fin nproc) :=
  (List.finRange nproc).find? fun p ↦ (s.procs p).state = .unused

def allocproc : Kernel nproc (Option (Fin nproc)) := do
  let s ← get
  match findUnused s with
  | none => return none
  | some p => do
    setProc p fun proc ↦ { proc with state := .embryo, pid := s.nextpid }
    modify fun s ↦ { s with nextpid := s.nextpid + 1 }
    match ← kalloc with
    | none => do
      setProc p fun proc ↦ { proc with kstack := 0, state := .unused }
      return none
    | some kstack => do
      setProc p fun proc ↦
        { proc with kstack := kstack, mmaps := proc.mmaps.setTotal 0 }
      return some p

/-- Page `start` of shared region `i`: it is faulted in for the parent if it is absent, then the
child maps the parent's frame.  A failing `mappages` is only reported. -/
def sharePage (parent child : Fin nproc) (i : ℕ) (start : Word) : Kernel nproc Bool := do
  let s ← get
  let mr := (s.procs parent).mmaps i
  let (_, pa) ← getPhysicalPage (s.procs parent).pgdir start
  if pa = 0 then
    let totalMmapSize := mr.size - mr.storedSize
    let size := if totalMmapSize.slt pgSize then totalMmapSize else pgSize
    let r ← mmapStoreData parent start size mr.flags mr.protection mr.f mr.offset
    if r.slt 0 then return false
    else
      addStored parent i size
      let (_, pa) ← getPhysicalPage (s.procs parent).pgdir start
      let _ ← mappages (s.procs child).pgdir start pgSize pa mr.protection
      return true
  else
    let _ ← mappages (s.procs child).pgdir start pgSize pa mr.protection
    return true

/-- Page `start` of a private region: a present page is copied, an absent one stays absent. -/
def copyPrivatePage (parent child : Fin nproc) (i : ℕ) (start : Word) : Kernel nproc Bool := do
  let s ← get
  let (_, pa) ← getPhysicalPage (s.procs parent).pgdir start
  if pa = 0 then return true
  else
    match ← kalloc with
    | none => return false
    | some mem =>
      memmove mem pa 4096
      mappages (s.procs child).pgdir start pgSize mem ((s.procs parent).mmaps i).protection

/-- The inner loop of `copy_maps` from `start` on; the counter bounds its iterations. -/
def copyRegionPages (parent child : Fin nproc) (i : ℕ) (isshared : Bool) (stop : Word) :
    ℕ → Word → Kernel nproc Bool
  | 0, start => if start < stop then halt .stuck else return true
  | n + 1, start => do
    if start < stop then
      if ← (if isshared then sharePage parent child i start
          else copyPrivatePage parent child i start) then
        copyRegionPages parent child i isshared stop n (start + pgSize)
      else return false
    else return true

/-- The loop of `copy_maps` from region `i` on, with `n` regions left; `false` is a return of
`-1`. -/
def copyRegions (parent child : Fin nproc) : ℕ → ℕ → Kernel nproc Bool
  | _, 0 => return true
  | i, n + 1 => do
    let s ← get
    let mr := (s.procs parent).mmaps i
    let isshared := mr.flags.has mapShared
    let stop := mr.virtAddr + mr.size
    if ← copyRegionPages parent child i isshared stop
        ((stop.toNat - mr.virtAddr.toNat) / 4096 + 1) mr.virtAddr then
      let s ← get
      setMmaps child fun t ↦
        t.set i ((t i).copyMmapStruct ((s.procs parent).mmaps i))
      if isshared then
        setMmaps child fun t ↦ t.set i { t i with refCount := 1 }
        copyRegions parent child (i + 1) n
      else copyRegions parent child (i + 1) n
    else return false

def copyMaps (parent child : Fin nproc) : Kernel nproc Bool := do
  let s ← get
  if ← copyRegions parent child 0 (s.procs parent).mmaps.total.toNat then
    setMmaps child fun t ↦ t.setTotal (s.procs parent).mmaps.totalMmaps
    return true
  else return false

/-- `kfree(np->kstack); np->kstack = 0; np->state = UNUSED`. -/
def abandon (np : Fin nproc) : Kernel nproc Unit := do
  let s ← get
  kfree (s.procs np).kstack
  setProc np fun proc ↦ { proc with kstack := 0, state := .unused }

/-- A loop over the open files of `p`. -/
def forFiles (p : Fin nproc) (body : Fin nOfile → Word → Kernel nproc Unit) :
    List (Fin nOfile) → Kernel nproc Unit
  | [] => return ()
  | fd :: rest => do
    let s ← get
    if (s.procs p).ofile fd = 0 then forFiles p body rest
    else
      body fd ((s.procs p).ofile fd)
      forFiles p body rest

/-- `p->ofile[fd] = f` -/
def setFd (p : Fin nproc) (fd : Fin nOfile) (f : Word) : Kernel nproc Unit :=
  setProc p fun proc ↦ { proc with ofile := Function.update proc.ofile fd f }

/-- The loop of `fork` over the open files of the parent. -/
def dupFiles (p np : Fin nproc) : List (Fin nOfile) → Kernel nproc Unit :=
  forFiles p fun fd f ↦ do
    filedup f
    setFd np fd f

/-- `fork` by `p`; the slot of the child, or `none` for a return of `-1`. -/
def fork (p : Fin nproc) : Kernel nproc (Option (Fin nproc)) := do
  match ← allocproc with
  | none => return none
  | some np => do
    let s ← get
    match ← copyuvm (s.procs p).pgdir (s.procs p).sz with
    | none => do
      setProc np fun proc ↦ { proc with pgdir := 0 }
      abandon np
      return none
    | some d => do
      setProc np fun proc ↦ { proc with pgdir := d }
      if ← copyMaps p np then
        setProc np fun proc ↦ { proc with sz := (s.procs p).sz, parent := some p }
        dupFiles p np (List.finRange nOfile)
        setProc np fun proc ↦ { proc with state := .runnable }
        return some np
      else
        abandon np
        return none

/-! ## `exit` and `wait` -/

/-- Pass an abandoned child of `p` to `init`. -/
def reparent (p init : Fin nproc) (proc : Proc nproc) : Proc nproc :=
  if proc.parent = some p then { proc with parent := some init } else proc

/-- The loop of `exit` over the open files. -/
def closeFiles (p : Fin nproc) : List (Fin nOfile) → Kernel nproc Unit :=
  forFiles p fun fd f ↦ do
    fileclose f
    setFd p fd 0

def exit (p : Fin nproc) : Kernel nproc Unit := do
  let s ← get
  if p = s.initproc then halt .panic
  else
    closeFiles p (List.finRange nOfile)
    deleteMmaps p
    modify fun s ↦ { s with procs := fun q ↦ reparent p s.initproc (s.procs q) }
    setProc p fun proc ↦ { proc with state := .zombie }

/-- The first zombie child of `p`. -/
def findZombie (s : Machine nproc) (p : Fin nproc) : Option (Fin nproc) :=
  (List.finRange nproc).find? fun q ↦ (s.procs q).parent = some p && (s.procs q).state = .zombie

/-- `wait` by `p`: reap a zombie child.  Without one the call sleeps or fails and changes
nothing. -/
def wait (p : Fin nproc) : Kernel nproc (Option (Fin nproc)) := do
  let s ← get
  match findZombie s p with
  | none => return none
  | some q => do
    kfree (s.procs q).kstack
    setProc q fun proc ↦ { proc with kstack := 0 }
    freevm (s.procs q).pgdir
    setProc q fun proc ↦
      { proc with pid := 0, parent := none, killed := false, state := .unused }
    return some q

/-! ## `exec` -/

/-- A program header as `exec` finds it; `loads` is whether the reads of `loaduvm` succeed. -/
structure ProgHdr where
  isLoad : Bool
  vaddr : Word
  memsz : Word
  filesz : Word
  loads : Bool

/-- What `exec` finds in the file: whether its name, header and magic are in order, the program
headers (`none` for one that cannot be read), and whether the arguments can be pushed. -/
structure ExecImage where
  valid : Bool
  headers : List (Option ProgHdr)
  argsFit : Bool

/-- The loading loop of `exec`; `none` is the jump to `bad`. -/
def loadSegments (pgdir : Word) : List (Option ProgHdr) → Word → Kernel nproc (Option Word)
  | [], sz => return some sz
  | none :: _, _ => return none
  | some ph :: rest, sz =>
    if !ph.isLoad then loadSegments pgdir rest sz
    else if ph.memsz < ph.filesz || ph.vaddr + ph.memsz < ph.vaddr then return none
    else do
      let sz ← allocuvm pgdir sz (ph.vaddr + ph.memsz)
      if sz = 0 then return none
      else if ph.vaddr % pgSize != 0 || !ph.loads then return none
      else loadSegments pgdir rest sz

/-- The new image: its size, or `none` for the jump to `bad`. -/
def buildImage (pgdir : Word) (image : ExecImage) : Kernel nproc (Option Word) := do
  match ← loadSegments pgdir image.headers 0 with
  | none => return none
  | some sz => do
    let sz := pgRoundUp sz
    let sz ← allocuvm pgdir sz (sz + 2 * pgSize)
    if sz = 0 then return none
    else
      clearpteu pgdir (sz - 2 * pgSize)
      if image.argsFit then return some sz else return none

/-- `exec` by `p`; `false` is a return of `-1`. -/
def exec (p : Fin nproc) (image : ExecImage) : Kernel nproc Bool := do
  if !image.valid then return false
  else
    match ← setupkvm with
    | none => return false
    | some pgdir => do
      match ← buildImage pgdir image with
      | none => do
        freevm pgdir
        return false
      | some sz => do
        deleteMmaps p
        let s ← get
        let oldpgdir := (s.procs p).pgdir
        setProc p fun proc ↦ { proc with pgdir := pgdir, sz := sz }
        freevm oldpgdir
        return true

end Xv6Mmap.Kernel
