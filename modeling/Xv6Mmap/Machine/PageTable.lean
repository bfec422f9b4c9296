import Xv6Mmap.Machine.State

/-!
# Page tables (`vm.c`)

A page directory is named by the frame it lives in.  `walkpgdir` returns the virtual page whose
entry the C function points to; a null pointer is `none`.
-/

namespace Xv6Mmap.Kernel

open Library.Prog

variable {nproc : ℕ}

def setPgdir (pgdir : Word) (f : PageDir → PageDir) : Kernel nproc Unit :=
  modify fun s ↦ { s with pgdirs := Function.update s.pgdirs pgdir (f (s.pgdirs pgdir)) }

def readPte (pgdir : Word) (v : Vpn) : Kernel nproc Word := do
  let s ← get
  return (s.pgdirs pgdir).pte v

def writePte (pgdir : Word) (v : Vpn) (pte : Word) : Kernel nproc Unit :=
  setPgdir pgdir fun d ↦ { d with pte := Function.update d.pte v pte }

/-- A new page-table page: all its entries are zero. -/
def addPageTable (pgdir : Word) (i : BitVec 10) (pgtab : Word) : Kernel nproc Unit := do
  memset pgtab 0 4096
  setPgdir pgdir fun d ↦
    { tabs := Function.update d.tabs i (some pgtab)
      pte := fun v ↦ if v.pdx = i then 0 else d.pte v }

def walkpgdir (pgdir va : Word) (alloc : Bool) : Kernel nproc (Option Vpn) := do
  let s ← get
  if ((s.pgdirs pgdir).tabs (vpn va).pdx).isSome then return some (vpn va)
  else if alloc then
    match ← kalloc with
    | none => return none
    | some pgtab =>
      addPageTable pgdir (vpn va).pdx pgtab
      return some (vpn va)
  else return none

/-- One iteration of the loop of `mappages`; `false` is a return of `-1`. -/
def mapPage (pgdir a pa perm : Word) : Kernel nproc Bool := do
  match ← walkpgdir pgdir a true with
  | none => return false
  | some v =>
    let pte ← readPte pgdir v
    if pte.has pteP then halt .panic
    else
      writePte pgdir v (pa ||| perm ||| pteP)
      return true

/-- The loop of `mappages` from `a` on, for `n + 1` pages. -/
def mapPagesFrom (pgdir a pa perm : Word) : ℕ → Kernel nproc Bool
  | 0 => mapPage pgdir a pa perm
  | n + 1 => do
    if ← mapPage pgdir a pa perm then
      mapPagesFrom pgdir (a + pgSize) (pa + pgSize) perm n
    else return false

def mappages (pgdir va size pa perm : Word) : Kernel nproc Bool :=
  let a := pgRoundDown va
  let last := pgRoundDown (va + size - 1)
  mapPagesFrom pgdir a pa perm ((last - a).toNat / 4096)

/-- `get_physical_page`: the page whose entry is examined, and its frame address or zero. -/
def getPhysicalPage (pgdir tempaddr : Word) : Kernel nproc (Option Vpn × Word) := do
  match ← walkpgdir pgdir tempaddr false with
  | none => return (none, 0)
  | some v =>
    let pte ← readPte pgdir v
    return (some v, pteAddr pte)

/-- Free the frame behind a present entry and clear the entry. -/
def freePage (pgdir : Word) (v : Vpn) : Kernel nproc Unit := do
  let pte ← readPte pgdir v
  if pte.has pteP then
    if pteAddr pte = 0 then halt .panic
    else
      kfree (pteAddr pte)
      writePte pgdir v 0
  else return ()

/-- The loop of `deallocuvm` from `a` on; the counter bounds its iterations. -/
def deallocFrom (pgdir oldsz : Word) : ℕ → Word → Kernel nproc Unit
  | 0, a => if a < oldsz then halt .stuck else return ()
  | n + 1, a => do
    if a < oldsz then
      match ← walkpgdir pgdir a false with
      | none => deallocFrom pgdir oldsz n (((a >>> 22) + 1) <<< 22)
      | some v =>
        freePage pgdir v
        deallocFrom pgdir oldsz n (a + pgSize)
    else return ()

def deallocuvm (pgdir oldsz newsz : Word) : Kernel nproc Word := do
  if oldsz ≤ newsz then return oldsz
  else
    deallocFrom pgdir oldsz (oldsz.toNat / 4096 + 1) (pgRoundUp newsz)
    return newsz

/-- Release the page-table pages behind the directory entries of a list. -/
def freePageTables (pgdir : Word) : List (BitVec 10) → Kernel nproc Unit
  | [] => return ()
  | i :: rest => do
    let s ← get
    match (s.pgdirs pgdir).tabs i with
    | some pgtab => do
      kfree pgtab
      freePageTables pgdir rest
    | none => freePageTables pgdir rest

def pdeIndices : List (BitVec 10) := (List.range 1024).map (BitVec.ofNat 10)

def freevm (pgdir : Word) : Kernel nproc Unit := do
  let _ ← deallocuvm pgdir mmapBase 0
  freePageTables pgdir pdeIndices
  kfree pgdir

/-- The directory entries that the kernel mappings of `kmap` need, in the order in which
`setupkvm` comes to them: `KERNBASE` up to `PHYSTOP`, then the devices. -/
def kernelPdes : List (BitVec 10) :=
  (List.range' 512 56).map (BitVec.ofNat 10) ++ (List.range' 1016 8).map (BitVec.ofNat 10)

/-- Give each directory entry of a list its page-table page; `false` when `kalloc` fails. -/
def mapKernel (pgdir : Word) : List (BitVec 10) → Kernel nproc Bool
  | [] => return true
  | i :: rest => do
    match ← kalloc with
    | none => return false
    | some pgtab =>
      addPageTable pgdir i pgtab
      mapKernel pgdir rest

def setupkvm : Kernel nproc (Option Word) := do
  match ← kalloc with
  | none => return none
  | some pgdir =>
    memset pgdir 0 4096
    setPgdir pgdir fun _ ↦ { tabs := fun _ ↦ none, pte := fun _ ↦ 0 }
    if ← mapKernel pgdir kernelPdes then return some pgdir
    else
      freevm pgdir
      return none

/-- The loop of `allocuvm` from `a` on; `false` is a return of zero. -/
def allocFrom (pgdir oldsz newsz : Word) : ℕ → Word → Kernel nproc Bool
  | 0, a => if a < newsz then halt .stuck else return true
  | n + 1, a => do
    if a < newsz then
      match ← kalloc with
      | none =>
        let _ ← deallocuvm pgdir newsz oldsz
        return false
      | some mem =>
        memset mem 0 4096
        if ← mappages pgdir a pgSize mem (pteW ||| pteU) then
          allocFrom pgdir oldsz newsz n (a + pgSize)
        else
          let _ ← deallocuvm pgdir newsz oldsz
          kfree mem
          return false
    else return true

def allocuvm (pgdir oldsz newsz : Word) : Kernel nproc Word := do
  if mmapBase ≤ newsz then return 0
  else if newsz < oldsz then return oldsz
  else if ← allocFrom pgdir oldsz newsz (newsz.toNat / 4096 + 1) (pgRoundUp oldsz) then
    return newsz
  else return 0

/-- One iteration of the loop of `copyuvm`; `false` is the jump to `bad`. -/
def copyPageTo (pgdir d i : Word) : Kernel nproc Bool := do
  match ← walkpgdir pgdir i false with
  | none => halt .panic
  | some v =>
    let pte ← readPte pgdir v
    if pte.has pteP then
      match ← kalloc with
      | none => return false
      | some mem =>
        memmove mem (pteAddr pte) 4096
        if ← mappages d i pgSize mem (pteFlags pte) then return true
        else
          kfree mem
          return false
    else halt .panic

/-- The loop of `copyuvm` from `i` on; the counter bounds its iterations. -/
def copyFrom (pgdir d sz : Word) : ℕ → Word → Kernel nproc Bool
  | 0, i => if i < sz then halt .stuck else return true
  | n + 1, i => do
    if i < sz then
      if ← copyPageTo pgdir d i then copyFrom pgdir d sz n (i + pgSize) else return false
    else return true

def copyuvm (pgdir sz : Word) : Kernel nproc (Option Word) := do
  match ← setupkvm with
  | none => return none
  | some d =>
    if ← copyFrom pgdir d sz (sz.toNat / 4096 + 1) 0 then return some d
    else
      freevm d
      return none

def clearpteu (pgdir uva : Word) : Kernel nproc Unit := do
  match ← walkpgdir pgdir uva false with
  | none => halt .panic
  | some v =>
    let pte ← readPte pgdir v
    writePte pgdir v (pte &&& ~~~pteU)

end Xv6Mmap.Kernel
