import Xv6Mmap.Kernel.Word
import Mathlib.Data.Int.Basic
import Mathlib.Logic.Function.Basic

/-!
# The region table of a process

`p->mmaps[k]` is read and written by address arithmetic, so a table is indexed by every integer.
Entries `0` to `29` are the array.  Entry `-1` is the 32 bytes before it (`ofile[13]`, `ofile[14]`,
`ofile[15]`, `cwd` and `name`), and entry `30` is the memory after it, whose first word is
`total_mmaps`; its other words belong to the next slot of the process table and are only read.
-/

namespace Xv6Mmap

/-- `struct mmap_region`; `f` is the address of a `struct file`. -/
structure MmapRegion where
  virtAddr : Word
  size : Word
  flags : Word
  protection : Word
  f : Word
  offset : Word
  refCount : Word
  storedSize : Word
  deriving DecidableEq

abbrev RegionTable := ℤ → MmapRegion

namespace MmapRegion

def blank : MmapRegion where
  virtAddr := 0
  size := 0
  flags := 0
  protection := 0
  f := 0
  offset := 0
  refCount := 0
  storedSize := 0

/-- `zero_mmap_region_struct`: everything but the reference count is cleared. -/
def zeroMmapRegionStruct (mr : MmapRegion) : MmapRegion :=
  { mr with virtAddr := 0, size := 0, flags := 0, protection := 0, f := 0, offset := 0,
            storedSize := 0 }

/-- `copy_mmap_struct(mr1, mr2)`: the reference count and the stored size stay those of `mr1`. -/
def copyMmapStruct (mr1 mr2 : MmapRegion) : MmapRegion :=
  { mr1 with virtAddr := mr2.virtAddr, size := mr2.size, flags := mr2.flags,
             protection := mr2.protection, f := mr2.f, offset := mr2.offset }

end MmapRegion

namespace RegionTable

def totalMmaps (t : RegionTable) : Word := (t 30).virtAddr

/-- The table of a slot that has never been used. -/
def Fresh (t : RegionTable) : Prop :=
  (∀ i : ℕ, i < 30 → t i = MmapRegion.blank) ∧ t.totalMmaps = 0

/-- `total_mmaps` as the loop bounds see it. -/
def total (t : RegionTable) : ℤ := t.totalMmaps.toInt

def set (t : RegionTable) (k : ℤ) (entry : MmapRegion) : RegionTable := Function.update t k entry

def setTotal (t : RegionTable) (n : Word) : RegionTable := t.set 30 { t 30 with virtAddr := n }

def copyEntry (t : RegionTable) (dst src : ℤ) : RegionTable :=
  t.set dst ((t dst).copyMmapStruct (t src))

/-- `n` iterations of `copy_mmap_struct(&mmaps[j], &mmaps[j - 1]); j--`. -/
def shiftRight (t : RegionTable) (j : ℤ) : ℕ → RegionTable
  | 0 => t
  | n + 1 => shiftRight (t.copyEntry j (j - 1)) (j - 1) n

def setupMmapArr (t : RegionTable) (size : Word) (i : ℤ) (mmapaddr : Word) : RegionTable × ℤ :=
  let t := t.shiftRight t.total (t.total - (i + 1)).toNat
  if kernBase ≤ pgRoundUp (mmapaddr + size) then (t, -1)
  else
    (t.set (i + 1) { t (i + 1) with virtAddr := mmapaddr, size := size }, i + 1)

/-- The loop of `check_mmap_possible` from index `i`, with `n` iterations left. -/
def checkGaps (t : RegionTable) (mmapAddr size : Word) (i : ℕ) : ℕ → RegionTable × ℤ
  | 0 => (t, -1)
  | n + 1 =>
    if mmapAddr ≤ (t i).virtAddr then (t, -1)
    else
      let startAddr := pgRoundUp ((t i).virtAddr + (t i).size)
      let endAddr := pgRoundUp (t (i + 1)).virtAddr
      if startAddr < mmapAddr ∧ mmapAddr + size < endAddr then setupMmapArr t size i mmapAddr
      else checkGaps t mmapAddr size (i + 1) n

def checkMmapPossible (t : RegionTable) (addr size : Word) : RegionTable × ℤ :=
  let mmapAddr := pgRoundUp addr
  let last := t (t.total - 1)
  if pgRoundUp (last.virtAddr + last.size) < mmapAddr then
    setupMmapArr t size (t.total - 1) mmapAddr
  else checkGaps t mmapAddr size 0 (t.total - 1).toNat

/-- The index at which the search loop of `find_mmap_addr` stops, from `i` with `n` iterations
left. -/
def findGap (t : RegionTable) (size : Word) (i : ℕ) : ℕ → ℕ
  | 0 => i
  | n + 1 =>
    if (t (i + 1)).virtAddr = 0 then i
    else
      let startAddr := pgRoundUp ((t i).virtAddr + (t i).size)
      let endAddr := pgRoundUp (t (i + 1)).virtAddr
      if size < endAddr - startAddr then i else findGap t size (i + 1) n

def findMmapAddr (t : RegionTable) (size : Word) : RegionTable × ℤ :=
  if t.totalMmaps = 0 then
    if kernBase ≤ pgRoundUp (mmapBase + size) then (t, -1)
    else (t.set 0 { t 0 with virtAddr := pgRoundUp mmapBase, size := size }, 0)
  else if size < (t 0).virtAddr - mmapBase then setupMmapArr t size (-1) mmapBase
  else
    let i := t.findGap size 0 t.total.toNat
    let mmapaddr := pgRoundUp ((t i).virtAddr + (t i).size)
    if kernBase < mmapaddr + size then (t, -1) else setupMmapArr t size i mmapaddr

end RegionTable

/-- The arguments of `my_mmap`, with what it reads of `*f`. -/
structure MmapArgs where
  addr : Word
  f : Word
  size : Word
  offset : Word
  flags : Word
  protection : Word
  readable : Bool
  writable : Bool

namespace MmapArgs

/-- The checks `my_mmap` makes before it looks at the table. -/
def valid (a : MmapArgs) : Bool :=
  (a.flags.has mapPrivate || a.flags.has mapShared) &&
  !(a.size.sle 0 || a.offset.slt 0) &&
  (a.flags.has mapAnonymous || a.readable) &&
  !(a.flags.has mapShared && a.protection.has protWrite && !a.writable)

def roundedAddr (a : MmapArgs) : Word := pgRoundUp (pgRoundUp a.addr + a.size)

/-- The protection word stored in the table. -/
def stored (a : MmapArgs) : Word := if a.protection = protNone then 0 else pteU ||| a.protection

end MmapArgs

namespace RegionTable

/-- Choosing the slot: the part of `my_mmap` between the argument checks and the bookkeeping.
`none` is a return of `-1` from `my_mmap`; `some (-1)` is what a null address under `MAP_FIXED`
leaves in `i`. -/
def chooseSlot (t : RegionTable) (a : MmapArgs) : RegionTable × Option ℤ :=
  if a.flags.has mapFixed then
    if a.addr = 0 then (t, some (-1))
    else if a.addr.slt mmapBase || kernBase < a.roundedAddr || a.addr.srem pgSize != 0 then
      (t, none)
    else
      match t.checkMmapPossible a.addr a.size with
      | (t, i) => if i = -1 then (t, none) else (t, some i)
  else if a.addr = 0 then
    match t.findMmapAddr a.size with
    | (t, i) => if i = -1 then (t, none) else (t, some i)
  else if a.addr.slt mmapBase || kernBase < a.roundedAddr then (t, none)
  else
    match t.checkMmapPossible a.addr a.size with
    | (t, i) =>
      if i = -1 then
        match t.findMmapAddr a.size with
        | (t, i) => if i = -1 then (t, none) else (t, some i)
      else (t, some i)

/-- The bookkeeping of `my_mmap` at the chosen index. -/
def fillEntry (t : RegionTable) (i : ℤ) (a : MmapArgs) : RegionTable :=
  let t := t.set i
    { t i with flags := a.flags, protection := a.stored, offset := a.offset, f := a.f }
  t.setTotal (t.totalMmaps + 1)

/-- `my_mmap` on the table of the calling process; the result is `(void *)-1` on failure. -/
def myMmap (t : RegionTable) (a : MmapArgs) : RegionTable × Word :=
  if !a.valid then (t, -1)
  else if t.totalMmaps = 30 then (t, -1)
  else
    match t.chooseSlot a with
    | (t, none) => (t, -1)
    | (t, some i) =>
      let t := t.fillEntry i a
      (t, (t i).virtAddr)

/-! ## The table side of `my_munmap` -/

/-- The first of the 30 entries that starts at `mainaddr`. -/
def findEntry (t : RegionTable) (mainaddr : Word) : Option ℕ :=
  (List.range 30).find? fun i ↦ (t i).virtAddr == mainaddr

/-- The left shift from index `i`, with `n` iterations left before `i < 30` fails. -/
def shiftLeft (t : RegionTable) (i : ℕ) : ℕ → RegionTable
  | 0 => t
  | n + 1 =>
    if (t (i + 1)).virtAddr = 0 then t else shiftLeft (t.copyEntry i (i + 1)) (i + 1) n

/-- What `my_munmap` does to the table once the pages of entry `i` are freed. -/
def dropEntry (t : RegionTable) (i : ℕ) (unmappingSize : Word) : RegionTable :=
  if (t i).size ≤ unmappingSize then
    let t := t.set i (t i).zeroMmapRegionStruct
    let t := t.shiftLeft i (30 - i)
    t.setTotal (t.totalMmaps - 1)
  else
    t.set i
      { t i with virtAddr := (t i).virtAddr + unmappingSize, size := (t i).size - unmappingSize }

end RegionTable

end Xv6Mmap
