import Xv6Mmap.Machine.PageTable
import Xv6Mmap.Machine.PageCache

/-!
# Mapping, faulting and unmapping (`sys_mmap.c`, `trap.c`)

A negative return of a C function is a word whose signed value is negative.
-/

namespace Xv6Mmap.Kernel

open Library.Prog

variable {nproc : ℕ}

/-- The copy loop of `map_pagecache_page_util`: `tempsize` bytes are left for `dest`. -/
def fillPage (ip : InodeRef) : ℕ → Word → Word → Word → Word → Kernel nproc Unit
  | 0, _, _, _, _ => halt .stuck
  | n + 1, dest, offset, i, tempsize =>
    if tempsize = 0 then return ()
    else do
      let curroff := offset.srem pgSize
      let currsize := if tempsize.slt (pgSize - curroff) then tempsize else pgSize - curroff
      let s ← get
      if (s.inodes ip).size < curroff then return ()
      else
        copyPage ip (offset + pgSize * i) dest currsize curroff
        fillPage ip n (dest + currsize) 0 (i + 1) (tempsize - currsize)

def mapPagecachePageUtil (p : Fin nproc) (f mmapaddr protection offset size : Word) :
    Kernel nproc Word := do
  match ← kalloc with
  | none => return -1
  | some temp => do
    memset temp 0 4096
    let s ← get
    fillPage (s.files f).ip (size.toNat + 1) temp offset 0 size
    if ← mappages (s.procs p).pgdir mmapaddr pgSize temp protection then return size else return -1

/-- The loop of `map_pagecache_page` from `currsize` on, with `n` iterations left and `size` bytes
to go. -/
def mapFilePages (p : Fin nproc) (f mmapaddr protection offset : Word) :
    ℕ → Word → Word → Kernel nproc Word
  | 0, _, size => return size
  | n + 1, currsize, size => do
    let mapsize := if size.slt pgSize then size else pgSize
    let r ← mapPagecachePageUtil p f (mmapaddr + currsize) protection (offset + currsize) mapsize
    if r.slt 0 then return -1
    else mapFilePages p f mmapaddr protection offset n (currsize + pgSize) (size - pgSize)

def mapPagecachePage (p : Fin nproc) (f mmapaddr protection offset size : Word) :
    Kernel nproc Word :=
  mapFilePages p f mmapaddr protection offset ((size.count + 4095) / 4096) 0 size

/-- `map_anon_page`; its `deallocuvm` on failure has its sizes the wrong way round. -/
def mapAnonPage (p : Fin nproc) (off protection : Word) : Kernel nproc Word := do
  match ← kalloc with
  | none => return -1
  | some mappedPage => do
    memset mappedPage 0 4096
    let s ← get
    if ← mappages (s.procs p).pgdir off pgSize mappedPage protection then return 0
    else
      let _ ← deallocuvm (s.procs p).pgdir (off - pgSize) off
      kfree mappedPage
      return -1

/-- The loop of `map_anon_main` from `i` on, with `n` iterations left. -/
def mapAnonPages (p : Fin nproc) (mmapaddr protection : Word) : ℕ → Word → Kernel nproc Bool
  | 0, _ => return true
  | n + 1, i => do
    let r ← mapAnonPage p (mmapaddr + i) protection
    if r.slt 0 then return false else mapAnonPages p mmapaddr protection n (i + pgSize)

def mapAnonMain (p : Fin nproc) (mmapaddr protection size : Word) : Kernel nproc Word := do
  if ← mapAnonPages p mmapaddr protection ((size.count + 4095) / 4096) 0 then return size
  else return -1

def mmapStoreData (p : Fin nproc) (addr size flags protection f offset : Word) :
    Kernel nproc Word := do
  if flags.has mapAnonymous then
    let r ← mapAnonMain p addr protection size
    if r.slt 0 then return -1 else return 0
  else
    let r ← mapPagecachePage p f addr protection offset size
    if r = -1 then return -1 else return 0

/-! ## The fault handler -/

/-- The entry that `handle_page_fault` picks: the first live one whose range, its end included,
holds the address. -/
def faultEntry (t : RegionTable) (addr : Word) : Option ℕ :=
  (List.range t.total.toNat).find? fun i ↦
    (t i).virtAddr ≤ addr && addr ≤ (t i).virtAddr + (t i).size

def addStored (p : Fin nproc) (i : ℕ) (n : Word) : Kernel nproc Unit :=
  setMmaps p fun t ↦ t.set i { t i with storedSize := (t i).storedSize + n }

def handlePageFault (p : Fin nproc) (addr : Word) : Kernel nproc Unit := do
  let s ← get
  let t := (s.procs p).mmaps
  match faultEntry t addr with
  | none => kill p
  | some i => do
    let (_, pa) ← getPhysicalPage (s.procs p).pgdir (pgRoundDown addr)
    if pa != 0 then kill p
    else
      let remsize := (t i).size - (t i).storedSize
      let size := if remsize < pgSize then remsize else pgSize
      let r ← mmapStoreData p (pgRoundDown addr) size (t i).flags (t i).protection (t i).f
        ((t i).offset + pgRoundDown addr - (t i).virtAddr)
      if r.slt 0 then
        kill p
        addStored p i pgSize
      else addStored p i pgSize

/-- The page-fault case of `trap`: only addresses in the mapping area go to the handler. -/
def isMmapAddr (addr : Word) : Bool := mmapBase ≤ addr && addr < kernBase

def present (s : Machine nproc) (p : Fin nproc) (addr : Word) : Bool :=
  ((s.pgdirs (s.procs p).pgdir).pte (vpn addr)).has pteP

/-- The physical address behind a present user address. -/
def physical (s : Machine nproc) (p : Fin nproc) (addr : Word) : Word :=
  pteAddr ((s.pgdirs (s.procs p).pgdir).pte (vpn addr)) + (addr - pgRoundDown addr)

/-- The kernel reads a byte at a user address, with `n` page faults at most on the way. -/
def loadFaulting (p : Fin nproc) (addr : Word) : ℕ → Kernel nproc Byte
  | 0 => do
    let s ← get
    if present s p addr then return s.mem (physical s p addr) else halt .stuck
  | n + 1 => do
    let s ← get
    if present s p addr then return s.mem (physical s p addr)
    else if isMmapAddr addr then do
      handlePageFault p addr
      loadFaulting p addr n
    else halt .panic

/-- The kernel reads a byte at a user address: an absent page is faulted in.  A fault that maps
nothing is taken again; it maps the page the second time if no bytes were left to load the first
time, and otherwise memory has run out and it is taken for ever. -/
def loadKernel (p : Fin nproc) (addr : Word) : Kernel nproc Byte := loadFaulting p addr 2

/-! ## `my_mmap` and `my_munmap` -/

/-- The integer arguments of the system call, with the file pointer. -/
structure MmapCall where
  addr : Word
  f : Word
  size : Word
  offset : Word
  flags : Word
  protection : Word

def MmapCall.args (call : MmapCall) (file : File) : MmapArgs :=
  { addr := call.addr, f := call.f, size := call.size, offset := call.offset,
    flags := call.flags, protection := call.protection, readable := file.readable,
    writable := file.writable }

def myMmap (p : Fin nproc) (call : MmapCall) : Kernel nproc Word := do
  let s ← get
  let result := (s.procs p).mmaps.myMmap (call.args (s.files call.f))
  setMmaps p fun _ ↦ result.1
  return result.2

/-- Whether unmapping an entry writes it back to its file. -/
def MmapRegion.writesBack (mr : MmapRegion) : Bool :=
  mr.flags.has mapShared && !mr.flags.has mapAnonymous && mr.protection.has protWrite

/-- The write-back of `my_munmap`; `false` when `filewrite` fails. -/
def writeBack (p : Fin nproc) (mr : MmapRegion) : Kernel nproc Bool := do
  if MmapRegion.writesBack mr then
    setFile mr.f fun file ↦ { file with off := mr.offset }
    let r ← filewrite mr.f (fun j ↦ loadKernel p (mr.virtAddr + BitVec.ofNat 32 j)) mr.size
    return !r.slt 0
  else return true

/-- The freeing loop of `my_munmap` from `tempaddr` on, for `n` pages. -/
def freeRange (pgdir tempaddr : Word) : ℕ → Kernel nproc Unit
  | 0 => return ()
  | n + 1 => do
    match ← getPhysicalPage pgdir tempaddr with
    | (some v, pa) =>
      if pa = 0 then freeRange pgdir (tempaddr + pgSize) n
      else
        kfree pa
        writePte pgdir v 0
        freeRange pgdir (tempaddr + pgSize) n
    | (none, _) => freeRange pgdir (tempaddr + pgSize) n

/-- The pages the freeing loop visits: `main_map_size` is a signed minimum. -/
def unmapCount (totalSize unmappingSize : Word) : ℕ :=
  ((if totalSize.slt unmappingSize then totalSize else unmappingSize).count + 4095) / 4096

def myMunmap (p : Fin nproc) (addr size : Word) : Kernel nproc Word := do
  let s ← get
  let t := (s.procs p).mmaps
  let unmappingSize := pgRoundUp size
  match t.findEntry (pgRoundUp addr) with
  | none => return -1
  | some i =>
    if (t i).size = 0 then return -1
    else if ← writeBack p (t i) then
      freeRange (s.procs p).pgdir addr (unmapCount (t i).size unmappingSize)
      setMmaps p fun t ↦ t.dropEntry i unmappingSize
      return 0
    else return -1

/-- The loop of `delete_mmaps`, with `total_maps` to go. -/
def deleteFrom (p : Fin nproc) : ℕ → Kernel nproc Unit
  | 0 => return ()
  | n + 1 => do
    let s ← get
    let t := (s.procs p).mmaps
    if (t (t.total - 1)).refCount = 0 then
      let _ ← myMunmap p (t n).virtAddr (t n).size
      deleteFrom p n
    else deleteFrom p n

def deleteMmaps (p : Fin nproc) : Kernel nproc Unit := do
  let s ← get
  deleteFrom p (s.procs p).mmaps.total.toNat
  setMmaps p fun t ↦ t.setTotal 0

end Xv6Mmap.Kernel
