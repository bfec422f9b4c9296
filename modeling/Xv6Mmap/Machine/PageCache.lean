import Xv6Mmap.Machine.State
import Xv6Mmap.Library.Bytes
import Mathlib.Data.List.FinRange

/-!
# File content and the page cache (`fs.c`, `pagecache.c`, `file.c`)

`readi` and `writei` work on the byte array of an inode, one disk block at a time, or hand the call
to the driver of a device.  `writei` holds the buffer of the block it fills while it fetches the
bytes for it; a read of that block by the same process then sleeps for ever.  The bytes to be written
come from a program `fetch`, since fetching them from user memory may take page faults.
-/

namespace Xv6Mmap

namespace PageCache

def hasKey (cache : PageCache) (inum offset dev : Word) (i : Fin nPageCache) : Bool :=
  (cache.pages i).inodeNumber = inum && (cache.pages i).offset = offset && (cache.pages i).dev = dev

def findPage (cache : PageCache) (inum offset dev : Word) : Option (Fin nPageCache) :=
  (List.finRange nPageCache).find? (cache.hasKey inum offset dev)

end PageCache

namespace Kernel

open Library Prog Bytes

variable {nproc : ℕ}

/-- `bread` on a block of an inode: it never returns while `writei` holds the buffer. -/
def bread (ip : InodeRef) (block : ℕ) : Kernel nproc Unit := do
  let s ← get
  if s.held = some (ip, block) then halt .deadlock else return ()

/-- The loop of `readi`, with `left` bytes to go; the counter bounds its iterations. -/
def readBlocks (ip : InodeRef) : ℕ → Word → ℕ → ℕ → Kernel nproc Unit
  | 0, _, _, _ => return ()
  | n + 1, dst, off, left =>
    if left = 0 then return ()
    else do
      bread ip (off / bSize)
      let m := min left (bSize - off % bSize)
      let s ← get
      copyIn dst (fun j ↦ (s.inodes ip).data (off + j)) m
      readBlocks ip n (dst + BitVec.ofNat 32 m) (off + m) (left - m)

/-- `readi` from `getPage`, whose callers have not locked the inode. -/
def readi (ip : InodeRef) (dst off n : Word) : Kernel nproc Word := do
  let s ← get
  match (s.inodes ip).major with
  | some major =>
    -- `consoleread` begins with `iunlock(ip)`, a panic on an inode that is not locked
    if major = console then halt .panic else return -1
  | none =>
    let size := (s.inodes ip).size
    if size < off || off + n < off then return -1
    else
      let n := if size < off + n then size - off else n
      readBlocks ip n.toNat dst off.toNat n.toNat
      return n

/-- Fetch `m` bytes, the first of them number `i`. -/
def fetchBytes (fetch : ℕ → Kernel nproc Byte) (i : ℕ) : ℕ → Kernel nproc (List Byte)
  | 0 => return []
  | m + 1 => do
    let b ← fetch i
    let rest ← fetchBytes fetch (i + 1) m
    return b :: rest

def setInode (ip : InodeRef) (f : Inode → Inode) : Kernel nproc Unit :=
  modify fun s ↦ { s with inodes := Function.update s.inodes ip (f (s.inodes ip)) }

/-- The loop of `writei`, with `left` bytes to go from byte number `i` of the source. -/
def writeBlocks (ip : InodeRef) (fetch : ℕ → Kernel nproc Byte) : ℕ → ℕ → ℕ → ℕ → Kernel nproc Unit
  | 0, _, _, _ => return ()
  | n + 1, i, off, left =>
    if left = 0 then return ()
    else do
      bread ip (off / bSize)
      modify fun s ↦ { s with held := some (ip, off / bSize) }
      let m := min left (bSize - off % bSize)
      let bytes ← fetchBytes fetch i m
      setInode ip fun inode ↦
        { inode with data := splice inode.data off bytes.length fun k ↦ bytes.getD k 0 }
      modify fun s ↦ { s with held := none }
      writeBlocks ip fetch n (i + m) (off + m) (left - m)

/-- `consolewrite`: the bytes are shown, and none is kept. -/
def consolewrite (fetch : ℕ → Kernel nproc Byte) (i : ℕ) (n : Word) : Kernel nproc Word := do
  let _ ← fetchBytes fetch i n.count
  return n

def writei (ip : InodeRef) (fetch : ℕ → Kernel nproc Byte) (i : ℕ) (off n : Word) :
    Kernel nproc Word := do
  let s ← get
  match (s.inodes ip).major with
  | some major => if major = console then consolewrite fetch i n else return -1
  | none =>
    if (s.inodes ip).size < off || off + n < off then return -1
    else if maxFile * bSize < (off + n).toNat then return -1
    else
      writeBlocks ip fetch n.toNat i off.toNat n.toNat
      setInode ip fun inode ↦
        if 0 < n ∧ inode.size < off + n then { inode with size := off + n } else inode
      return n

/-! ## The page cache -/

def setPage (i : Fin nPageCache) (f : CachedPage → CachedPage) : Kernel nproc Unit :=
  modify fun s ↦ { s with pagecache := { s.pagecache with
    pages := Function.update s.pagecache.pages i (f (s.pagecache.pages i)) } }

def setTotalCount (n : ℕ) : Kernel nproc Unit :=
  modify fun s ↦ { s with pagecache := { s.pagecache with totalCount := n } }

/-- `acquiresleep` on a page.  A lock that is taken stays taken; going to sleep with the cache's
spin lock held is a panic in `sched`. -/
def acquirePage (i : Fin nPageCache) (spinning : Bool) : Kernel nproc Unit := do
  let s ← get
  if (s.pagecache.pages i).locked then halt (if spinning then .panic else .stuck)
  else setPage i fun page ↦ { page with locked := true }

def releasePage (i : Fin nPageCache) : Kernel nproc Unit :=
  setPage i fun page ↦ { page with locked := false }

def updatePage (offset inum dev : Word) (fetch : ℕ → Kernel nproc Byte) (i : ℕ) (size : Word) :
    Kernel nproc Unit := do
  let s ← get
  match s.pagecache.findPage inum (offset - offset.srem pgSize) dev with
  | none => return ()
  | some page => do
    acquirePage page false
    let bytes ← fetchBytes fetch i size.toNat
    copyIn ((s.pagecache.pages page).page + offset.srem pgSize) (fun j ↦ bytes.getD j 0) size.toNat
    releasePage page

/-- `getPage`; `none` is the pointer value `-1` of a failed read, with the page left locked.  A
victim index past the last page would be a wild access and counts as a panic. -/
def getPage (ip : InodeRef) (offset : Word) : Kernel nproc (Option (Fin nPageCache)) := do
  let s ← get
  let offset := offset - offset.srem pgSize
  match s.pagecache.findPage ip.inum offset ip.dev with
  | some page => do
    acquirePage page true
    return some page
  | none =>
    if h : s.pagecache.totalCount < nPageCache then
      let victim : Fin nPageCache := ⟨s.pagecache.totalCount, h⟩
      setTotalCount (s.pagecache.totalCount + 1)
      acquirePage victim false
      setTotalCount (if s.pagecache.totalCount + 1 = nPageCache then 0
        else s.pagecache.totalCount + 1)
      memset (s.pagecache.pages victim).page 0 4096
      let n ← readi ip (s.pagecache.pages victim).page offset pgSize
      if n = -1 then return none
      else
        setPage victim fun page ↦
          { page with dev := ip.dev, inodeNumber := ip.inum, offset := offset }
        return some victim
    else halt .panic

/-- `copyPage(ip, offset, ip->inum, ip->dev, dest, size, dest_offset)`. -/
def copyPage (ip : InodeRef) (offset dest size destOffset : Word) : Kernel nproc Unit := do
  match ← getPage ip offset with
  | none => return ()
  | some page => do
    let s ← get
    memmove dest ((s.pagecache.pages page).page + destOffset) size.toNat
    releasePage page

/-! ## `filewrite` -/

theorem toNat_chunk (left : ℕ) :
    (BitVec.ofNat 32 (min left writeMax)).toNat = min left writeMax := by
  have hwidth : writeMax = 1536 := rfl
  rw [BitVec.toNat_ofNat]
  omega

def setFile (f : Word) (g : File → File) : Kernel nproc Unit :=
  modify fun s ↦ { s with files := Function.update s.files f (g (s.files f)) }

def filedup (f : Word) : Kernel nproc Unit := do
  let s ← get
  if (s.files f).ref.slt 1 then halt .panic
  else setFile f fun file ↦ { file with ref := file.ref + 1 }

/-- `fileclose`; the inode's own reference count is left out. -/
def fileclose (f : Word) : Kernel nproc Unit := do
  let s ← get
  if (s.files f).ref.slt 1 then halt .panic
  else setFile f fun file ↦
    if (0 : Word).slt (file.ref - 1) then { file with ref := file.ref - 1 }
    else { file with ref := 0, type := .none }

/-- The loop of `filewrite`, with `left` bytes to go from byte number `i`; `false` is the `break`
on a negative result of `writei`. -/
def writeChunks (f : Word) (fetch : ℕ → Kernel nproc Byte) : ℕ → ℕ → ℕ → Kernel nproc Bool
  | 0, _, _ => return true
  | n + 1, i, left =>
    if left = 0 then return true
    else do
      let n1 := BitVec.ofNat 32 (min left writeMax)
      let s ← get
      let r ← writei (s.files f).ip fetch i (s.files f).off n1
      if r.slt 0 then return false
      else if r != n1 then halt .panic
      else
        updatePage (s.files f).off (s.files f).ip.inum (s.files f).ip.dev fetch i r
        setFile f fun file ↦ { file with off := file.off + r }
        writeChunks f fetch n (i + r.toNat) (left - r.toNat)

def filewrite (f : Word) (fetch : ℕ → Kernel nproc Byte) (n : Word) : Kernel nproc Word := do
  let s ← get
  if !(s.files f).writable then return -1
  else
    match (s.files f).type with
    | .none => halt .panic
    | .inode =>
      if ← writeChunks f fetch n.count 0 n.count then return if n.slt 0 then -1 else n
      else return -1

end Kernel

end Xv6Mmap
