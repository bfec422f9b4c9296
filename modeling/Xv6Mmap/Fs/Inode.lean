import Xv6Mmap.Fs.Format
import Xv6Mmap.Library.Outcome

/-!
# Blocks and inodes: `balloc`, `bfree`, `bmap`, `itrunc`, `readi`, `writei`, `ialloc`, `iupdate`

The buffer cache is out of the picture here: `Disk` is what `bread` returns.  The functions of `fs.c`
take the copy of an inode that is in memory, and give it back.  Block and inode numbers, and offsets
once they have passed the tests of `readi` and `writei`, are far below `2 ^ 32` and are natural
numbers.
-/

namespace Xv6Mmap.Fs

open Function

/-- What each block holds. -/
abbrev Disk := ℕ → Block

/-- The panics of `fs.c`, and those of its callers. -/
inductive FsPanic where
  | outOfBlocks
  | freeingFreeBlock
  | bmapOutOfRange
  | noInodes
  | noType
  | shortFilewrite
  | dirlookupNotDir
  | dirlookupRead
  | dirlinkRead
  | dirlink
  | isdiremptyReadi
  | unlinkWritei
  deriving DecidableEq

namespace Disk

def dinode (d : Disk) (sb : Superblock) (inum : ℕ) : Dinode :=
  (d (sb.iblock inum)).dinode (inum % ipb)

def setDinode (d : Disk) (sb : Superblock) (inum : ℕ) (ip : Dinode) : Disk :=
  update d (sb.iblock inum) ((d (sb.iblock inum)).setDinode (inum % ipb) ip)

/-- The bit of a block in the bitmap. -/
def used (d : Disk) (sb : Superblock) (b : ℕ) : Bool := (d (sb.bblock b)).bit (b % bpb)

def mark (d : Disk) (sb : Superblock) (b : ℕ) : Disk :=
  update d (sb.bblock b) ((d (sb.bblock b)).setBit (b % bpb))

def unmark (d : Disk) (sb : Superblock) (b : ℕ) : Disk :=
  update d (sb.bblock b) ((d (sb.bblock b)).clearBit (b % bpb))

def bzero (d : Disk) (b : ℕ) : Disk := update d b Block.zero

end Disk

section Functions

variable (sb : Superblock)

/-- The two loops of `balloc` go through the blocks in order. -/
def balloc (d : Disk) : Except FsPanic (Disk × ℕ) :=
  match (List.range sb.size).find? fun b ↦ !d.used sb b with
  | some b => .ok ((d.mark sb b).bzero b, b)
  | none => .error .outOfBlocks

def bfree (d : Disk) (b : ℕ) : Except FsPanic Disk :=
  if d.used sb b = false then .error .freeingFreeBlock else .ok (d.unmark sb b)

/-- `bmap` for an index of the inode itself: a direct block, or the indirect block. -/
def bmapAddr (d : Disk) (ip : Dinode) (k : ℕ) : Except FsPanic (Disk × Dinode × ℕ) :=
  if ip.addr k = 0 then do
    let (d, b) ← balloc sb d
    return (d, ip.setAddr k (BitVec.ofNat 32 b), b)
  else return (d, ip, (ip.addr k).toNat)

/-- `bmap` for an entry of the indirect block. -/
def bmapEntry (d : Disk) (table k : ℕ) : Except FsPanic (Disk × ℕ) :=
  if (d table).uint k = 0 then do
    let (d, b) ← balloc sb d
    return (update d table ((d table).setUint k (BitVec.ofNat 32 b)), b)
  else return (d, ((d table).uint k).toNat)

def bmap (d : Disk) (ip : Dinode) (bn : ℕ) : Except FsPanic (Disk × Dinode × ℕ) :=
  if bn < nDirect then bmapAddr sb d ip bn
  else if bn - nDirect < nIndirect then do
    let (d, ip, table) ← bmapAddr sb d ip nDirect
    let (d, b) ← bmapEntry sb d table (bn - nDirect)
    return (d, ip, b)
  else .error .bmapOutOfRange

def iupdate (d : Disk) (inum : ℕ) (ip : Dinode) : Disk := d.setDinode sb inum ip

/-- The first loop of `itrunc`. -/
def freeDirect (d : Disk) (ip : Dinode) : ℕ → Except FsPanic (Disk × Dinode)
  | 0 => return (d, ip)
  | k + 1 => do
    let (d, ip) ← freeDirect d ip k
    if ip.addr k = 0 then return (d, ip)
    else
      let d ← bfree sb d (ip.addr k).toNat
      return (d, ip.setAddr k 0)

/-- The second loop of `itrunc`, over the entries of the indirect block `a`. -/
def freeEntries (d : Disk) (a : Block) : ℕ → Except FsPanic Disk
  | 0 => return d
  | j + 1 => do
    let d ← freeEntries d a j
    if a.uint j = 0 then return d else bfree sb d (a.uint j).toNat

/-- The indirect block and the blocks in it. -/
def freeTable (d : Disk) (ip : Dinode) : Except FsPanic (Disk × Dinode) :=
  if ip.addr nDirect = 0 then return (d, ip)
  else do
    let table := (ip.addr nDirect).toNat
    let d ← freeEntries sb d (d table) nIndirect
    let d ← bfree sb d table
    return (d, ip.setAddr nDirect 0)

def itrunc (d : Disk) (inum : ℕ) (ip : Dinode) : Except FsPanic (Disk × Dinode) := do
  let (d, ip) ← freeDirect sb d ip nDirect
  let (d, ip) ← freeTable sb d ip
  let ip := { ip with size := 0 }
  return (iupdate sb d inum ip, ip)

/-- What `readi` and `writei` return: the call goes to a device driver, it fails, or it is done. -/
inductive IoResult (α : Type) where
  | device
  | fail
  | done (a : α)
  deriving DecidableEq

/-- The loop of `readi`, over `n` bytes from `off` on. -/
def readLoop : ℕ → Disk → Dinode → ℕ → ℕ → List Byte → Except FsPanic (Disk × Dinode × List Byte)
  | 0, d, ip, _, _, dst => return (d, ip, dst)
  | fuel + 1, d, ip, off, n, dst =>
    if n = 0 then return (d, ip, dst)
    else do
      let (d, ip, b) ← bmap sb d ip (off / bSize)
      let m := min n (bSize - off % bSize)
      readLoop fuel d ip (off + m) (n - m)
        (dst ++ (List.range m).map fun j ↦ (d b).byte (off % bSize + j))

/-- Bytes are read piece by piece; a piece is never empty, so that `n` rounds are enough. -/
def readi (d : Disk) (ip : Dinode) (off n : Word) :
    Except FsPanic (Disk × Dinode × IoResult (List Byte)) :=
  if ip.type = tDev then return (d, ip, .device)
  else if ip.size < off ∨ off + n < off then return (d, ip, .fail)
  else do
    let n := if ip.size < off + n then ip.size - off else n
    let (d, ip, dst) ← readLoop sb n.toNat d ip off.toNat n.toNat []
    return (d, ip, .done dst)

/-- The loop of `writei`, over the `n` bytes of `src` to be written from `off` on. -/
def writeLoop : ℕ → Disk → Dinode → (ℕ → Byte) → ℕ → ℕ → Except FsPanic (Disk × Dinode)
  | 0, d, ip, _, _, _ => return (d, ip)
  | fuel + 1, d, ip, src, off, n =>
    if n = 0 then return (d, ip)
    else do
      let (d, ip, b) ← bmap sb d ip (off / bSize)
      let m := min n (bSize - off % bSize)
      writeLoop fuel (update d b ((d b).write (off % bSize) m src)) ip
        (fun j ↦ src (m + j)) (off + m) (n - m)

def writei (d : Disk) (inum : ℕ) (ip : Dinode) (src : ℕ → Byte) (off n : Word) :
    Except FsPanic (Disk × Dinode × IoResult Word) :=
  if ip.type = tDev then return (d, ip, .device)
  else if ip.size < off ∨ off + n < off then return (d, ip, .fail)
  else if maxFile * bSize < (off + n).toNat then return (d, ip, .fail)
  else do
    let (d, ip) ← writeLoop sb n.toNat d ip src off.toNat n.toNat
    if 0 < n ∧ ip.size < off + n then
      let ip := { ip with size := off + n }
      return (iupdate sb d inum ip, ip, .done n)
    else return (d, ip, .done n)

/-- The inode that `ialloc` takes; it is referenced and not locked. -/
def ialloc (d : Disk) (type : BitVec 16) : Except FsPanic (Disk × ℕ) :=
  match (List.range' 1 (sb.ninodes - 1)).find? fun inum ↦ (d.dinode sb inum).type == 0 with
  | some inum => .ok (d.setDinode sb inum { Dinode.zero with type := type }, inum)
  | none => .error .noInodes

end Functions

end Xv6Mmap.Fs
