import Xv6Mmap.Library.Prog
import Xv6Mmap.Region.Table

/-!
# The state of the machine

Physical memory is one array of bytes, addressed by physical address; the kernel's `P2V` and `V2P`
shift by a constant and are dropped.  A page directory is kept as the page-table pages it points to
and the entries they hold, by virtual page; its kernel half is represented by its page-table pages
only.  An in-memory inode is named by its device and inode number, of which `iget` keeps one copy,
and holds its content as a byte array.  Pipes are left out.
-/

namespace Xv6Mmap

/-- The device and inode number of an in-memory inode. -/
structure InodeRef where
  dev : Word
  inum : Word
  deriving DecidableEq

/-- An inode with its content; `major` is the major number of a device, of type `T_DEV`. -/
structure Inode where
  size : Word
  data : ℕ → Byte
  major : Option (BitVec 16) := none

/-- `CONSOLE`, the one major number with functions in `devsw`. -/
def console : BitVec 16 := 1

/-- The `type` of a `struct file`, pipes apart. -/
inductive FileType where
  | none
  | inode
  deriving DecidableEq

structure File where
  type : FileType
  ref : Word
  readable : Bool
  writable : Bool
  ip : InodeRef
  off : Word

/-- `struct cached_page`; `page` is the frame and `locked` the state of the sleep lock. -/
structure CachedPage where
  dev : Word
  inodeNumber : Word
  offset : Word
  page : Word
  locked : Bool

structure PageCache where
  pages : Fin nPageCache → CachedPage
  totalCount : ℕ

/-- A page directory: the page-table page behind each directory entry, and the entry of each
virtual page. -/
structure PageDir where
  tabs : BitVec 10 → Option Word
  pte : Vpn → Word

/-- `struct proc`, with the fields that memory management reads and writes.  A null pointer in
`ofile` is zero. -/
structure Proc (nproc : ℕ) where
  sz : Word
  pgdir : Word
  kstack : Word
  state : ProcState
  pid : Word
  parent : Option (Fin nproc)
  killed : Bool
  ofile : Fin nOfile → Word
  mmaps : RegionTable

/-- The machine, with `nproc` slots in the process table.  `kend` is the physical address of `end`
and `held` the inode block whose buffer the running `writei` holds. -/
structure Machine (nproc : ℕ) where
  mem : Word → Byte
  kend : Word
  freelist : List Word
  pgdirs : Word → PageDir
  procs : Fin nproc → Proc nproc
  initproc : Fin nproc
  nextpid : Word
  pagecache : PageCache
  files : Word → File
  inodes : InodeRef → Inode
  held : Option (InodeRef × ℕ)

/-- Why a call does not return: the kernel panics, or the calling process sleeps or loops in the
kernel for ever.  It is a `deadlock` if the process sleeps for a disk buffer that it holds. -/
inductive Halt where
  | panic
  | stuck
  | deadlock
  deriving DecidableEq

/-- The other processes go on. -/
def Halt.sleeps (e : Halt) : Bool := e != .panic

abbrev Kernel (nproc : ℕ) (α : Type) := Library.Prog Halt (Machine nproc) α

namespace Kernel

open Library.Prog

variable {nproc : ℕ}

def setProc (p : Fin nproc) (f : Proc nproc → Proc nproc) : Kernel nproc Unit :=
  modify fun s ↦ { s with procs := Function.update s.procs p (f (s.procs p)) }

def setMmaps (p : Fin nproc) (f : RegionTable → RegionTable) : Kernel nproc Unit :=
  setProc p fun proc ↦ { proc with mmaps := f proc.mmaps }

def kill (p : Fin nproc) : Kernel nproc Unit := setProc p fun proc ↦ { proc with killed := true }

/-! ## Physical memory and its allocator (`kalloc.c`, `string.c`) -/

def memset (dst : Word) (c : Byte) (n : ℕ) : Kernel nproc Unit :=
  modify fun s ↦ { s with mem := fun a ↦ if (a - dst).toNat < n then c else s.mem a }

def memmove (dst src : Word) (n : ℕ) : Kernel nproc Unit :=
  modify fun s ↦
    { s with mem := fun a ↦ if (a - dst).toNat < n then s.mem (src + (a - dst)) else s.mem a }

/-- Copy bytes that are not in physical memory, such as those of a disk buffer. -/
def copyIn (dst : Word) (bytes : ℕ → Byte) (n : ℕ) : Kernel nproc Unit :=
  modify fun s ↦
    { s with mem := fun a ↦ if (a - dst).toNat < n then bytes (a - dst).toNat else s.mem a }

def kalloc : Kernel nproc (Option Word) := fun s ↦
  match s.freelist with
  | [] => (.ok none, s)
  | r :: next => (.ok (some r), { s with freelist := next })

def kfree (v : Word) : Kernel nproc Unit := do
  let s ← get
  if v % pgSize != 0 || v < s.kend || physTop ≤ v then halt .panic
  else do
    memset v 1 4096
    modify fun s ↦ { s with freelist := v :: s.freelist }

end Kernel

end Xv6Mmap
