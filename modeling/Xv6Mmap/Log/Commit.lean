import Xv6Mmap.Kernel.Word
import Xv6Mmap.Library.BlockWrites

/-!
# The redo log: `write_log`, `write_head`, `install_trans`, `recover_from_log`, `commit`

A disk block is its 128 words.  The header block holds `n` in word 0 and `block[i]` in word `1 + i`.
Reads go through the buffer cache: `cache` is what `bread` returns for each block, `disk` is what
survives a crash, and `bwrite` changes both.  The `writes` field lists the blocks handed to
`bwrite`, oldest first, so that every prefix of it is a crash point.
-/

namespace Xv6Mmap.Log

open Library

abbrev BlockData := Fin 128 → Word

def BlockData.word (data : BlockData) (i : ℕ) : Word :=
  if h : i < 128 then data ⟨i, h⟩ else 0

def BlockData.setWord (data : BlockData) (i : ℕ) (value : Word) : BlockData :=
  fun w ↦ if w.val = i then value else data w

/-- `struct logheader`. -/
structure LogHeader where
  n : Word
  block : ℕ → Word

/-- The disk, the buffer cache over it and the in-memory `struct log`. -/
structure State where
  disk : Word → BlockData
  cache : Word → BlockData
  start : Word
  size : Word
  lh : LogHeader
  writes : List (Word × BlockData)

namespace State

def bread (s : State) (blockno : Word) : BlockData := s.cache blockno

def bwrite (s : State) (blockno : Word) (data : BlockData) : State :=
  { s with
    disk := Function.update s.disk blockno data
    cache := Function.update s.cache blockno data
    writes := s.writes ++ [(blockno, data)] }

/-- The block that holds the copy of the `tail`-th logged block. -/
def logBlock (s : State) (tail : ℕ) : Word := s.start + BitVec.ofNat 32 (tail + 1)

def installTrans (s : State) : State :=
  (List.range s.lh.n.count).foldl
    (fun s tail ↦ s.bwrite (s.lh.block tail) (s.bread (s.logBlock tail))) s

def readHead (s : State) : State :=
  let buf := s.bread s.start
  let n := buf.word 0
  { s with lh :=
      { n := n
        block := fun i ↦ if i < n.count then buf.word (1 + i) else s.lh.block i } }

/-- The header block `write_head` writes over the cached one. -/
def encodeHead (lh : LogHeader) (buf : BlockData) : BlockData :=
  (List.range lh.n.count).foldl (fun hb i ↦ hb.setWord (1 + i) (lh.block i)) (buf.setWord 0 lh.n)

def writeHead (s : State) : State :=
  s.bwrite s.start (encodeHead s.lh (s.bread s.start))

def clearHead (s : State) : State := { s with lh := { s.lh with n := 0 } }

def recoverFromLog (s : State) : State :=
  s.readHead.installTrans.clearHead.writeHead

def writeLog (s : State) : State :=
  (List.range s.lh.n.count).foldl
    (fun s tail ↦ s.bwrite (s.logBlock tail) (s.bread (s.lh.block tail))) s

def commit (s : State) : State :=
  if 0 < s.lh.n.toInt then s.writeLog.writeHead.installTrans.clearHead.writeHead else s

end State

end Xv6Mmap.Log
