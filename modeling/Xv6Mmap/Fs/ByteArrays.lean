import Xv6Mmap.Fs.BlockOwnership
import Xv6Mmap.Fs.FreeBlocks

/-!
# Files as byte arrays

Above `readi`, `writei` and `filewrite` a file is an array of bytes.  `ByteFiles` is the file system at
that level, and a sequence of calls does the same there and over the blocks of the disk, as long as
there are enough free blocks.
-/

namespace Xv6Mmap.Fs

open Function Library Bytes FileSystem List Option

/-! ## The calls -/

/-- An open file of type `FD_INODE`. -/
structure OpenFile where
  writable : Bool
  inum : ℕ
  off : Word

/-- The file system and the open files. -/
structure OpenFiles where
  fs : FileSystem
  files : ℕ → OpenFile

namespace FileSystem

variable (sb : Superblock)

/-- `ilock`, a call on the inode, and `iunlock`. -/
def withInode {α : Type} (s : FileSystem) (inum : ℕ)
    (f : Disk → Dinode → Except FsPanic (Disk × Dinode × α)) : Except FsPanic (FileSystem × α) := do
  let s ← s.ilock sb inum
  let (d, ip, a) ← f s.disk ((s.icache inum).getD Dinode.zero)
  return (s.setInode d inum ip, a)

def readi (s : FileSystem) (inum : ℕ) (off n : Word) :
    Except FsPanic (FileSystem × IoResult (List Byte)) :=
  s.withInode sb inum fun d ip ↦ Fs.readi sb d ip off n

def writei (s : FileSystem) (inum : ℕ) (src : ℕ → Byte) (off n : Word) :
    Except FsPanic (FileSystem × IoResult Word) :=
  s.withInode sb inum fun d ip ↦ Fs.writei sb d inum ip src off n

/-- The loop of `filewrite`, which has written `i` of the `n` bytes at `addr`. -/
def filewriteLoop : ℕ → FileSystem → OpenFile → (ℕ → Byte) → ℕ → ℕ →
    Except FsPanic (FileSystem × OpenFile × IoResult ℕ)
  | 0, s, f, _, _, n => return (s, f, .done n)
  | fuel + 1, s, f, addr, i, n =>
    if n ≤ i then return (s, f, .done n)
    else do
      let n1 := min (n - i) writeMax
      let (s, r) ← s.writei sb f.inum (fun k ↦ addr (i + k)) f.off (BitVec.ofNat 32 n1)
      match r with
      | .device => return (s, f, .device)
      | .fail => return (s, f, .fail)
      | .done r =>
        if r.toNat = n1 then
          filewriteLoop fuel s { f with off := f.off + r } addr (i + n1) n
        else .error .shortFilewrite

/-- The count of `filewrite` is an `int`; with a negative one the loop is not entered, and `i` is not
`n` at its end. -/
def filewrite (s : FileSystem) (f : OpenFile) (addr : ℕ → Byte) (n : Word) :
    Except FsPanic (FileSystem × OpenFile × IoResult ℕ) :=
  if f.writable = false then return (s, f, .fail)
  else if n.toInt < 0 then return (s, f, .fail)
  else s.filewriteLoop sb n.toNat f addr 0 n.toNat

end FileSystem

inductive FileCall where
  | readi (inum : ℕ) (off n : Word)
  | writei (inum : ℕ) (src : ℕ → Byte) (off n : Word)
  | filewrite (fd : ℕ) (addr : ℕ → Byte) (n : Word)

/-- Bytes that were read, or a number of bytes that were written. -/
abbrev FileResult := IoResult (List Byte ⊕ ℕ)

def IoResult.map {α β : Type} (f : α → β) : IoResult α → IoResult β
  | .device => .device
  | .fail => .fail
  | .done a => .done (f a)

def OpenFiles.call (sb : Superblock) (s : OpenFiles) :
    FileCall → Except FsPanic (OpenFiles × FileResult)
  | .readi inum off n =>
    (s.fs.readi sb inum off n).map fun r ↦ (⟨r.1, s.files⟩, r.2.map .inl)
  | .writei inum src off n =>
    (s.fs.writei sb inum src off n).map fun r ↦ (⟨r.1, s.files⟩, r.2.map fun w ↦ .inr w.toNat)
  | .filewrite fd addr n =>
    (s.fs.filewrite sb (s.files fd) addr n).map fun r ↦
      (⟨r.1, update s.files fd r.2.1⟩, r.2.2.map .inr)

/-- One call after the other. -/
def OpenFiles.calls (sb : Superblock) : OpenFiles → List FileCall →
    Except FsPanic (OpenFiles × List FileResult)
  | s, [] => return (s, [])
  | s, c :: rest => do
    let (s, r) ← s.call sb c
    let (s, rs) ← calls sb s rest
    return (s, r :: rs)

/-! ## The level of byte arrays -/

/-- A file: the fields of its inode, and its bytes. -/
@[ext]
structure ByteFile where
  type : BitVec 16
  major : BitVec 16
  minor : BitVec 16
  nlink : BitVec 16
  bytes : List Byte

open ByteFile

structure ByteFiles where
  inodes : ℕ → Option ByteFile
  files : ℕ → OpenFile

/-- The number of bytes of a file that can be written to a file of `len` bytes: all of them, or as many
whole transactions as fit. -/
def written (len off n : ℕ) : ℕ :=
  if len < off then 0
  else if off + n ≤ maxFile * bSize then n
  else writeMax * ((maxFile * bSize - off) / writeMax)

namespace ByteFile

/-- The bytes `src` lie over the bytes of the file. -/
def write (f : ByteFile) (off : ℕ) (src : List Byte) : ByteFile :=
  { f with bytes := overlay f.bytes off src }

/-- `n` bytes from `off` on can be written. -/
def Takes (f : ByteFile) (off n : ℕ) : Prop :=
  off ≤ f.bytes.length ∧ off + n < 2 ^ 32 ∧ off + n ≤ maxFile * bSize

instance (f : ByteFile) (off n : ℕ) : Decidable (f.Takes off n) :=
  inferInstanceAs (Decidable (_ ∧ _ ∧ _))

/-- The blocks that the file takes to become `g`. -/
def growth (f g : ByteFile) : ℕ :=
  slotsFor (blocksFor g.bytes.length) - slotsFor (blocksFor f.bytes.length)

end ByteFile

namespace ByteFiles

/-- The file of a call. -/
def target (s : ByteFiles) : FileCall → Option ByteFile
  | .readi inum _ _ => s.inodes inum
  | .writei inum _ _ _ => s.inodes inum
  | .filewrite fd _ _ => s.inodes (s.files fd).inum

def setInode (s : ByteFiles) (inum : ℕ) (f : ByteFile) : ByteFiles :=
  { s with inodes := update s.inodes inum (some f) }

def setOff (s : ByteFiles) (fd : ℕ) (off : Word) : ByteFiles :=
  { s with files := update s.files fd { s.files fd with off := off } }

/-- A call on the file `f`. -/
def callOn (s : ByteFiles) (f : ByteFile) : FileCall → ByteFiles × FileResult
  | .readi _ off n =>
    if off.toNat ≤ f.bytes.length ∧ off.toNat + n.toNat < 2 ^ 32 then
      (s, .done (.inl ((f.bytes.drop off.toNat).take n.toNat)))
    else (s, .fail)
  | .writei inum src off n =>
    if f.Takes off.toNat n.toNat then
      (s.setInode inum (f.write off.toNat ((List.range n.toNat).map src)), .done (.inr n.toNat))
    else (s, .fail)
  | .filewrite fd addr n =>
    if (s.files fd).writable = false ∨ n.toInt < 0 then (s, .fail)
    else
      let off := (s.files fd).off
      let w := written f.bytes.length off.toNat n.toNat
      ((s.setInode (s.files fd).inum (f.write off.toNat ((List.range w).map addr))).setOff fd
        (off + BitVec.ofNat 32 w), if w = n.toNat then .done (.inr w) else .fail)

/-- A call; it is on a file. -/
def call (s : ByteFiles) (c : FileCall) : ByteFiles × FileResult :=
  match s.target c with
  | some f => s.callOn f c
  | none => (s, .device)

/-- The blocks that a call takes. -/
def cost (s : ByteFiles) (c : FileCall) : ℕ :=
  match s.target c, (s.call c).1.target c with
  | some f, some g => f.growth g
  | _, _ => 0

def calls : ByteFiles → List FileCall → ByteFiles × List FileResult
  | s, [] => (s, [])
  | s, c :: rest => (((s.call c).1.calls rest).1, (s.call c).2 :: ((s.call c).1.calls rest).2)

/-- The blocks that a sequence of calls takes. -/
def costs : ByteFiles → List FileCall → ℕ
  | _, [] => 0
  | s, c :: rest => s.cost c + (s.call c).1.costs rest

end ByteFiles

/-! ## The bytes of the files of a disk -/

def fileBytes (d : Disk) (ip : Dinode) : List Byte := (List.range ip.size.toNat).map (byteAt d ip)

/-- What the calls see of an inode. -/
def byteFile (sb : Superblock) (d : Disk) (i : ℕ) : Option ByteFile :=
  if Live sb (d.dinode sb) i then
    some ⟨(d.dinode sb i).type, (d.dinode sb i).major, (d.dinode sb i).minor, (d.dinode sb i).nlink,
      fileBytes d (d.dinode sb i)⟩
  else none

def OpenFiles.byteFiles (sb : Superblock) (s : OpenFiles) : ByteFiles :=
  ⟨byteFile sb s.fs.disk, s.files⟩

variable {sb : Superblock} {d d' : Disk} {i : ℕ} {s s' : FileSystem} {f : ByteFile}
  {src : ℕ → Byte} {off n m : ℕ} {g : ByteFile}

theorem length_fileBytes (d : Disk) (ip : Dinode) : (fileBytes d ip).length = ip.size.toNat := by
  rw [fileBytes, length_map, length_range]

theorem byteFile_of_live (hi : Live sb (d.dinode sb) i) : byteFile sb d i =
    some ⟨(d.dinode sb i).type, (d.dinode sb i).major, (d.dinode sb i).minor, (d.dinode sb i).nlink,
      fileBytes d (d.dinode sb i)⟩ :=
  if_pos hi

theorem live_of_byteFile (hf : byteFile sb d i = some f) : Live sb (d.dinode sb) i ∧
    (d.dinode sb i).type = f.type ∧ fileBytes d (d.dinode sb i) = f.bytes := by
  obtain ⟨hlive, rfl⟩ := ite_some_none_eq_some.mp hf
  exact ⟨hlive, rfl, rfl⟩

theorem size_of_byteFile (hf : byteFile sb d i = some f) :
    (d.dinode sb i).size.toNat = f.bytes.length := by
  rw [← (live_of_byteFile hf).2.2, length_fileBytes]

theorem take_drop_fileBytes (d : Disk) (ip : Dinode) (off n : Word) :
    ((fileBytes d ip).drop off.toNat).take n.toNat =
      (range (readCount ip off n)).map fun k ↦ byteAt d ip (off.toNat + k) := by
  apply ext_getElem
  · rw [length_take, length_drop, length_fileBytes, length_map, length_range]
    rfl
  · intro k hk hk'
    simp only [fileBytes, getElem_take, getElem_drop, getElem_map,
      getElem_range]

/-- The inode that is written is overlaid, and the others are as they were. -/
theorem Written.byteFile_eq (h : Written sb d i off n src d')
    (hoff : off ≤ (d.dinode sb i).size.toNat) (hf : byteFile sb d i = some f) :
    byteFile sb d' =
      update (byteFile sb d) i (some (f.write off ((range n).map src))) := by
  have hlive := (live_of_byteFile hf).1
  funext j
  by_cases hj : j = i
  · have hbytes : fileBytes d' (d'.dinode sb i) =
        overlay (fileBytes d (d.dinode sb i)) off ((range n).map src) := by
      rw [fileBytes, fileBytes, overlay_map_range hoff, h.size]
      apply map_congr_left
      intro x hx
      apply h.bytes
      rw [h.size]
      exact mem_range.mp hx
    rw [byteFile_of_live hlive] at hf
    cases hf
    rw [hj, update_self, byteFile_of_live (h.live hlive), hbytes, h.self]
    rfl
  · rw [update_of_ne hj]
    by_cases hlt : j < sb.ninodes
    · have hsame := h.others j hlt hj
      have hlive' : Live sb (d'.dinode sb) j ↔ Live sb (d.dinode sb) j := by
        unfold Live
        rw [hsame]
      by_cases hjlive : Live sb (d.dinode sb) j
      · rw [byteFile_of_live hjlive, byteFile_of_live (hlive'.mpr hjlive)]
        have hbytes : fileBytes d' (d'.dinode sb j) = fileBytes d (d.dinode sb j) := by
          rw [fileBytes, fileBytes, hsame]
          apply map_congr_left
          intro x hx
          rw [← h.bytesOthers j x hj hjlive (mem_range.mp hx), hsame]
        rw [hbytes, hsame]
      · rw [byteFile, if_neg (fun hh ↦ hjlive (hlive'.mp hh)), byteFile, if_neg hjlive]
    · rw [byteFile, if_neg fun hh ↦ hlt hh.2.1, byteFile, if_neg fun hh ↦ hlt hh.2.1]

/-! ## The calls on files in order -/

theorem Owned.spends_writei {off n : Word} (src : ℕ → Byte) (h : Owned sb d)
    (hi : Live sb (d.dinode sb) i) (hdev : (d.dinode sb i).type ≠ tDev)
    (hfits : Fits (d.dinode sb i) off n) :
    Spends sb d
      (slotsFor (blocksFor (max (d.dinode sb i).size.toNat (off.toNat + n.toNat))) -
        slotsFor (fileLen sb d i))
      (writei sb d i (d.dinode sb i) src off n) Prod.fst := by
  have hstart : off.toNat ≤ bSize * fileLen sb d i := hfits.1.trans (le_blocksFor _)
  have hspends := h.booked.spends_writeLoop src le_rfl h.short hi hstart hfits.2.2
  rw [writei_of_fits hdev hfits, blocksFor_max]
  apply hspends.map
  intro r _
  dsimp only
  split
  · exact freeBlocks_congr fun b _ ↦ Disk.used_setDinode h.laid hi.2.1 b
  · rfl

namespace FileSystem

section

variable (h : Consistent sb s) (hi : Live sb (s.disk.dinode sb) i)
include h hi

/-- `ilock` brings the copy of an inode that is allocated into memory, if it is not there. -/
theorem Consistent.ilock_eq :
    s.ilock sb i = .ok (s.setInode s.disk i (s.disk.dinode sb i)) := by
  unfold FileSystem.ilock
  cases hip : s.icache i with
  | some ip => rw [← h.eq hip, setInode_eq_self hip]
  | none => exact if_neg hi.2.2

/-- A call on an inode that is allocated works on the inode. -/
theorem Consistent.withInode_eq {α : Type}
    (f : Disk → Dinode → Except FsPanic (Disk × Dinode × α)) :
    s.withInode sb i f = (f s.disk (s.disk.dinode sb i)).map fun r ↦
      (s.setInode r.1 i r.2.1, r.2.2) := by
  unfold withInode
  rw [h.ilock_eq hi]
  change (f s.disk (Option.getD _ .zero)).bind _ = _
  rw [icache_setInode, getD_some]
  cases f s.disk (s.disk.dinode sb i) with
  | error e => rfl
  | ok r =>
    change Except.ok (setInode _ r.1 i r.2.1, r.2.2) = _
    rw [setInode_setInode]
    rfl

theorem Consistent.readi_eq (off n : Word) : s.readi sb i off n =
      .ok (s.setInode s.disk i (s.disk.dinode sb i),
        readResult s.disk (s.disk.dinode sb i) off n) := by
  rw [readi, h.withInode_eq hi, h.owned.readi_eq hi]
  rfl

end

/-- A `writei` that fits and does not panic has written all bytes. -/
theorem Consistent.writei_ok {off n : Word} {r : IoResult Word} (h : Consistent sb s)
    (hf : byteFile sb s.disk i = some f) (hdev : f.type ≠ tDev) (htakes : f.Takes off.toNat n.toNat)
    (hok : s.writei sb i src off n = .ok (s', r)) : r = .done n ∧ Consistent sb s' ∧
      byteFile sb s'.disk = Function.update (byteFile sb s.disk) i
        (some (f.write off.toNat ((range n.toNat).map src))) := by
  obtain ⟨hlive, htype, -⟩ := live_of_byteFile hf
  have hfits : Fits (s.disk.dinode sb i) off n := by
    unfold Fits
    rw [size_of_byteFile hf]
    exact htakes
  rw [FileSystem.writei, h.withInode_eq hlive] at hok
  obtain ⟨⟨d, ip, r⟩, hrun, heq⟩ := Outcome.map_eq_ok hok
  cases heq
  obtain ⟨rfl, rfl, hwritten⟩ := h.owned.writei_fits hlive (htype ▸ hdev) hfits hrun
  refine ⟨rfl, ?_, hwritten.byteFile_eq hfits.1 hf⟩
  apply h.update hwritten.owned hwritten.others
  rintro _ ⟨rfl⟩
  exact ⟨hwritten.live hlive, rfl⟩

/-- A state of the file system whose files are `inodes`, with so many free blocks. -/
structure Shows (sb : Superblock) (s : FileSystem) (inodes : ℕ → Option ByteFile) (free : ℕ) :
    Prop where
  consistent : Consistent sb s
  inodes : byteFile sb s.disk = inodes
  free : freeBlocks sb s.disk = free

variable {inodes : ℕ → Option ByteFile} {free : ℕ}

theorem Shows.fits (h : Shows sb s inodes free) (hf : inodes i = some f) (off n : Word) :
    Fits (s.disk.dinode sb i) off n ↔ f.Takes off.toNat n.toNat := by
  rw [← h.inodes] at hf
  unfold Fits Takes
  rw [size_of_byteFile hf]

/-- Locking an inode changes nothing. -/
theorem Shows.setInode (h : Shows sb s inodes free) (hi : Live sb (s.disk.dinode sb) i) :
    Shows sb (s.setInode s.disk i (s.disk.dinode sb i)) inodes free := by
  refine ⟨h.consistent.update h.consistent.owned (fun _ _ _ ↦ rfl) ?_, h.inodes, h.free⟩
  rintro _ ⟨rfl⟩
  exact ⟨hi, rfl⟩

theorem Shows.readi (h : Shows sb s inodes free) (hf : inodes i = some f) (hdev : f.type ≠ tDev)
    (off n : Word) :
    ∃ s', s.readi sb i off n = .ok (s',
        if off.toNat ≤ f.bytes.length ∧ off.toNat + n.toNat < 2 ^ 32 then
          .done ((f.bytes.drop off.toNat).take n.toNat)
        else .fail) ∧
      Shows sb s' inodes free := by
  have hfile := hf
  rw [← h.inodes] at hfile
  obtain ⟨hlive, htype, hbytes⟩ := live_of_byteFile hfile
  refine ⟨_, ?_, h.setInode hlive⟩
  rw [h.consistent.readi_eq hlive, readResult, if_neg (htype ▸ hdev), size_of_byteFile hfile,
    ← take_drop_fileBytes, hbytes]

theorem Shows.writei_fail (src : ℕ → Byte) (h : Shows sb s inodes free) (hf : inodes i = some f)
    (hdev : f.type ≠ tDev) {off n : Word} (htakes : ¬ f.Takes off.toNat n.toNat) :
    ∃ s', s.writei sb i src off n = .ok (s', .fail) ∧ Shows sb s' inodes free := by
  have hfile := hf
  rw [← h.inodes] at hfile
  obtain ⟨hlive, htype, -⟩ := live_of_byteFile hfile
  refine ⟨_, ?_, h.setInode hlive⟩
  rw [FileSystem.writei, h.consistent.withInode_eq hlive,
    writei_of_not_fits (htype ▸ hdev) fun hh ↦ htakes ((h.fits hf off n).mp hh)]
  rfl

theorem Shows.writei (src : ℕ → Byte) (off n : Word) (h : Shows sb s inodes free)
    (hf : inodes i = some f) (hdev : f.type ≠ tDev) (htakes : f.Takes off.toNat n.toNat)
    (henough : f.growth (f.write off.toNat ((range n.toNat).map src)) ≤ free) :
    ∃ s', s.writei sb i src off n = .ok (s', .done n) ∧
      Shows sb s'
        (update inodes i (some (f.write off.toNat ((range n.toNat).map src))))
        (free - f.growth (f.write off.toNat ((range n.toNat).map src))) := by
  have hfile := hf
  rw [← h.inodes] at hfile
  obtain ⟨hlive, htype, -⟩ := live_of_byteFile hfile
  have hfits := (h.fits hf off n).mpr htakes
  have hdev' : (s.disk.dinode sb i).type ≠ tDev := htype ▸ hdev
  have hgrowth : f.growth (f.write off.toNat ((range n.toNat).map src)) =
      slotsFor (blocksFor (max (s.disk.dinode sb i).size.toNat (off.toNat + n.toNat))) -
        slotsFor (fileLen sb s.disk i) := by
    unfold growth write fileLen
    rw [length_overlay htakes.1, length_map, length_range, size_of_byteFile hfile]
  have hspends := h.consistent.owned.spends_writei src hlive hdev' hfits
  rw [← hgrowth] at hspends
  obtain ⟨⟨d, ip, r⟩, hrun, hfree⟩ := hspends.ok (henough.trans_eq h.free.symm)
  have hok : s.writei sb i src off n = .ok (s.setInode d i ip, r) := by
    rw [FileSystem.writei, h.consistent.withInode_eq hlive, hrun]
    rfl
  obtain ⟨rfl, hconsistent, hinodes⟩ := h.consistent.writei_ok hfile hdev htakes hok
  refine ⟨_, hok, hconsistent, ?_, ?_⟩
  · rw [← h.inodes]
    exact hinodes
  · rw [← h.free, hfree, Nat.add_sub_cancel]
    rfl

end FileSystem

/-! ## `filewrite` -/

theorem written_of_takes {len : ℕ} (hn : n = min m writeMax) (hoff : off ≤ len)
    (hend : off + n ≤ maxFile * bSize) :
    written len off m = n + written (max len (off + n)) (off + n) (m - n) := by
  have hmax : writeMax = 1536 := rfl
  have hsize : maxFile * bSize = 71680 := rfl
  unfold written
  rw [hmax] at hn ⊢
  rw [hsize] at hend ⊢
  rw [if_neg (not_lt.mpr hoff), if_neg (not_lt.mpr (le_max_right _ _))]
  by_cases hall : off + m ≤ 71680
  · rw [if_pos hall, if_pos (by omega)]
    omega
  · rw [if_neg hall, if_neg (by omega)]
    omega

theorem written_of_not_takes {len : ℕ} (hn : n = min m writeMax)
    (h : ¬ (off ≤ len ∧ off + n ≤ maxFile * bSize)) : written len off m = 0 := by
  have hmax : writeMax = 1536 := rfl
  have hsize : maxFile * bSize = 71680 := rfl
  unfold written
  rw [hmax] at hn ⊢
  rw [hsize] at h ⊢
  split
  · rfl
  · rw [if_neg (by omega)]
    omega

theorem written_zero (len off : ℕ) : written len off 0 = 0 := by
  have hmax : writeMax = 1536 := rfl
  have hsize : maxFile * bSize = 71680 := rfl
  unfold written
  rw [hmax, hsize]
  split
  · rfl
  · split
    · rfl
    · omega

namespace ByteFile

theorem write_nil (f : ByteFile) (off : ℕ) : f.write off [] = f := by
  rw [write, overlay_nil]

theorem growth_self (f : ByteFile) : f.growth f = 0 := Nat.sub_self _

/-- Bytes are written in two pieces. -/
theorem write_write {src : ℕ → Byte} (h : off ≤ f.bytes.length) :
    (f.write off ((range n).map src)).write (off + n) ((range m).map fun k ↦ src (n + k)) =
      f.write off ((range (n + m)).map src) := by
  have hover := overlay_overlay h ((range n).map src) ((range m).map fun k ↦ src (n + k))
  rw [length_map, length_range] at hover
  have hsplit := map_range_split (Nat.le_add_right n m) src
  rw [Nat.add_sub_cancel_left] at hsplit
  unfold write
  rw [hover, hsplit]

theorem length_write (h : off ≤ f.bytes.length) (src : List Byte) :
    (f.write off src).bytes.length = max f.bytes.length (off + src.length) :=
  length_overlay h src

theorem growth_write {src : ℕ → Byte} (h : off ≤ f.bytes.length) :
    f.growth (f.write off ((range n).map src)) +
        (f.write off ((range n).map src)).growth (f.write off ((range (n + m)).map src)) =
      f.growth (f.write off ((range (n + m)).map src)) := by
  have hmono : ∀ a b : ℕ, a ≤ b → slotsFor (blocksFor a) ≤ slotsFor (blocksFor b) :=
    fun a b hab ↦ slotsFor_mono (Nat.div_le_div_right (Nat.add_le_add_right hab _))
  unfold growth
  simp only [length_write h, length_map, length_range]
  have hfirst := hmono f.bytes.length (max f.bytes.length (off + n)) (le_max_left _ _)
  have hthen := hmono (max f.bytes.length (off + n)) (max f.bytes.length (off + (n + m))) (by omega)
  omega

end ByteFile

namespace FileSystem

variable {inodes : ℕ → Option ByteFile} {free fuel k n : ℕ} {file : OpenFile}

/-- The outcome where `w` of `m` bytes of `src` have been written to an open file with the content `f`,
and `n` is returned if these are all of them. -/
def Wrote (sb : Superblock) (inodes : ℕ → Option ByteFile) (free : ℕ) (f : ByteFile) (file : OpenFile)
    (src : ℕ → Byte) (w m n : ℕ) (r : Except FsPanic (FileSystem × OpenFile × IoResult ℕ)) : Prop :=
  ∃ s', r = .ok (s', { file with off := file.off + BitVec.ofNat 32 w },
      if w = m then .done n else .fail) ∧
    Shows sb s'
      (update inodes file.inum (some (f.write file.off.toNat ((List.range w).map src))))
      (free - f.growth (f.write file.off.toNat ((List.range w).map src)))

theorem Shows.wrote_nothing (src : ℕ → Byte) (h : Shows sb s inodes free)
    (hf : inodes file.inum = some f) :
    Wrote sb inodes free f file src 0 m n
      (.ok (s, file, if 0 = m then .done n else .fail)) := by
  have hoff : file.off + 0#32 = file.off := BitVec.add_zero _
  refine ⟨s, ?_, ?_⟩
  · rw [hoff]
  · rw [range_zero, map_nil, f.write_nil, f.growth_self, ← hf, update_eq_self,
      Nat.sub_zero]
    exact h

/-- First `m` bytes are written, and then `w` more. -/
theorem Wrote.cons {src : ℕ → Byte} {w left : ℕ}
    {r : Except FsPanic (FileSystem × OpenFile × IoResult ℕ)} (htakes : f.Takes file.off.toNat m)
    (hg : g = f.write file.off.toNat ((range m).map src))
    (hrest : Wrote sb (update inodes file.inum (some g)) (free - f.growth g) g
      { file with off := file.off + BitVec.ofNat 32 m } (fun j ↦ src (m + j)) w left n r) :
    Wrote sb inodes free f file src (m + w) (m + left) n r := by
  subst hg
  obtain ⟨s', hr, hs'⟩ := hrest
  have hoff : (file.off + BitVec.ofNat 32 m).toNat = file.off.toNat + m := by
    have hend := htakes.2.1
    rw [BitVec.toNat_add, BitVec.toNat_ofNat]
    omega
  dsimp only at hs'
  rw [update_idem, hoff, write_write htakes.1, Nat.sub_sub, growth_write htakes.1] at hs'
  refine ⟨s', ?_, hs'⟩
  simp only [hr, BitVec.ofNat_add, BitVec.add_assoc, Nat.add_left_cancel_iff]

/-- One round of the loop: the chunk is written, or refused. -/
theorem filewriteLoop_of_done {addr : ℕ → Byte} (hk : ¬ n ≤ k) (hm : m = min (n - k) writeMax)
    (hok : s.writei sb file.inum (fun j ↦ addr (k + j)) file.off (BitVec.ofNat 32 m) =
      .ok (s', .done (BitVec.ofNat 32 m))) :
    s.filewriteLoop sb (fuel + 1) file addr k n =
      s'.filewriteLoop sb fuel { file with off := file.off + BitVec.ofNat 32 m } addr (k + m) n := by
  have hmax : writeMax = 1536 := rfl
  rw [filewriteLoop, if_neg hk, ← hm]
  dsimp only
  rw [hok]
  apply if_pos
  rw [BitVec.toNat_ofNat]
  omega

theorem filewriteLoop_of_fail {addr : ℕ → Byte} (hk : ¬ n ≤ k) (hm : m = min (n - k) writeMax)
    (hok : s.writei sb file.inum (fun j ↦ addr (k + j)) file.off (BitVec.ofNat 32 m) =
      .ok (s', .fail)) : s.filewriteLoop sb (fuel + 1) file addr k n = .ok (s', file, .fail) := by
  rw [filewriteLoop, if_neg hk, ← hm]
  dsimp only
  rw [hok]
  rfl

/-- The loop of `filewrite` writes what is left of the `n` bytes, or as many whole transactions of it
as fit. -/
theorem Shows.filewriteLoop (addr : ℕ → Byte) {w : ℕ} (hfuel : n - k ≤ fuel) (hk : k ≤ n)
    (h : Shows sb s inodes free) (hf : inodes file.inum = some f) (hdev : f.type ≠ tDev)
    (hw : w = written f.bytes.length file.off.toNat (n - k))
    (henough : f.growth (f.write file.off.toNat ((range w).map fun j ↦ addr (k + j))) ≤ free) :
    Wrote sb inodes free f file (fun j ↦ addr (k + j)) w (n - k) n
      (s.filewriteLoop sb fuel file addr k n) := by
  induction fuel generalizing s inodes free k file f w with
  | zero =>
    have hdone : n - k = 0 := Nat.le_zero.mp hfuel
    rw [hw, hdone, written_zero]
    exact h.wrote_nothing _ hf
  | succ fuel ih =>
    by_cases hdone : n ≤ k
    · rw [FileSystem.filewriteLoop, if_pos hdone, hw, Nat.sub_eq_zero_of_le hdone, written_zero]
      exact h.wrote_nothing _ hf
    have hmax : writeMax = 1536 := rfl
    obtain ⟨m, hm⟩ : ∃ m, m = min (n - k) writeMax := ⟨_, rfl⟩
    have hlen : (BitVec.ofNat 32 m).toNat = m := by
      rw [BitVec.toNat_ofNat]
      omega
    by_cases htakes : f.Takes file.off.toNat m
    · -- a chunk is written, and the rest by the rounds that follow
      obtain ⟨g, hg⟩ : ∃ g, g = f.write file.off.toNat ((range m).map fun j ↦ addr (k + j)) :=
        ⟨_, rfl⟩
      have hlength : g.bytes.length = max f.bytes.length (file.off.toNat + m) := by
        rw [hg, length_write htakes.1, length_map, length_range]
      have hoff : (file.off + BitVec.ofNat 32 m).toNat = file.off.toNat + m := by
        rw [BitVec.toNat_add, hlen, Nat.mod_eq_of_lt htakes.2.1]
      obtain ⟨w', rfl⟩ : ∃ w', w = m + w' :=
        ⟨_, hw.trans (written_of_takes hm htakes.1 htakes.2.2)⟩
      have hrest : w' = written g.bytes.length (file.off.toNat + m) (n - (k + m)) := by
        rw [written_of_takes hm htakes.1 htakes.2.2, ← hlength, ← Nat.sub_add_eq] at hw
        exact Nat.add_left_cancel hw
      have hgrowth : f.growth g + g.growth (f.write file.off.toNat
          ((range (m + w')).map fun j ↦ addr (k + j))) = f.growth _ := hg ▸ growth_write htakes.1
      have hwritei := h.writei (fun j ↦ addr (k + j)) file.off (BitVec.ofNat 32 m) hf hdev
      rw [hlen, ← hg] at hwritei
      obtain ⟨s₁, hok, hs₁⟩ := hwritei htakes (by omega)
      rw [filewriteLoop_of_done hdone hm hok, show n - k = m + (n - (k + m)) by omega]
      refine .cons htakes hg ?_
      simp only [← Nat.add_assoc]
      refine ih (by omega) (by omega) hs₁ (update_self ..) (hg ▸ hdev) (hoff.symm ▸ hrest) ?_
      simp only [hoff, Nat.add_assoc]
      rw [hg, write_write htakes.1, ← hg]
      omega
    · have hzero : w = 0 := by
        rw [hw]
        apply written_of_not_takes hm
        rintro ⟨hoff, hend⟩
        exact htakes ⟨hoff, hend.trans_lt (by decide), hend⟩
      obtain ⟨s₁, hok, hs₁⟩ := h.writei_fail (fun j ↦ addr (k + j)) hf hdev (hlen.symm ▸ htakes)
      have hmore : ¬ 0 = n - k := by omega
      have hwrote := hs₁.wrote_nothing (m := n - k) (n := n) (fun j ↦ addr (k + j)) hf
      rw [if_neg hmore] at hwrote
      rw [filewriteLoop_of_fail hdone hm hok, hzero]
      exact hwrote

theorem Shows.filewrite (addr : ℕ → Byte) (n : Word) (h : Shows sb s inodes free)
    (hf : inodes file.inum = some f) (hdev : f.type ≠ tDev) (hwritable : file.writable = true)
    (hn : ¬ n.toInt < 0) (henough : f.growth (f.write file.off.toNat
      ((range (written f.bytes.length file.off.toNat n.toNat)).map addr)) ≤ free) :
    Wrote sb inodes free f file addr (written f.bytes.length file.off.toNat n.toNat) n.toNat n.toNat
      (s.filewrite sb file addr n) := by
  have hfuel : n.toNat - 0 ≤ n.toNat := le_rfl
  have hloop := h.filewriteLoop addr hfuel (Nat.zero_le _) hf hdev rfl
  simp only [Nat.zero_add, Nat.sub_zero] at hloop
  rw [FileSystem.filewrite, if_neg (by rw [hwritable]; exact nofun), if_neg hn]
  exact hloop henough

end FileSystem

/-! ## Refinement -/

namespace ByteFiles

variable {a : ByteFiles} {c c' : FileCall}

/-- The call is on a file that is not a device. -/
def OnFile (a : ByteFiles) (c : FileCall) : Prop := ∃ f, a.target c = some f ∧ f.type ≠ tDev

theorem call_of_target (hf : a.target c = some f) : a.call c = a.callOn f c := by
  rw [call, hf]

theorem cost_of_target {a' : ByteFiles} {r : FileResult} (hf : a.target c = some f)
    (hon : a.callOn f c = (a', r)) (hg : a'.target c = some g) : a.cost c = f.growth g := by
  rw [cost, call_of_target hf, hf, hon, hg]

theorem type_setInode {inum : ℕ} (hf : a.inodes inum = some f) (htype : g.type = f.type) (i : ℕ) :
    ((a.setInode inum g).inodes i).map type = (a.inodes i).map type := by
  change (update a.inodes inum (some g) i).map type = _
  by_cases hi : i = inum
  · rw [hi, update_self, hf, map_some, map_some, htype]
  · rw [update_of_ne hi]

/-- A call keeps the types of the inodes. -/
theorem type_call (a : ByteFiles) (c : FileCall) (i : ℕ) :
    ((a.call c).1.inodes i).map type = (a.inodes i).map type := by
  unfold call
  split
  · rename_i f hf
    cases c with
    | readi inum off n =>
      unfold callOn
      dsimp only
      split
      · rfl
      · rfl
    | writei inum src off n =>
      unfold callOn
      dsimp only
      split
      · exact type_setInode (g := f.write _ _) hf rfl i
      · rfl
    | filewrite fd addr n =>
      unfold callOn
      dsimp only
      split
      · rfl
      · exact type_setInode (g := f.write _ _) hf rfl i
  · rfl

/-- A call keeps the inodes of the open files. -/
theorem inum_call (a : ByteFiles) (c : FileCall) (fd : ℕ) :
    ((a.call c).1.files fd).inum = (a.files fd).inum := by
  unfold call
  split
  · rename_i f hf
    cases c with
    | readi inum off n | writei inum src off n =>
      unfold callOn
      dsimp only
      split
      · rfl
      · rfl
    | filewrite fd' addr n =>
      unfold callOn
      dsimp only
      split
      · rfl
      · change (update a.files fd' _ fd).inum = _
        by_cases hfd : fd = fd'
        · rw [hfd, update_self]
          rfl
        · rw [update_of_ne hfd]
  · rfl

theorem OnFile.call (h : a.OnFile c') : (a.call c).1.OnFile c' := by
  have htype : ((a.call c).1.target c').map type = (a.target c').map type := by
    cases c' with
    | readi inum off n | writei inum src off n => exact a.type_call c inum
    | filewrite fd addr n =>
      change ((a.call c).1.inodes ((a.call c).1.files fd).inum).map _ = _
      rw [inum_call]
      exact a.type_call c _
  obtain ⟨f, hf, hdev⟩ := h
  rw [hf, map_some, map_eq_some_iff] at htype
  obtain ⟨g, hg, heq⟩ := htype
  exact ⟨g, hg, heq.trans_ne hdev⟩

end ByteFiles

namespace OpenFiles

variable {s : OpenFiles} {c : FileCall}

/-- The call `c` does what it does to byte arrays, and takes the blocks that it takes there. -/
def Refines (sb : Superblock) (s : OpenFiles) (c : FileCall) : Prop :=
  ∃ s', s.call sb c = .ok (s', ((s.byteFiles sb).call c).2) ∧
    s'.byteFiles sb = ((s.byteFiles sb).call c).1 ∧ s'.fs.Consistent sb ∧
    freeBlocks sb s'.fs.disk = freeBlocks sb s.fs.disk - (s.byteFiles sb).cost c

theorem refines_of_shows {s' : OpenFiles} {a : ByteFiles} {r : FileResult}
    (hf : (s.byteFiles sb).target c = some f) (hon : (s.byteFiles sb).callOn f c = (a, r))
    (hg : a.target c = some g) (hcall : s.call sb c = .ok (s', r)) (hfiles : s'.files = a.files)
    (hshows : s'.fs.Shows sb a.inodes (freeBlocks sb s.fs.disk - f.growth g)) :
    s.Refines sb c := by
  unfold Refines
  rw [ByteFiles.cost_of_target hf hon hg, ByteFiles.call_of_target hf, hon]
  refine ⟨s', hcall, ?_, hshows.consistent, hshows.free⟩
  rw [byteFiles, hshows.inodes, hfiles]

theorem refines (h : s.fs.Consistent sb) (hc : (s.byteFiles sb).OnFile c)
    (henough : (s.byteFiles sb).cost c ≤ freeBlocks sb s.fs.disk) : s.Refines sb c := by
  obtain ⟨f, hf, hdev⟩ := hc
  have hshows : s.fs.Shows sb (byteFile sb s.fs.disk) (freeBlocks sb s.fs.disk) := ⟨h, rfl, rfl⟩
  have hsame : freeBlocks sb s.fs.disk - f.growth f = freeBlocks sb s.fs.disk := by
    rw [f.growth_self, Nat.sub_zero]
  cases c with
  | readi inum off n =>
    obtain ⟨s', hok, hs'⟩ := hshows.readi hf hdev off n
    by_cases hin : off.toNat ≤ f.bytes.length ∧ off.toNat + n.toNat < 2 ^ 32
    · rw [if_pos hin] at hok
      exact refines_of_shows hf (if_pos hin) hf (congrArg (Except.map _) hok) rfl (hsame.symm ▸ hs')
    · rw [if_neg hin] at hok
      exact refines_of_shows hf (if_neg hin) hf (congrArg (Except.map _) hok) rfl (hsame.symm ▸ hs')
  | writei inum src off n =>
    by_cases htakes : f.Takes off.toNat n.toNat
    · have hon : (s.byteFiles sb).callOn f (.writei inum src off n) =
          ((s.byteFiles sb).setInode inum (f.write off.toNat ((range n.toNat).map src)),
            .done (.inr n.toNat)) := if_pos htakes
      have htarget : ((s.byteFiles sb).setInode inum
          (f.write off.toNat ((range n.toNat).map src))).target (.writei inum src off n) =
            some (f.write off.toNat ((range n.toNat).map src)) := update_self ..
      rw [ByteFiles.cost_of_target hf hon htarget] at henough
      obtain ⟨s', hok, hs'⟩ := hshows.writei src off n hf hdev htakes henough
      exact refines_of_shows hf hon htarget (congrArg (Except.map _) hok) rfl hs'
    · obtain ⟨s', hok, hs'⟩ := hshows.writei_fail src hf hdev htakes
      exact refines_of_shows hf (if_neg htakes) hf (congrArg (Except.map _) hok) rfl
        (hsame.symm ▸ hs')
  | filewrite fd addr n =>
    by_cases hrefused : (s.files fd).writable = false ∨ n.toInt < 0
    · have hok : s.fs.filewrite sb (s.files fd) addr n = .ok (s.fs, s.files fd, .fail) := by
        unfold FileSystem.filewrite
        split
        · rfl
        · rename_i hwritable
          rw [if_pos (hrefused.resolve_left hwritable)]
          rfl
      exact refines_of_shows hf (if_pos hrefused) hf (congrArg (Except.map _) hok)
        (update_eq_self ..) (hsame.symm ▸ hshows)
    · obtain ⟨w, hw⟩ : ∃ w, w = written f.bytes.length (s.files fd).off.toNat n.toNat := ⟨_, rfl⟩
      obtain ⟨g, hg⟩ : ∃ g, g = f.write (s.files fd).off.toNat ((range w).map addr) := ⟨_, rfl⟩
      have hon : (s.byteFiles sb).callOn f (.filewrite fd addr n) =
          (((s.byteFiles sb).setInode (s.files fd).inum g).setOff fd
            ((s.files fd).off + BitVec.ofNat 32 w),
            if w = n.toNat then .done (.inr w) else .fail) := by
        rw [hg, hw]
        exact if_neg hrefused
      have htarget : (((s.byteFiles sb).setInode (s.files fd).inum g).setOff fd
          ((s.files fd).off + BitVec.ofNat 32 w)).target (.filewrite fd addr n) = some g := by
        change update (byteFile sb s.fs.disk) (s.files fd).inum (some g)
          (update s.files fd _ fd).inum = some g
        rw [update_self]
        exact update_self ..
      rw [ByteFiles.cost_of_target hf hon htarget] at henough
      rw [not_or, Bool.not_eq_false] at hrefused
      have hfile : byteFile sb s.fs.disk (s.files fd).inum = some f := hf
      have hwrote := hshows.filewrite addr n hfile hdev hrefused.1 hrefused.2
      rw [← hw, ← hg] at hwrote
      obtain ⟨s', hok, hs'⟩ := hwrote henough
      rw [← hg] at hs'
      have hcall : s.call sb (.filewrite fd addr n) =
          .ok (⟨s', update s.files fd
            { s.files fd with off := (s.files fd).off + BitVec.ofNat 32 w }⟩,
            if w = n.toNat then .done (.inr w) else .fail) := by
        have hresult : IoResult.map Sum.inr (if w = n.toNat then .done n.toNat else .fail) =
            (if w = n.toNat then .done (.inr w) else .fail : FileResult) := by
          split
          · rename_i hall
            rw [hall]
            rfl
          · rfl
        rw [← hresult]
        exact congrArg (Except.map _) hok
      exact refines_of_shows hf hon htarget hcall rfl hs'

/-- A sequence of calls on files that are not devices does, with enough free blocks, to the files on
disk what it does to byte arrays, and returns the same. -/
theorem files_refine_byte_arrays (h : s.fs.Consistent sb) (calls : List FileCall)
    (hcalls : ∀ c ∈ calls, (s.byteFiles sb).OnFile c)
    (henough : (s.byteFiles sb).costs calls ≤ freeBlocks sb s.fs.disk) :
    ∃ s', s.calls sb calls = .ok (s', ((s.byteFiles sb).calls calls).2) ∧
      s'.byteFiles sb = ((s.byteFiles sb).calls calls).1 ∧ s'.fs.Consistent sb := by
  induction calls generalizing s with
  | nil => exact ⟨s, rfl, rfl, h⟩
  | cons c rest ih =>
    have hsum : (s.byteFiles sb).cost c + ((s.byteFiles sb).call c).1.costs rest ≤
        freeBlocks sb s.fs.disk := henough
    obtain ⟨s₁, hok, hfiles, hconsistent, hfree⟩ := refines h
      (hcalls c List.mem_cons_self) (by omega)
    have hcalls₁ : ∀ c' ∈ rest, (s₁.byteFiles sb).OnFile c' := by
      intro c' hc'
      rw [hfiles]
      exact (hcalls c' (List.mem_cons_of_mem c hc')).call
    obtain ⟨s', hrest, hfiles', hconsistent'⟩ := ih hconsistent hcalls₁ (by rw [hfiles]; omega)
    refine ⟨s', ?_, ?_, hconsistent'⟩
    · rw [OpenFiles.calls, hok]
      change (s₁.calls sb rest).bind _ = _
      rw [hrest, hfiles]
      rfl
    · rw [hfiles', hfiles]
      rfl

end OpenFiles

section FiveBytes

open FileSystem

/-- A file of five bytes. -/
def fiveBytes : List FsAct :=
  [.ialloc tFile, .ilock 1, .writei 1 (fun k ↦ BitVec.ofNat 8 k) 0 5]

/-- The file system with that file, which is also open for writing at its end. -/
def fiveBytesOpen : OpenFiles :=
  ⟨(Runs.run (step smallSuper) fiveBytes (boot smallDisk)).get (by decide +kernel),
    fun _ ↦ ⟨true, 1, 5⟩⟩

theorem fiveBytesOpen_consistent : fiveBytesOpen.fs.Consistent smallSuper := by
  have hrun : Runs.run (step smallSuper) fiveBytes (boot smallDisk) = some fiveBytesOpen.fs := by
    simp only [fiveBytesOpen, some_get]
  exact consistent_of_reaches smallDisk_owned (Runs.reaches_of_run hrun)

theorem files_refine_byte_arrays_fiveBytes :
    let calls := [.filewrite 0 (fun k ↦ BitVec.ofNat 8 k) 3, .readi 1 4 10]
    ∃ s', fiveBytesOpen.calls smallSuper calls =
        .ok (s', ((fiveBytesOpen.byteFiles smallSuper).calls calls).2) ∧
      s'.byteFiles smallSuper = ((fiveBytesOpen.byteFiles smallSuper).calls calls).1 ∧
      s'.fs.Consistent smallSuper := by
  apply OpenFiles.files_refine_byte_arrays fiveBytesOpen_consistent
  · have hlive : Live smallSuper (fiveBytesOpen.fs.disk.dinode smallSuper) 1 := by decide +kernel
    have hfile : ∀ c, (fiveBytesOpen.byteFiles smallSuper).target c =
        byteFile smallSuper fiveBytesOpen.fs.disk 1 →
          (fiveBytesOpen.byteFiles smallSuper).OnFile c :=
      fun c hc ↦ ⟨_, hc.trans (byteFile_of_live hlive), by decide +kernel⟩
    intro c hc
    rcases List.mem_pair.mp hc with rfl | rfl
    · exact hfile _ rfl
    · exact hfile _ rfl
  · decide +kernel

/-- `readi` takes no count that wraps around: it fails, although there are four bytes from offset 1
on. -/
theorem readi_refuses_wrap :
    fiveBytesOpen.fs.Consistent smallSuper ∧
      ((fiveBytesOpen.fs.readi smallSuper 1 1 0xFFFFFFFF).toOption.map Prod.snd) = some .fail ∧
      min (0xFFFFFFFF : Word).toNat
        ((fiveBytesOpen.fs.disk.dinode smallSuper 1).size.toNat - (1 : Word).toNat) = 4 :=
  ⟨fiveBytesOpen_consistent, by decide +kernel, by decide +kernel⟩

end FiveBytes

end Xv6Mmap.Fs
