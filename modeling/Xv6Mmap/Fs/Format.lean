import Xv6Mmap.Kernel.Word
import Xv6Mmap.Library.Bytes

/-!
# The format of the file system on disk

A block is 512 bytes.  Numbers are kept with the least significant byte first.  The views of a block
as a table of block numbers, of inodes or of bits are each read and written in place; what is written
is read back, and the other entries of the block stay.
-/

namespace Xv6Mmap.Fs

open Library.Bytes BitVec

/-! ## Constants of `fs.h` and `stat.h` -/

def nDirect : ℕ := 12
def nIndirect : ℕ := 128
def dirSiz : ℕ := 14

/-- Inodes per block. -/
def ipb : ℕ := 8

/-- Bits of the bitmap per block. -/
def bpb : ℕ := 4096

def tDir : BitVec 16 := 1
def tFile : BitVec 16 := 2
def tDev : BitVec 16 := 3

/-! ## Blocks -/

abbrev Block := Fin bSize → Byte

namespace Block

def zero : Block := fun _ ↦ 0

def byte (b : Block) (i : ℕ) : Byte := if h : i < bSize then b ⟨i, h⟩ else 0

/-- Overwrite `n` bytes of a block from `off` on. -/
def write (b : Block) (off n : ℕ) (src : ℕ → Byte) : Block :=
  fun i ↦ splice b.byte off n src i.val

variable {b : Block} {src : ℕ → Byte} {off n i : ℕ} {k : ℕ}

theorem byte_of_lt (h : i < bSize) : b.byte i = b ⟨i, h⟩ := dif_pos h

@[simp]
theorem byte_zero (i : ℕ) : zero.byte i = 0 := by
  unfold byte
  split
  · rfl
  · rfl

theorem byte_write (h : i < bSize) : (b.write off n src).byte i = splice b.byte off n src i :=
  byte_of_lt h

theorem byte_write_add {j : ℕ} (hj : j < n) (h : off + j < bSize) :
    (b.write off n src).byte (off + j) = src j := by
  rw [byte_write h, splice_add hj]

theorem byte_write_of_lt (h : i < off) : (b.write off n src).byte i = b.byte i := by
  by_cases hi : i < bSize
  · rw [byte_write hi, splice_of_lt h]
  · rw [byte, byte, dif_neg hi, dif_neg hi]

theorem byte_write_of_ge (h : off + n ≤ i) : (b.write off n src).byte i = b.byte i := by
  by_cases hi : i < bSize
  · rw [byte_write hi, splice_of_ge h]
  · rw [byte, byte, dif_neg hi, dif_neg hi]

/-! ## A block as a table of block numbers -/

def uint (b : Block) (i : ℕ) : Word := BitVec.ofNat 32 (leValue (fun j ↦ b.byte (4 * i + j)) 4)

def setUint (b : Block) (i : ℕ) (value : Word) : Block := b.write (4 * i) 4 (leByte value.toNat)

@[simp]
theorem uint_zero (i : ℕ) : zero.uint i = 0 := by
  rw [uint, leValue_eq_zero fun j _ ↦ byte_zero _]
  rfl

/-- Four bytes are a word. -/
theorem ofNat_leValue_leByte (value : Word) :
    BitVec.ofNat 32 (leValue (leByte value.toNat) 4) = value := by
  rw [leValue_leByte_of_lt value.isLt, ofNat_toNat, setWidth_eq]

theorem uint_setUint_self (h : i < nIndirect) (value : Word) :
    (b.setUint i value).uint i = value := by
  have hbytes : ∀ j < 4, (b.setUint i value).byte (4 * i + j) = leByte value.toNat j := by
    intro j hj
    have hlt : 4 * i + j < bSize := by
      simp only [nIndirect, bSize] at h ⊢
      omega
    exact byte_write_add hj hlt
  rw [uint, leValue_congr hbytes]
  exact ofNat_leValue_leByte value

theorem uint_setUint_of_ne (h : k ≠ i) (value : Word) :
    (b.setUint i value).uint k = b.uint k := by
  have hbytes : ∀ j < 4, (b.setUint i value).byte (4 * k + j) = b.byte (4 * k + j) := by
    intro j hj
    rcases Nat.lt_or_gt_of_ne h with hlt | hgt
    · exact byte_write_of_lt (by omega)
    · exact byte_write_of_ge (by omega)
  rw [uint, leValue_congr hbytes]
  rfl

/-! ## A block as a bitmap -/

/-- `1 << (bi % 8)`. -/
def mask (bi : ℕ) : Byte := 1 <<< (bi % 8)

def bit (b : Block) (bi : ℕ) : Bool := b.byte (bi / 8) &&& mask bi != 0

def setBit (b : Block) (bi : ℕ) : Block :=
  b.write (bi / 8) 1 fun _ ↦ b.byte (bi / 8) ||| mask bi

def clearBit (b : Block) (bi : ℕ) : Block :=
  b.write (bi / 8) 1 fun _ ↦ b.byte (bi / 8) &&& ~~~mask bi

theorem and_mask_ne_zero (x : Byte) (bi : ℕ) :
    (x &&& mask bi != 0) = x.getLsbD (bi % 8) := by
  have hall : ∀ x : Byte, ∀ k : Fin 8, (x &&& 1 <<< k.val != 0) = x.getLsbD k.val := by
    decide +kernel
  exact hall x ⟨bi % 8, Nat.mod_lt _ (by decide)⟩

theorem getLsbD_mask (bi k : ℕ) (hk : k < 8) : (mask bi).getLsbD k = decide (k = bi % 8) := by
  have hall : ∀ i k : Fin 8, ((1 : Byte) <<< i.val).getLsbD k.val = decide (k.val = i.val) := by
    decide +kernel
  exact hall ⟨bi % 8, Nat.mod_lt _ (by decide)⟩ ⟨k, hk⟩

theorem bit_eq (b : Block) (bi : ℕ) : b.bit bi = (b.byte (bi / 8)).getLsbD (bi % 8) :=
  and_mask_ne_zero _ _

/-- What one byte of the bitmap becomes decides the bits. -/
theorem bit_write {x : Byte} {bi : ℕ} (hk : k < bpb) :
    (b.write (bi / 8) 1 fun _ ↦ x).bit k =
      if k / 8 = bi / 8 then x.getLsbD (k % 8) else b.bit k := by
  rw [bit_eq]
  split
  · rename_i heq
    have hlt : bi / 8 + 0 < bSize := by
      simp only [bpb, bSize] at hk ⊢
      omega
    have hbyte : (b.write (bi / 8) 1 fun _ ↦ x).byte (bi / 8) = x :=
      byte_write_add Nat.one_pos hlt
    rw [heq, hbyte]
  · grind [bit_eq, byte_write_of_lt, byte_write_of_ge]

theorem bit_setBit {bi : ℕ} (hk : k < bpb) :
    (b.setBit bi).bit k = (b.bit k || decide (k = bi)) := by
  have hmod : k % 8 < 8 := Nat.mod_lt _ (by decide)
  rw [setBit, bit_write hk]
  split
  · rename_i heq
    rw [getLsbD_or, getLsbD_mask bi _ hmod, bit_eq b k, heq]
    congr 1
    rw [decide_eq_decide]
    omega
  · rename_i hne
    have hki : k ≠ bi := fun heq ↦ hne (heq ▸ rfl)
    simp [hki]

theorem bit_clearBit {bi : ℕ} (hk : k < bpb) :
    (b.clearBit bi).bit k = (b.bit k && !decide (k = bi)) := by
  have hmod : k % 8 < 8 := Nat.mod_lt _ (by decide)
  rw [clearBit, bit_write hk]
  split
  · rename_i heq
    have hsame : decide (k % 8 = bi % 8) = decide (k = bi) := by
      rw [decide_eq_decide]
      omega
    rw [getLsbD_and, getLsbD_not, getLsbD_mask bi _ hmod, bit_eq b k, heq, hsame]
    simp [hmod]
  · rename_i hne
    have hki : k ≠ bi := fun heq ↦ hne (heq ▸ rfl)
    simp [hki]

end Block

/-! ## Inodes -/

/-- `struct dinode`, and the part of `struct inode` that is a copy of it. -/
@[ext]
structure Dinode where
  type : BitVec 16
  major : BitVec 16
  minor : BitVec 16
  nlink : BitVec 16
  size : Word
  addrs : Fin (nDirect + 1) → Word
  deriving DecidableEq

namespace Dinode

def zero : Dinode := ⟨0, 0, 0, 0, 0, fun _ ↦ 0⟩

/-- `addrs[k]`. -/
def addr (ip : Dinode) (k : ℕ) : Word := if h : k < nDirect + 1 then ip.addrs ⟨k, h⟩ else 0

def setAddr (ip : Dinode) (k : ℕ) (value : Word) : Dinode :=
  { ip with addrs := fun i ↦ if i.val = k then value else ip.addrs i }

/-- The bytes of an inode. -/
def byte (ip : Dinode) (i : ℕ) : Byte :=
  if i < 2 then leByte ip.type.toNat i
  else if i < 4 then leByte ip.major.toNat (i - 2)
  else if i < 6 then leByte ip.minor.toNat (i - 4)
  else if i < 8 then leByte ip.nlink.toNat (i - 6)
  else if i < 12 then leByte ip.size.toNat (i - 8)
  else leByte (ip.addr ((i - 12) / 4)).toNat ((i - 12) % 4)

/-- The inode that 64 bytes make. -/
def ofBytes (f : ℕ → Byte) : Dinode where
  type := BitVec.ofNat 16 (leValue f 2)
  major := BitVec.ofNat 16 (leValue (fun j ↦ f (2 + j)) 2)
  minor := BitVec.ofNat 16 (leValue (fun j ↦ f (4 + j)) 2)
  nlink := BitVec.ofNat 16 (leValue (fun j ↦ f (6 + j)) 2)
  size := BitVec.ofNat 32 (leValue (fun j ↦ f (8 + j)) 4)
  addrs k := BitVec.ofNat 32 (leValue (fun j ↦ f (12 + 4 * k.val + j)) 4)

variable {ip : Dinode} {k : ℕ}

theorem addr_of_lt (h : k < nDirect + 1) : ip.addr k = ip.addrs ⟨k, h⟩ := dif_pos h

theorem addr_setAddr_self (h : k < nDirect + 1) (value : Word) :
    (ip.setAddr k value).addr k = value := by
  rw [addr_of_lt h]
  exact if_pos rfl

theorem addr_setAddr_of_ne {i : ℕ} (h : i ≠ k) (value : Word) :
    (ip.setAddr k value).addr i = ip.addr i := by
  unfold addr
  split
  · exact if_neg h
  · rfl

@[simp]
theorem addr_zero (k : ℕ) : zero.addr k = 0 := by
  unfold addr
  split
  · rfl
  · rfl

theorem ofBytes_congr {f g : ℕ → Byte} (h : ∀ i < 64, f i = g i) : ofBytes f = ofBytes g := by
  unfold ofBytes
  congr 1
  · rw [leValue_congr fun j hj ↦ h j (by omega)]
  · rw [leValue_congr fun j hj ↦ h (2 + j) (by omega)]
  · rw [leValue_congr fun j hj ↦ h (4 + j) (by omega)]
  · rw [leValue_congr fun j hj ↦ h (6 + j) (by omega)]
  · rw [leValue_congr fun j hj ↦ h (8 + j) (by omega)]
  · funext k
    have hk : k.val < 13 := k.isLt
    rw [leValue_congr fun j hj ↦ h (12 + 4 * k.val + j) (by omega)]

/-- Two bytes are a half word. -/
theorem ofNat_leValue_two (value : BitVec 16) :
    BitVec.ofNat 16 (leValue (leByte value.toNat) 2) = value := by
  rw [leValue_leByte_of_lt value.isLt, ofNat_toNat, setWidth_eq]

section Fields

variable {j : ℕ}

theorem byte_type (hj : j < 2) : ip.byte j = leByte ip.type.toNat j := if_pos hj

theorem byte_major (hj : j < 2) : ip.byte (2 + j) = leByte ip.major.toNat j := by
  rw [byte, if_neg (by omega), if_pos (by omega), Nat.add_sub_cancel_left]

theorem byte_minor (hj : j < 2) : ip.byte (4 + j) = leByte ip.minor.toNat j := by
  rw [byte, if_neg (by omega), if_neg (by omega), if_pos (by omega), Nat.add_sub_cancel_left]

theorem byte_nlink (hj : j < 2) : ip.byte (6 + j) = leByte ip.nlink.toNat j := by
  rw [byte, if_neg (by omega), if_neg (by omega), if_neg (by omega), if_pos (by omega),
    Nat.add_sub_cancel_left]

theorem byte_size (hj : j < 4) : ip.byte (8 + j) = leByte ip.size.toNat j := by
  rw [byte, if_neg (by omega), if_neg (by omega), if_neg (by omega), if_neg (by omega),
    if_pos (by omega), Nat.add_sub_cancel_left]

theorem byte_addr (hj : j < 4) : ip.byte (12 + 4 * k + j) = leByte (ip.addr k).toNat j := by
  have hindex : (12 + 4 * k + j - 12) / 4 = k := by omega
  have hrest : (12 + 4 * k + j - 12) % 4 = j := by omega
  rw [byte, if_neg (by omega), if_neg (by omega), if_neg (by omega), if_neg (by omega),
    if_neg (by omega), hindex, hrest]

end Fields

/-- What is written is read back. -/
theorem ofBytes_byte (ip : Dinode) : ofBytes ip.byte = ip := by
  ext1
  · exact (congrArg _ (leValue_congr fun j hj ↦ byte_type hj)).trans (ofNat_leValue_two ip.type)
  · exact (congrArg _ (leValue_congr fun j hj ↦ byte_major hj)).trans (ofNat_leValue_two ip.major)
  · exact (congrArg _ (leValue_congr fun j hj ↦ byte_minor hj)).trans (ofNat_leValue_two ip.minor)
  · exact (congrArg _ (leValue_congr fun j hj ↦ byte_nlink hj)).trans (ofNat_leValue_two ip.nlink)
  · exact (congrArg _ (leValue_congr fun j hj ↦ byte_size hj)).trans
      (Block.ofNat_leValue_leByte ip.size)
  · funext k
    have hk : ip.addr k.val = ip.addrs k := addr_of_lt k.isLt
    rw [← hk]
    exact (congrArg _ (leValue_congr fun j hj ↦ byte_addr hj)).trans
      (Block.ofNat_leValue_leByte (ip.addr k.val))

end Dinode

/-! ## A block as a table of inodes -/

namespace Block

def dinode (b : Block) (k : ℕ) : Dinode := Dinode.ofBytes fun i ↦ b.byte (64 * k + i)

def setDinode (b : Block) (k : ℕ) (ip : Dinode) : Block := b.write (64 * k) 64 ip.byte

variable {b : Block} {i k : ℕ}

theorem dinode_setDinode_self (h : k < ipb) (ip : Dinode) : (b.setDinode k ip).dinode k = ip := by
  have hbytes : ∀ i < 64, (b.setDinode k ip).byte (64 * k + i) = ip.byte i := by
    intro i hi
    have hlt : 64 * k + i < bSize := by
      simp only [ipb, bSize] at h ⊢
      omega
    exact byte_write_add hi hlt
  rw [dinode, Dinode.ofBytes_congr hbytes, Dinode.ofBytes_byte]

theorem dinode_setDinode_of_ne (h : i ≠ k) (ip : Dinode) :
    (b.setDinode k ip).dinode i = b.dinode i := by
  apply Dinode.ofBytes_congr
  intro j hj
  rcases Nat.lt_or_gt_of_ne h with hlt | hgt
  · exact byte_write_of_lt (by omega)
  · exact byte_write_of_ge (by omega)

end Block

/-! ## Directory entries -/

/-- `struct dirent`. -/
@[ext]
structure Dirent where
  inum : BitVec 16
  name : Fin dirSiz → Byte
  deriving DecidableEq

namespace Dirent

/-- `sizeof(struct dirent)`. -/
def bytes : ℕ := 16

def zero : Dirent := ⟨0, fun _ ↦ 0⟩

/-- `name[k]`. -/
def nameByte (de : Dirent) (k : ℕ) : Byte := if h : k < dirSiz then de.name ⟨k, h⟩ else 0

def byte (de : Dirent) (i : ℕ) : Byte :=
  if i < 2 then leByte de.inum.toNat i else de.nameByte (i - 2)

def ofBytes (f : ℕ → Byte) : Dirent where
  inum := BitVec.ofNat 16 (leValue f 2)
  name k := f (2 + k.val)

theorem ofBytes_congr {f g : ℕ → Byte} (h : ∀ i < bytes, f i = g i) : ofBytes f = ofBytes g := by
  unfold ofBytes
  congr 1
  · rw [leValue_congr fun j hj ↦ h j (by simp only [bytes]; omega)]
  · funext k
    have hk : k.val < 14 := k.isLt
    exact h _ (by simp only [bytes]; omega)

theorem ofBytes_byte (de : Dirent) : ofBytes de.byte = de := by
  ext1
  · exact (congrArg _ (leValue_congr fun j hj ↦ if_pos hj)).trans
      (Dinode.ofNat_leValue_two de.inum)
  · funext k
    have hge : ¬ 2 + k.val < 2 := by omega
    change de.byte (2 + k.val) = de.name k
    rw [byte, if_neg hge, Nat.add_sub_cancel_left]
    exact dif_pos k.isLt

end Dirent

/-! ## The super block and the layout of the disk -/

structure Superblock where
  size : ℕ
  nblocks : ℕ
  ninodes : ℕ
  inodestart : ℕ
  bmapstart : ℕ
  deriving DecidableEq

namespace Superblock

/-- `IBLOCK`. -/
def iblock (sb : Superblock) (inum : ℕ) : ℕ := inum / ipb + sb.inodestart

/-- `BBLOCK`. -/
def bblock (sb : Superblock) (b : ℕ) : ℕ := b / bpb + sb.bmapstart

end Superblock

end Xv6Mmap.Fs
