import Xv6Mmap.Fs.Inode

/-!
# The layout of the disk

The inodes come before the bitmap, and the bitmap before the data blocks.  So the inodes, the bits of
the bitmap and the data blocks are independent of each other: a change of one leaves the others.
-/

namespace Xv6Mmap.Fs

open Function

namespace Superblock

/-- The first block after the bitmap. -/
def dataStart (sb : Superblock) : ℕ := sb.size - sb.nblocks

/-- The areas of the disk lie in order. -/
structure Laid (sb : Superblock) : Prop where
  pos : 0 < sb.size
  small : sb.size ≤ 2 ^ 31
  inodes : ∀ inum < sb.ninodes, sb.iblock inum < sb.bmapstart
  bitmap : ∀ b < sb.size, sb.bblock b < sb.dataStart

theorem bmapstart_le (sb : Superblock) (b : ℕ) : sb.bmapstart ≤ sb.bblock b := Nat.le_add_left _ _

theorem Laid.iblock_lt {sb : Superblock} (h : sb.Laid) {inum : ℕ} (hi : inum < sb.ninodes) :
    sb.iblock inum < sb.dataStart :=
  calc sb.iblock inum < sb.bmapstart := h.inodes inum hi
    _ ≤ sb.bblock 0 := sb.bmapstart_le 0
    _ < sb.dataStart := h.bitmap 0 h.pos

end Superblock

namespace Disk

variable {sb : Superblock} {d : Disk} {i inum b c : ℕ} {ip : Dinode} {block : Block}

/-! ## Inodes -/

theorem dinode_setDinode_self (d : Disk) (inum : ℕ) (ip : Dinode) :
    (d.setDinode sb inum ip).dinode sb inum = ip := by
  rw [dinode, setDinode, update_self]
  exact Block.dinode_setDinode_self (Nat.mod_lt _ (by decide)) ip

theorem dinode_setDinode_of_ne (h : i ≠ inum) (ip : Dinode) :
    (d.setDinode sb inum ip).dinode sb i = d.dinode sb i := by
  rw [dinode, setDinode]
  by_cases hblock : sb.iblock i = sb.iblock inum
  · have hmod : i % ipb ≠ inum % ipb := by
      simp only [Superblock.iblock, ipb] at hblock ⊢
      omega
    rw [hblock, update_self, Block.dinode_setDinode_of_ne hmod, ← hblock]
    rfl
  · rw [update_of_ne hblock]
    rfl

section

variable (h : sb.Laid)
include h

theorem setDinode_of_ge (hi : inum < sb.ninodes) (hb : sb.dataStart ≤ b) :
    d.setDinode sb inum ip b = d b :=
  update_of_ne (Nat.ne_of_gt ((h.iblock_lt hi).trans_le hb)) ..

theorem used_setDinode (hi : inum < sb.ninodes) (b : ℕ) :
    (d.setDinode sb inum ip).used sb b = d.used sb b := by
  have hne : sb.bblock b ≠ sb.iblock inum :=
    Nat.ne_of_gt ((h.inodes inum hi).trans_le (sb.bmapstart_le b))
  rw [used, setDinode, update_of_ne hne]
  rfl

/-! ## Data blocks -/

theorem dinode_update_of_ge (hi : inum < sb.ninodes) (hb : sb.dataStart ≤ b) :
    Disk.dinode (update d b block) sb inum = d.dinode sb inum := by
  rw [dinode, update_of_ne (Nat.ne_of_lt ((h.iblock_lt hi).trans_le hb))]
  rfl

theorem used_update_of_ge (hc : c < sb.size) (hb : sb.dataStart ≤ b) :
    Disk.used (update d b block) sb c = d.used sb c := by
  rw [used, update_of_ne (Nat.ne_of_lt ((h.bitmap c hc).trans_le hb))]
  rfl

/-! ## The bitmap -/

/-- A block of the bitmap is changed. -/
theorem dinode_update_bblock (hi : inum < sb.ninodes) (b : ℕ) :
    Disk.dinode (update d (sb.bblock b) block) sb inum = d.dinode sb inum := by
  rw [dinode, update_of_ne
    (Nat.ne_of_lt ((h.inodes inum hi).trans_le (sb.bmapstart_le b)))]
  rfl

theorem dinode_mark (hi : inum < sb.ninodes) (b : ℕ) :
    (d.mark sb b).dinode sb inum = d.dinode sb inum :=
  dinode_update_bblock h hi b

theorem dinode_unmark (hi : inum < sb.ninodes) (b : ℕ) :
    (d.unmark sb b).dinode sb inum = d.dinode sb inum :=
  dinode_update_bblock h hi b

theorem mark_of_ge (hb : b < sb.size) (hc : sb.dataStart ≤ c) :
    d.mark sb b c = d c :=
  update_of_ne (Nat.ne_of_gt ((h.bitmap b hb).trans_le hc)) ..

theorem unmark_of_ge (hb : b < sb.size) (hc : sb.dataStart ≤ c) :
    d.unmark sb b c = d c :=
  update_of_ne (Nat.ne_of_gt ((h.bitmap b hb).trans_le hc)) ..

end

theorem mod_eq_iff_of_bblock (h : sb.bblock c = sb.bblock b) : c % bpb = b % bpb ↔ c = b := by
  simp only [Superblock.bblock, bpb] at h ⊢
  omega

theorem used_mark (d : Disk) (b c : ℕ) :
    (d.mark sb b).used sb c = (d.used sb c || decide (c = b)) := by
  have hlt : c % bpb < bpb := Nat.mod_lt _ (by decide)
  rw [used, mark]
  by_cases hblock : sb.bblock c = sb.bblock b
  · rw [hblock, update_self, Block.bit_setBit hlt,
      decide_eq_decide.mpr (mod_eq_iff_of_bblock hblock), used, hblock]
  · have hne : c ≠ b := fun heq ↦ hblock (heq ▸ rfl)
    rw [update_of_ne hblock, decide_eq_false hne, Bool.or_false]
    rfl

theorem used_unmark (d : Disk) (b c : ℕ) :
    (d.unmark sb b).used sb c = (d.used sb c && !decide (c = b)) := by
  have hlt : c % bpb < bpb := Nat.mod_lt _ (by decide)
  rw [used, unmark]
  by_cases hblock : sb.bblock c = sb.bblock b
  · rw [hblock, update_self, Block.bit_clearBit hlt,
      decide_eq_decide.mpr (mod_eq_iff_of_bblock hblock), used, hblock]
  · have hne : c ≠ b := fun heq ↦ hblock (heq ▸ rfl)
    rw [update_of_ne hblock, decide_eq_false hne, Bool.not_false, Bool.and_true]
    rfl

end Disk

end Xv6Mmap.Fs
