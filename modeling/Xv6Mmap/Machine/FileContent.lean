import Xv6Mmap.Library.Memory
import Xv6Mmap.Machine.PageCache

/-!
# What `readi` and `writei` compute

The content of a file is its bytes, with zeros past its end; a device has none.  The block loops of
`readi` and `writei` amount to one block write each, to memory and to the content.
-/

namespace Xv6Mmap

open Function Library Memory List Bytes

variable {nproc : ℕ} {off : Word}

namespace Inode

def content (inode : Inode) (o : ℕ) : Byte :=
  if inode.major = none ∧ o < inode.size.toNat then inode.data o else 0

/-- The inode after a successful `writei`. -/
def written (inode : Inode) (off n : Word) (bytes : ℕ → Byte) : Inode :=
  { inode with
    size := if 0 < n ∧ inode.size < off + n then off + n else inode.size
    data := splice inode.data off.toNat n.toNat bytes }

section Written

variable {inode : Inode} {n : Word} (hoff : off ≤ inode.size)
  (hend : off.toNat + n.toNat < 2 ^ 32) (bytes : ℕ → Byte)
include hoff hend

theorem size_written : (inode.written off n bytes).size.toNat =
    max inode.size.toNat (off.toNat + n.toNat) := by
  have hsum : (off + n).toNat = off.toNat + n.toNat := by
    rw [BitVec.toNat_add, Nat.mod_eq_of_lt hend]
  have hstart : off.toNat ≤ inode.size.toNat := hoff
  simp only [written]
  split
  · rename_i hgrows
    have hlt : inode.size.toNat < (off + n).toNat := hgrows.2
    omega
  · rename_i hstays
    have hle : n.toNat = 0 ∨ (off + n).toNat ≤ inode.size.toNat := by
      by_contra hboth
      rw [not_or, not_le] at hboth
      apply hstays
      rw [BitVec.lt_def, BitVec.lt_def]
      exact ⟨Nat.pos_of_ne_zero hboth.1, hboth.2⟩
    omega

/-- A write that starts inside the file changes the content where it writes and nowhere else. -/
theorem content_written (hfile : inode.major = none) (o : ℕ) :
    (inode.written off n bytes).content o =
      if off.toNat ≤ o ∧ o < off.toNat + n.toNat then bytes (o - off.toNat)
      else inode.content o := by
  rw [content, size_written hoff hend]
  simp only [written, splice, content, hfile, true_and]
  by_cases hin : off.toNat ≤ o ∧ o < off.toNat + n.toNat
  · rw [if_pos hin, if_pos hin, if_pos (lt_max_of_lt_right hin.2)]
  · have hstart : off.toNat ≤ inode.size.toNat := hoff
    grind

end Written

end Inode

namespace Kernel

open Prog

variable {ip : InodeRef} {s : Machine nproc}

/-! ## Memory -/

theorem memset_apply (dst : Word) (c : Byte) (n : ℕ) (s : Machine nproc) :
    memset dst c n s = (.ok (), { s with mem := blit s.mem dst n fun _ ↦ c }) := rfl

theorem copyIn_apply (dst : Word) (bytes : ℕ → Byte) (n : ℕ) (s : Machine nproc) :
    copyIn dst bytes n s = (.ok (), { s with mem := blit s.mem dst n bytes }) := rfl

theorem memmove_apply (dst src : Word) (n : ℕ) (s : Machine nproc) :
    memmove dst src n s =
      (.ok (), { s with mem := blit s.mem dst n fun k ↦ s.mem (src + BitVec.ofNat 32 k) }) := by
  have hmem : (fun a ↦ if (a - dst).toNat < n then s.mem (src + (a - dst)) else s.mem a) =
      blit s.mem dst n fun k ↦ s.mem (src + BitVec.ofNat 32 k) := by
    funext a
    rw [blit, BitVec.ofNat_toNat, BitVec.setWidth_eq]
  rw [memmove, modify_apply, hmem]

/-! ## Reading -/

theorem readBlocks_apply (hheld : s.held = none) (n : ℕ) (dst : Word) (off left : ℕ)
    (hn : left ≤ n) (hleft : left < 2 ^ 32) :
    readBlocks ip n dst off left s =
      (.ok (), { s with mem := blit s.mem dst left fun k ↦ (s.inodes ip).data (off + k) }) := by
  induction n generalizing s dst off left with
  | zero =>
    obtain rfl : left = 0 := by omega
    rw [blit_zero]
    rfl
  | succ n ih =>
    rw [readBlocks]
    by_cases hzero : left = 0
    · subst hzero
      rw [if_pos rfl, blit_zero]
      rfl
    · have hm : 0 < min left (bSize - off % bSize) := by
        have hmod : off % bSize < bSize := Nat.mod_lt _ (by decide)
        omega
      have hbread : bread ip (off / bSize) s = (.ok (), s) := by
        rw [bread, bind_of_ok (get_apply s), hheld, if_neg (by simp)]
        rfl
      rw [if_neg hzero, bind_of_ok hbread, bind_of_ok (get_apply s), bind_of_ok (copyIn_apply _ _ _ s)]
      generalize hdone : min left (bSize - off % bSize) = m at hm
      have hle : m ≤ left := hdone ▸ min_le_left _ _
      rw [ih (s := { s with mem := blit s.mem dst m fun k ↦ (s.inodes ip).data (off + k) }) hheld
        _ _ _ (by omega) (by omega)]
      dsimp only
      rw [blit_append (by omega) (by omega), Nat.add_sub_cancel' hle]
      have hcells : (fun k ↦ if k < m then (s.inodes ip).data (off + k)
          else (s.inodes ip).data (off + m + (k - m))) = fun k ↦ (s.inodes ip).data (off + k) := by
        funext k
        split
        · rfl
        · rw [show off + m + (k - m) = off + k by omega]
      rw [hcells]

/-- `readi` of a range that starts inside the file. -/
theorem readi_apply (ip : InodeRef) (hheld : s.held = none) (dst n : Word)
    (hfile : (s.inodes ip).major = none)
    (hok : ((s.inodes ip).size < off || off + n < off) = false) :
    readi ip dst off n s =
      let m := if (s.inodes ip).size < off + n then (s.inodes ip).size - off else n
      (.ok m, { s with mem := blit s.mem dst m.toNat fun k ↦ (s.inodes ip).data (off.toNat + k) }) := by
  dsimp only
  generalize hm : (if (s.inodes ip).size < off + n then (s.inodes ip).size - off else n) = m
  rw [readi, bind_of_ok (get_apply s)]
  simp only [hfile, hok, hm]
  rw [if_neg (by decide), bind_of_ok (readBlocks_apply hheld _ _ _ _ le_rfl m.isLt)]
  rfl

/-! ## Writing -/

/-- Bytes that are read from memory. -/
def peek (src : ℕ → Word) (j : ℕ) : Kernel nproc Byte := fun s ↦ (.ok (s.mem (src j)), s)

/-- A source whose bytes depend on the memory only and are fetched without a fault. -/
def Reads (fetch : ℕ → Kernel nproc Byte) (byte : ℕ → (Word → Byte) → Byte) : Prop :=
  ∀ j s, fetch j s = (.ok (byte j s.mem), s)

theorem reads_peek (src : ℕ → Word) :
    Reads (peek src : ℕ → Kernel nproc Byte) fun j mem ↦ mem (src j) :=
  fun _ _ ↦ rfl

section Reads

variable {fetch : ℕ → Kernel nproc Byte} {byte : ℕ → (Word → Byte) → Byte}
  (hreads : Reads fetch byte)
include hreads

theorem Reads.fetchBytes (i m : ℕ) :
    fetchBytes fetch i m s = (.ok ((List.range m).map fun k ↦ byte (i + k) s.mem), s) := by
  induction m generalizing i with
  | zero => rfl
  | succ m ih =>
    rw [Kernel.fetchBytes, bind_of_ok (hreads i s), bind_of_ok (ih (i + 1)), range_succ_eq_map,
      map_cons, map_map]
    have hshift : ((fun k ↦ byte (i + k) s.mem) ∘ Nat.succ) = fun k ↦ byte (i + 1 + k) s.mem := by
      funext k
      rw [comp_apply, Nat.succ_eq_add_one, show i + (k + 1) = i + 1 + k by omega]
    rw [hshift]
    rfl

omit hreads in
theorem splice_map_range (data : ℕ → Byte) (off m : ℕ) (bytes : ℕ → Byte) :
    splice data off ((List.range m).map bytes).length
        (fun k ↦ ((List.range m).map bytes).getD k 0) = splice data off m bytes := by
  funext o
  rw [splice, splice, length_map, length_range]
  split
  · grind
  · rfl

theorem Reads.writeBlocks (hheld : s.held = none) (n i off left : ℕ)
    (hn : left ≤ n) :
    writeBlocks ip fetch n i off left s =
      (.ok (), { s with inodes := update s.inodes ip { s.inodes ip with
        data := splice (s.inodes ip).data off left fun k ↦ byte (i + k) s.mem } }) := by
  have hnothing (i off : ℕ) (s : Machine nproc) :
      { s with inodes := update s.inodes ip { s.inodes ip with
        data := splice (s.inodes ip).data off 0 fun k ↦ byte (i + k) s.mem } } = s := by
    rw [splice_zero, update_eq_self]
  induction n generalizing s i off left with
  | zero =>
    obtain rfl : left = 0 := by omega
    rw [hnothing]
    rfl
  | succ n ih =>
    rw [Kernel.writeBlocks]
    by_cases hzero : left = 0
    · subst hzero
      rw [if_pos rfl, hnothing]
      rfl
    · have hm : 0 < min left (bSize - off % bSize) := by
        have hmod : off % bSize < bSize := Nat.mod_lt _ (by decide)
        omega
      have hbread : bread ip (off / bSize) s = (.ok (), s) := by
        rw [bread, bind_of_ok (get_apply s), hheld, if_neg (by simp)]
        rfl
      rw [if_neg hzero, bind_of_ok hbread, bind_of_ok (modify_apply _ s),
        bind_of_ok (hreads.fetchBytes _ _), setInode, bind_of_ok (modify_apply _ _),
        bind_of_ok (modify_apply _ _)]
      generalize hdone : min left (bSize - off % bSize) = m at hm
      have hle : m ≤ left := hdone ▸ min_le_left _ _
      dsimp only
      rw [ih rfl _ _ _ (by omega)]
      dsimp only
      rw [update_self, update_idem, splice_map_range]
      dsimp only
      have hbytes : (fun k ↦ byte (i + m + k) s.mem) =
          fun k ↦ (fun j ↦ byte (i + j) s.mem) (m + k) := by
        funext k
        rw [Nat.add_assoc]
      rw [hbytes, splice_splice, Nat.add_sub_cancel' hle, hheld]

/-- `writei` of a range that starts inside the file and ends below the largest file size. -/
theorem Reads.writei_of_fits (hheld : s.held = none) (hfile : (s.inodes ip).major = none) (i : ℕ)
    {n : Word} (hoff : off ≤ (s.inodes ip).size) (hend : off.toNat + n.toNat ≤ maxFile * bSize) :
    writei ip fetch i off n s =
      (.ok n, { s with
        inodes := update s.inodes ip
          ((s.inodes ip).written off n fun k ↦ byte (i + k) s.mem) }) := by
  have hmax : maxFile * bSize = 71680 := rfl
  have hsum : (off + n).toNat = off.toNat + n.toNat := by
    rw [BitVec.toNat_add]
    omega
  have hok : ((s.inodes ip).size < off || off + n < off) = false := by
    rw [Bool.or_eq_false_iff, decide_eq_false_iff_not, decide_eq_false_iff_not, BitVec.not_lt,
      BitVec.not_lt]
    refine ⟨hoff, ?_⟩
    rw [BitVec.le_def, hsum]
    exact Nat.le_add_right _ _
  rw [writei, bind_of_ok (get_apply s)]
  simp only [hfile, hok]
  rw [if_neg (by decide), hsum, if_neg (not_lt.mpr hend),
    bind_of_ok (hreads.writeBlocks hheld _ _ _ _ le_rfl), setInode, bind_of_ok (modify_apply _ _)]
  simp only [update_self, update_idem, pure_apply, Inode.written, hfile]
  by_cases hgrows : 0 < n ∧ (s.inodes ip).size < off + n
  · simp only [if_pos hgrows]
  · simp only [if_neg hgrows]

omit hreads in
theorem writei_of_not_fits (hfile : (s.inodes ip).major = none) (i : ℕ) {n : Word}
    (h : ¬ (off ≤ (s.inodes ip).size ∧ off.toNat + n.toNat ≤ maxFile * bSize)) :
    writei ip fetch i off n s = (.ok (-1), s) := by
  rw [writei, bind_of_ok (get_apply s)]
  simp only [hfile]
  split
  · rfl
  · rename_i hok
    simp only [Bool.or_eq_true, decide_eq_true_eq, not_or, BitVec.not_lt, BitVec.le_def] at hok h
    rw [BitVec.toNat_add] at hok
    rw [if_pos (by rw [BitVec.toNat_add]; omega)]
    rfl

end Reads

end Kernel

end Xv6Mmap
