import Mathlib.Data.Finset.Card
import Xv6Mmap.Fs.FileBytes

/-!
# Free blocks

`bmap` and `writei` take one block for each slot that they fill, and they panic only if there are not
enough free blocks.
-/

namespace Xv6Mmap.Fs

open Function Finset

variable {sb : Superblock} {d d' : Disk} {inodes : ℕ → Dinode} {filled : ℕ → Slot → Prop}
  {len : ℕ → ℕ} {ip : Dinode} {i b k n m : ℕ} {α β : Type}

/-- The number of blocks whose bit in the bitmap is clear. -/
def freeBlocks (sb : Superblock) (d : Disk) : ℕ :=
  ((Finset.range sb.size).filter fun b ↦ d.used sb b = false).card

theorem freeBlocks_congr (h : ∀ b < sb.size, d'.used sb b = d.used sb b) :
    freeBlocks sb d' = freeBlocks sb d := by
  unfold freeBlocks
  congr 1
  apply filter_congr
  intro b hb
  rw [h b (mem_range.mp hb)]

theorem freeBlocks_update_of_ge (h : sb.Laid) (hb : sb.dataStart ≤ b) (block : Block) :
    freeBlocks sb (update d b block) = freeBlocks sb d :=
  freeBlocks_congr fun _ hc ↦ Disk.used_update_of_ge h hc hb

/-- A computation takes `n` blocks off the free ones, or there are fewer than `n` of them. -/
def Spends (sb : Superblock) (d : Disk) (n : ℕ) (r : Except FsPanic α) (disk : α → Disk) : Prop :=
  match r with
  | .ok a => freeBlocks sb d = freeBlocks sb (disk a) + n
  | .error _ => freeBlocks sb d < n

namespace Spends

variable {r : Except FsPanic α} {disk : α → Disk} {disk' : β → Disk}

theorem ok (h : Spends sb d n r disk) (hle : n ≤ freeBlocks sb d) :
    ∃ a, r = .ok a ∧ freeBlocks sb d = freeBlocks sb (disk a) + n := by
  cases r with
  | ok a => exact ⟨a, rfl, h⟩
  | error e => exact absurd hle (not_le.mpr h)

theorem of_eq (heq : freeBlocks sb d' = freeBlocks sb d) (h : Spends sb d' n r disk) :
    Spends sb d n r disk := by
  unfold Spends at h ⊢
  rwa [heq] at h

theorem map {f : α → β} (h : Spends sb d n r disk)
    (hf : ∀ a, r = .ok a → freeBlocks sb (disk' (f a)) = freeBlocks sb (disk a)) :
    Spends sb d n (r.map f) disk' := by
  cases r with
  | ok a =>
    change freeBlocks sb d = freeBlocks sb (disk' (f a)) + n
    rw [hf a rfl]
    exact h
  | error e => exact h

theorem bind {f : α → Except FsPanic β} (h : Spends sb d n r disk)
    (hf : ∀ a, r = .ok a → Spends sb (disk a) m (f a) disk') :
    Spends sb d (n + m) (r.bind f) disk' := by
  cases r with
  | ok a =>
    have hfirst : freeBlocks sb d = freeBlocks sb (disk a) + n := h
    have hthen := hf a rfl
    change Spends sb d (n + m) (f a) disk'
    cases hfa : f a with
    | ok c =>
      rw [hfa] at hthen
      change freeBlocks sb (disk a) = freeBlocks sb (disk' c) + m at hthen
      change freeBlocks sb d = freeBlocks sb (disk' c) + (n + m)
      omega
    | error e =>
      rw [hfa] at hthen
      change freeBlocks sb (disk a) < m at hthen
      change freeBlocks sb d < n + m
      omega
  | error e => exact Nat.lt_add_right m h

end Spends

/-! ## `balloc` and `bmap` -/

theorem Booked.spends_balloc (h : Booked sb d inodes filled) :
    Spends sb d 1 (balloc sb d) Prod.fst := by
  cases hok : balloc sb d with
  | ok r =>
    obtain ⟨d', b⟩ := r
    obtain ⟨hlo, hhi, hfree, rfl⟩ := h.balloc_spec hok
    have herase : ((range sb.size).filter fun c ↦
        ((d.mark sb b).bzero b).used sb c = false) =
          ((range sb.size).filter fun c ↦ d.used sb c = false).erase b := by
      grind [h.used_balloc]
    have hmem : b ∈ (range sb.size).filter fun c ↦ d.used sb c = false :=
      mem_filter.mpr ⟨mem_range.mpr hhi, hfree⟩
    change freeBlocks sb d = freeBlocks sb ((d.mark sb b).bzero b) + 1
    unfold freeBlocks
    rw [herase, card_erase_add_one hmem]
  | error e =>
    change freeBlocks sb d < 1
    rw [Nat.lt_one_iff, freeBlocks, card_eq_zero, filter_eq_empty_iff]
    intro b hb
    unfold balloc at hok
    split at hok
    · cases hok
    · grind

/-- `bmap` for an index of the inode takes a block if the inode has none there. -/
theorem Booked.spends_bmapAddr (h : Booked sb d inodes filled) (ip : Dinode) (k : ℕ) :
    Spends sb d (if ip.addr k = 0 then 1 else 0) (bmapAddr sb d ip k) Prod.fst := by
  by_cases hzero : ip.addr k = 0
  · rw [if_pos hzero, bmapAddr_of_zero hzero]
    exact h.spends_balloc.map fun _ _ ↦ rfl
  · rw [if_neg hzero, bmapAddr_of_ne hzero]
    rfl

theorem Booked.spends_bmapEntry {table : ℕ} (h : Booked sb d inodes filled)
    (htable : sb.dataStart ≤ table) (k : ℕ) :
    Spends sb d (if (d table).uint k = 0 then 1 else 0) (bmapEntry sb d table k) Prod.fst := by
  by_cases hzero : (d table).uint k = 0
  · rw [if_pos hzero, bmapEntry_of_zero hzero]
    exact h.spends_balloc.map fun r _ ↦ freeBlocks_update_of_ge h.laid htable _
  · rw [if_neg hzero, bmapEntry_of_ne hzero]
    rfl

/-- The number of slots that a file of so many blocks fills. -/
def slotsFor (len : ℕ) : ℕ := len + if nDirect < len then 1 else 0

theorem slotsFor_mono (h : n ≤ m) : slotsFor n ≤ slotsFor m := by
  unfold slotsFor
  split
  · rw [if_pos (by omega)]
    omega
  · omega

theorem slotsFor_succ (n : ℕ) : slotsFor (n + 1) = slotsFor n + 1 + if n = nDirect then 1 else 0 := by
  unfold slotsFor
  rcases lt_trichotomy n nDirect with hlt | heq | hgt
  · rw [if_neg (by omega), if_neg (by omega), if_neg (by omega)]
  · rw [if_pos (by omega), if_neg (by omega), if_pos heq]
  · rw [if_pos (by omega), if_pos (by omega), if_neg (by omega)]

/-- `bmap` fills the slots of one more block at the end of a file. -/
theorem Booked.spends_bmap {bn : ℕ} (h : Booked sb d inodes (extents len)) (hi : Live sb inodes i)
    (hle : bn ≤ len i) (hbn : bn < maxFile) :
    Spends sb d (slotsFor (max (len i) (bn + 1)) - slotsFor (len i)) (bmap sb d (inodes i) bn)
      Prod.fst := by
  have hfilled := h.mapped.filled i
  rcases Nat.lt_or_eq_of_le hle with hlt | heq
  · have hslot : slotAddr d (inodes i) (.leaf bn) ≠ 0 := by
      rw [hfilled _ hi, extents, Slot.level_leaf hbn]
      exact hlt
    rw [Nat.max_eq_left hlt, Nat.sub_self, bmap_of_ne hbn hslot]
    rfl
  · rw [Nat.max_eq_right (by omega), ← heq, slotsFor_succ, Nat.add_assoc, Nat.add_sub_cancel_left]
    by_cases hlo : bn < nDirect
    · have hzero : (inodes i).addr bn = 0 := by
        by_contra hne
        have hlevel := (hfilled (.direct ⟨bn, hlo⟩) hi).mp hne
        exact absurd hlevel (by rw [extents, ← heq]; exact Nat.lt_irrefl bn)
      have hspends := h.spends_bmapAddr (inodes i) bn
      rw [if_pos hzero] at hspends
      rw [if_neg (Nat.ne_of_lt hlo), bmap_direct hlo]
      exact hspends
    · have hlo := not_lt.mp hlo
      have hhi := Slot.entry_lt hlo hbn
      have htable : (inodes i).addr nDirect = 0 ↔ bn = nDirect := by
        have hiff := hfilled .table hi
        change (inodes i).addr nDirect ≠ 0 ↔ nDirect < len i at hiff
        rw [← not_iff_not, ← heq] at hiff
        rw [not_not] at hiff
        rw [hiff]
        omega
      have hfirst := h.spends_bmapAddr (inodes i) nDirect
      simp only [htable] at hfirst
      rw [bmap_entry hlo hhi, Nat.add_comm 1]
      apply hfirst.bind
      rintro ⟨d₁, ip₁, table⟩ hok
      obtain ⟨hbooked, hgrows, -, hne, rfl⟩ := h.bmapAddr_spec hi le_rfl hok
      have hself : update inodes i ip₁ i = ip₁ := update_self ..
      have hi₁ : Live sb (update inodes i ip₁) i := (hgrows.live i).mpr hi
      have hrange := hbooked.mapped.range_table hi₁ (hself.symm ▸ hne)
      rw [hself] at hrange
      have hzero : (d₁ (ip₁.addr nDirect).toNat).uint (bn - nDirect) = 0 := by
        by_contra huint
        have hentry : slotAddr d₁ (update inodes i ip₁ i)
            (.entry ⟨bn - nDirect, hhi⟩) ≠ 0 := by
          rw [hself, slotAddr_entry hne]
          exact huint
        rcases (hbooked.mapped.filled i _ hi₁).mp hentry with hlevel | hslot
        · have hlt : nDirect + (bn - nDirect) < len i := hlevel
          omega
        · rw [Slot.ofAddr_nDirect] at hslot
          cases hslot
      have hspends := hbooked.spends_bmapEntry hrange (bn - nDirect)
      rw [if_pos hzero] at hspends
      exact hspends.map fun _ _ ↦ rfl

/-! ## `writei` -/

/-- Writing to a block of a file takes none. -/
theorem Booked.freeBlocks_write {bn : ℕ} {ip' : Dinode} {block : Block}
    (h : Booked sb d inodes (extents len)) (hi : Live sb inodes i) (hle : bn ≤ len i)
    (hbn : bn < maxFile) (hok : bmap sb d (inodes i) bn = .ok (d', ip', b)) :
    freeBlocks sb (update d' b block) = freeBlocks sb d' := by
  obtain ⟨hbooked, hgrows, -, hne, rfl⟩ := h.bmap_spec hi hle hbn hok
  have hself : update inodes i ip' i = ip' := update_self ..
  have hrange := hbooked.mapped.range_slot ((hgrows.live i).mpr hi) (hself.symm ▸ hne)
  rw [hself] at hrange
  exact freeBlocks_update_of_ge h.laid hrange.1 block

/-- The loop of `writei` fills the slots up to the end of what is written. -/
theorem Booked.spends_writeLoop {fuel off : ℕ} (src : ℕ → Byte) (hfuel : n ≤ fuel)
    (h : Booked sb d inodes (extents len)) (hshort : ∀ j, Live sb inodes j → len j ≤ maxFile)
    (hi : Live sb inodes i) (hoff : off ≤ bSize * len i) (hend : off + n ≤ maxFile * bSize) :
    Spends sb d (slotsFor (max (len i) (blocksFor (off + n))) - slotsFor (len i))
      (writeLoop sb fuel d (inodes i) src off n) Prod.fst := by
  induction fuel generalizing d inodes len src off n with
  | zero =>
    have hn : n = 0 := Nat.le_zero.mp hfuel
    rw [hn, Nat.add_zero, Nat.max_eq_left (blocksFor_le hoff), Nat.sub_self]
    rfl
  | succ fuel ih =>
    rw [writeLoop]
    by_cases hn : n = 0
    · rw [if_pos hn, hn, Nat.add_zero, Nat.max_eq_left (blocksFor_le hoff), Nat.sub_self]
      rfl
    · rw [if_neg hn]
      have hle := piece_le off n
      have hpos : 0 < piece off n := piece_pos hn
      have hbn : off / bSize < maxFile := by
        simp only [bSize, maxFile] at *
        omega
      have hlast : off / bSize ≤ len i := by
        simp only [bSize] at *
        omega
      have hcost : slotsFor (max (len i) (blocksFor (off + n))) - slotsFor (len i) =
          (slotsFor (max (len i) (off / bSize + 1)) - slotsFor (len i)) +
            (slotsFor (max (max (len i) (off / bSize + 1)) (blocksFor (off + n))) -
              slotsFor (max (len i) (off / bSize + 1))) := by
        have hpiece : off / bSize + 1 ≤ blocksFor (off + n) := by
          rw [← blocksFor_piece hn]
          exact Nat.div_le_div_right (by omega)
        have hfirst : slotsFor (len i) ≤ slotsFor (max (len i) (off / bSize + 1)) :=
          slotsFor_mono (le_max_left _ _)
        have hthen : slotsFor (max (len i) (off / bSize + 1)) ≤
            slotsFor (max (len i) (blocksFor (off + n))) :=
          slotsFor_mono (max_le_max le_rfl hpiece)
        rw [Nat.max_assoc, Nat.max_eq_right hpiece]
        omega
      rw [hcost]
      apply (h.spends_bmap hi hlast hbn).bind
      rintro ⟨d₁, ip₁, b⟩ hok
      have hover : Overlaid sb d inodes len i off (piece off n) src _ ip₁ :=
        .of_piece h hshort hi hoff hend hn hok
      have hself : update inodes i ip₁ i = ip₁ := update_self ..
      have hoff' : off + piece off n ≤
          bSize * update len i (max (len i) (blocksFor (off + piece off n))) i := by
        rw [update_self]
        exact (le_blocksFor _).trans (Nat.mul_le_mul_left _ (le_max_right _ _))
      have hrest := ih (n := n - piece off n) (fun k ↦ src (piece off n + k)) (by omega) hover.booked
        (hover.short hshort (by omega)) ((hover.live i).mpr hi) hoff' (by omega)
      rw [hself, update_self, Nat.add_assoc, Nat.add_sub_cancel' hle,
        blocksFor_piece hn] at hrest
      exact Spends.of_eq (h.freeBlocks_write hi hlast hbn hok) hrest

end Xv6Mmap.Fs
