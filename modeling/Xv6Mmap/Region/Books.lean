import Xv6Mmap.Region.Remove

/-!
# The bookkeeping of the regions

The stored size and the reference count of an entry are its books.  `copy_mmap_struct` does not copy
them, so the books stay with the slots while the regions move: `my_mmap` changes no slot's books, and
`my_munmap` only clears the stored size of the slot it empties.  A region that moves comes into the
books of its new slot.
-/

namespace Xv6Mmap.RegionTable

open List

/-- The stored size and the reference count of a slot. -/
def slotBooks (t : RegionTable) (i : ℤ) : Word × Word := ((t i).storedSize, (t i).refCount)

/-- What is recorded for a live region. -/
def books (t : RegionTable) (r : Region) : Option (Word × Word) :=
  ((List.range t.total.toNat).find? fun i : ℕ ↦ (t i).region == r).map fun i : ℕ ↦ t.slotBooks i

variable {t t' : RegionTable} {i k : ℕ} {r : Region} {size : Word}

theorem books_region (hwell : t.WellFormed) (hi : i < t.total.toNat) :
    t.books (t i).region = some (t.slotBooks i) := by
  have hfound : ((List.range t.total.toNat).find? fun j : ℕ ↦ (t j).region == (t i).region) =
      some i := by
    rw [List.find?_range_eq_some]
    refine ⟨beq_self_eq_true _, mem_range.mpr hi, ?_⟩
    intro j hj
    have hne : (t j).region ≠ (t i).region := by
      intro hequal
      have hindex := hwell.virtAddr_injective (hj.trans hi) hi (congrArg Region.virtAddr hequal)
      omega
    rw [beq_eq_false_iff_ne.mpr hne]
    rfl
  rw [books, hfound, Option.map_some]

theorem mem_live : r ∈ t.live ↔ ∃ i : ℕ, i < t.total.toNat ∧ (t i).region = r := by
  simp only [live, firstRegions, mem_map, mem_range]

/-! ## The books of the slots -/

section Slots

variable (t)

theorem slotBooks_set {j : ℤ} {entry : MmapRegion} (hstored : entry.storedSize = (t j).storedSize)
    (href : entry.refCount = (t j).refCount) (i : ℤ) : (t.set j entry).slotBooks i = t.slotBooks i := by
  by_cases h : i = j
  · rw [h, slotBooks, set_self, hstored, href, slotBooks]
  · rw [slotBooks, set_of_ne t entry h, slotBooks]

theorem slotBooks_copyEntry (dst src i : ℤ) :
    (t.copyEntry dst src).slotBooks i = t.slotBooks i := by
  apply slotBooks_set <;> rfl

theorem slotBooks_setTotal (n : Word) (i : ℤ) : (t.setTotal n).slotBooks i = t.slotBooks i := by
  apply slotBooks_set <;> rfl

theorem slotBooks_shiftRight (j : ℤ) (n : ℕ) (i : ℤ) :
    (t.shiftRight j n).slotBooks i = t.slotBooks i := by
  induction n generalizing t j with
  | zero => rfl
  | succ n ih => rw [shiftRight, ih, slotBooks_copyEntry]

theorem slotBooks_shiftLeft (j n : ℕ) (i : ℤ) : (t.shiftLeft j n).slotBooks i = t.slotBooks i := by
  induction n generalizing t j with
  | zero => rfl
  | succ n ih =>
    rw [shiftLeft]
    split
    · rfl
    · rw [ih, slotBooks_copyEntry]

theorem slotBooks_setupMmapArr (size : Word) (j : ℤ) (addr : Word) (i : ℤ) :
    (t.setupMmapArr size j addr).1.slotBooks i = t.slotBooks i := by
  unfold setupMmapArr
  dsimp only
  split
  · exact slotBooks_shiftRight t _ _ i
  · rw [← slotBooks_shiftRight t t.total (t.total - (j + 1)).toNat i]
    apply slotBooks_set <;> rfl

theorem slotBooks_checkGaps (addr size : Word) (j n : ℕ) (i : ℤ) :
    (t.checkGaps addr size j n).1.slotBooks i = t.slotBooks i := by
  induction n generalizing j with
  | zero => rfl
  | succ n ih =>
    rw [checkGaps]
    split
    · rfl
    · dsimp only
      split
      · exact slotBooks_setupMmapArr t _ _ _ i
      · exact ih (j + 1)

theorem slotBooks_checkMmapPossible (addr size : Word) (i : ℤ) :
    (t.checkMmapPossible addr size).1.slotBooks i = t.slotBooks i := by
  unfold checkMmapPossible
  dsimp only
  split
  · exact slotBooks_setupMmapArr t _ _ _ i
  · exact slotBooks_checkGaps t _ _ _ _ i

theorem slotBooks_findMmapAddr (size : Word) (i : ℤ) :
    (t.findMmapAddr size).1.slotBooks i = t.slotBooks i := by
  unfold findMmapAddr
  split
  · split
    · rfl
    · apply slotBooks_set <;> rfl
  · grind [slotBooks_setupMmapArr]

theorem slotBooks_chooseSlot (a : MmapArgs) (i : ℤ) :
    (t.chooseSlot a).1.slotBooks i = t.slotBooks i := by
  have hchecked := slotBooks_checkMmapPossible t a.addr a.size i
  have hfound := slotBooks_findMmapAddr t a.size i
  unfold chooseSlot
  split
  · grind
  · grind [slotBooks_findMmapAddr]

/-- **`my_mmap` changes the books of no slot.** -/
theorem slotBooks_myMmap (a : MmapArgs) (i : ℤ) : (t.myMmap a).1.slotBooks i = t.slotBooks i := by
  have hchosen := slotBooks_chooseSlot t a i
  unfold myMmap
  split
  · rfl
  · grind [fillEntry, slotBooks_setTotal, slotBooks_set]

/-- **`my_munmap` clears the stored size of the slot that it empties.** -/
theorem slotBooks_dropEntry (i : ℕ) (size : Word) (j : ℤ) :
    (t.dropEntry i size).slotBooks j =
      if (t i).size ≤ size ∧ j = i then (0, (t i).refCount) else t.slotBooks j := by
  unfold dropEntry
  split
  · rename_i hle
    dsimp only
    rw [slotBooks_setTotal, slotBooks_shiftLeft]
    by_cases hj : j = i
    · rw [if_pos ⟨hle, hj⟩, hj, slotBooks, set_self]
      rfl
    · rw [if_neg fun h ↦ hj h.2, slotBooks, set_of_ne t _ hj, slotBooks]
  · rename_i hlt
    rw [if_neg fun h ↦ hlt h.1]
    apply slotBooks_set <;> rfl

end Slots

/-! ## The books of the regions -/

section Insert

variable (hinserted : Inserted t t' k r) (hwell : t.WellFormed) (hwell' : t'.WellFormed)
  (hroom : t.total < 30) (hk : k ≤ t.total.toNat) (hslots : ∀ i, t'.slotBooks i = t.slotBooks i)

include hinserted hwell hwell' hroom hk hslots

/-- Where the books of a region come from when another one is inserted at `k`. -/
theorem books_inserted :
    (∀ i < k, t'.books (t i).region = some (t.slotBooks i)) ∧
      (∀ i : ℕ, k ≤ i → i < t.total.toNat →
        t'.books (t i).region = some (t.slotBooks (i + 1 : ℕ))) ∧
      t'.books r = some (t.slotBooks k) := by
  have htotal : t'.total.toNat = t.total.toNat + 1 := by
    have hnonneg := hwell.total_nonneg
    rw [hinserted.total_eq hnonneg hroom]
    omega
  refine ⟨fun i hi ↦ ?_, fun i hi hlive ↦ ?_, ?_⟩
  · rw [← hinserted.below i hi, books_region hwell' (by omega), hslots]
  · rw [← hinserted.moved i hi hlive, books_region hwell' (by omega), hslots]
  · rw [← hinserted.region_eq, books_region hwell' (by omega), hslots]

/-- **An insertion keeps all books, and opens new ones for the new region, exactly if the slots from
the new one up to the first free one have blank books.** -/
theorem books_inserted_iff :
    ((∀ q ∈ t.live, t'.books q = t.books q) ∧ t'.books r = some (0, 0)) ↔
      ∀ i : ℕ, k ≤ i → i ≤ t.total.toNat → t.slotBooks i = (0, 0) := by
  obtain ⟨hbelow, hmoved, hnew⟩ := books_inserted hinserted hwell hwell' hroom hk hslots
  constructor
  · rintro ⟨hkept, hopened⟩ i hi
    -- the new region fixes the books of slot `k`, and each moved one those of the next slot
    induction i, hi using Nat.le_induction with
    | base =>
      intro _
      rw [hnew] at hopened
      exact Option.some.inj hopened
    | succ i hi ih =>
      intro hle
      have hsame := hkept _ (mem_live.mpr ⟨i, by omega, rfl⟩)
      rw [hmoved i hi (by omega), books_region hwell (by omega)] at hsame
      rw [Option.some.inj hsame, ih (by omega)]
  · intro hblank
    refine ⟨fun q hq ↦ ?_, by rw [hnew, hblank k le_rfl hk]⟩
    obtain ⟨i, hi, rfl⟩ := mem_live.mp hq
    rw [books_region hwell hi]
    by_cases hik : i < k
    · exact hbelow i hik
    · rw [hmoved i (by omega) hi, hblank i (by omega) (by omega), hblank (i + 1) (by omega) (by omega)]

end Insert

section

variable (hwell : t.WellFormed) (hi : i < t.total.toNat) (hfull : (t i).size ≤ size)
  (hwell' : (t.dropEntry i size).WellFormed)
include hwell hi hfull hwell'

/-- Where the books of the other regions come from when region `i` is taken out. -/
theorem books_dropEntry {j : ℕ} (hj : j < t.total.toNat) :
    (j < i → (t.dropEntry i size).books (t j).region = some (t.slotBooks j)) ∧
      (i < j → (t.dropEntry i size).books (t j).region =
        some (if j = i + 1 then (0, (t i).refCount) else t.slotBooks (j - 1 : ℕ))) := by
  have htotal : (t.dropEntry i size).total.toNat = t.total.toNat - 1 := by
    rw [(dropEntry_live_of_le hwell hi hfull).1]
    omega
  constructor
  · grind [region_dropEntry, books_region, slotBooks_dropEntry]
  · grind [region_dropEntry, books_region, slotBooks_dropEntry]

/-- **A removal keeps the books of the other regions exactly if all regions above have nothing stored
and the reference count of the one that goes.** -/
theorem books_dropEntry_iff :
    (∀ q ∈ t.live, q.virtAddr ≠ (t i).virtAddr → (t.dropEntry i size).books q = t.books q) ↔
      ∀ j : ℕ, i < j → j < t.total.toNat → t.slotBooks j = (0, (t i).refCount) := by
  constructor
  · intro hkept j hij
    have hother {j : ℕ} (hj : j < t.total.toNat) (hne : j ≠ i) :
        (t.dropEntry i size).books (t j).region = some (t.slotBooks j) := by
      rw [← books_region hwell hj]
      apply hkept _ (mem_live.mpr ⟨j, hj, rfl⟩)
      intro hequal
      exact hne (hwell.virtAddr_injective hj hi hequal)
    induction j, hij using Nat.le_induction with
    | base =>
      intro hj
      have hsame := (books_dropEntry hwell hi hfull hwell' hj).2 (Nat.lt_succ_self i)
      rw [hother hj (by omega), if_pos rfl] at hsame
      exact Option.some.inj hsame
    | succ j hij ih =>
      intro hj
      have hsame := (books_dropEntry hwell hi hfull hwell' hj).2 (by omega)
      rw [hother hj (by omega), if_neg (by omega), Nat.add_sub_cancel, ih (by omega)] at hsame
      exact Option.some.inj hsame
  · intro hbooks q hq hne
    obtain ⟨j, hj, rfl⟩ := mem_live.mp hq
    have hji : j ≠ i := by
      rintro rfl
      exact hne rfl
    obtain ⟨hbelow, habove⟩ := books_dropEntry hwell hi hfull hwell' hj
    rw [books_region hwell hj]
    rcases Nat.lt_or_gt_of_ne hji with hlt | hgt
    · exact hbelow hlt
    · grind

end

/-- Cutting pages off a region keeps the books of the others. -/
theorem books_dropEntry_of_not_le (hwell : t.WellFormed) (hi : i < t.total.toNat)
    (hpart : ¬ (t i).size ≤ size) (hwell' : (t.dropEntry i size).WellFormed) {j : ℕ}
    (hj : j < t.total.toNat) (hji : j ≠ i) :
    (t.dropEntry i size).books (t j).region = t.books (t j).region := by
  have htotal : (t.dropEntry i size).total = t.total := (dropEntry_live_of_not_le hwell hi hpart).1
  have hentry : t.dropEntry i size j = t j := by
    rw [dropEntry_of_not_le hpart, set_of_ne t _ (by omega)]
  have hbooks := books_region hwell' (i := j) (by omega)
  rw [hentry] at hbooks
  rw [hbooks, books_region hwell hj, slotBooks_dropEntry, if_neg fun h ↦ hpart h.1]

end Xv6Mmap.RegionTable
