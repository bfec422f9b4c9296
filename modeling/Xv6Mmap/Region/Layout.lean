import Xv6Mmap.Library.Intervals
import Xv6Mmap.Region.Table

/-!
# The live regions of a table

The first `total_mmaps` entries of a table are its live regions.  A table is well formed when they
are page aligned, lie between `MMAPBASE` and `KERNBASE`, and are laid out in increasing order with
disjoint page ranges.  The reference count and the stored size of an entry are bookkeeping that no
move of an entry carries along; what is left of an entry without them is its `Region`.
-/

namespace Xv6Mmap

open Library.Intervals List

/-- The least page boundary that is not below `n`. -/
def pageCeil (n : ℕ) : ℕ := (n + 4095) / 4096 * 4096

theorem toNat_pgRoundUp_of_le {a : Word} (h : a.toNat ≤ 0xFFFFF000) :
    (pgRoundUp a).toNat = pageCeil a.toNat := by
  rw [toNat_pgRoundUp, pageCeil]
  omega

theorem pageCeil_mod (n : ℕ) : pageCeil n % 4096 = 0 := by
  rw [pageCeil]
  omega

theorem le_pageCeil (n : ℕ) : n ≤ pageCeil n := by
  rw [pageCeil]
  omega

/-- A page boundary that is not below `n` is not below its page ceiling either. -/
theorem pageCeil_le {n bound : ℕ} (h : n ≤ bound) (haligned : bound % 4096 = 0) :
    pageCeil n ≤ bound := by
  rw [pageCeil]
  omega

theorem pgRoundUp_mod (a : Word) : (pgRoundUp a).toNat % 4096 = 0 := by
  rw [toNat_pgRoundUp]
  omega

theorem pgRoundUp_eq_self {a : Word} (h : a.toNat % 4096 = 0) : pgRoundUp a = a := by
  apply BitVec.eq_of_toNat_eq
  rw [toNat_pgRoundUp]
  omega

/-- An entry of the table without its reference count and stored size. -/
structure Region where
  virtAddr : Word
  size : Word
  flags : Word
  protection : Word
  f : Word
  offset : Word
  deriving DecidableEq

def MmapRegion.region (mr : MmapRegion) : Region where
  virtAddr := mr.virtAddr
  size := mr.size
  flags := mr.flags
  protection := mr.protection
  f := mr.f
  offset := mr.offset

@[simp]
theorem MmapRegion.region_copyMmapStruct (mr1 mr2 : MmapRegion) :
    (mr1.copyMmapStruct mr2).region = mr2.region := rfl

namespace Region

def lo (r : Region) : ℕ := r.virtAddr.toNat

/-- The end of the last page of the region. -/
def hi (r : Region) : ℕ := pageCeil (r.virtAddr.toNat + r.size.toNat)

/-- Page aligned and inside the part of the address space kept for mappings. -/
structure Within (r : Region) : Prop where
  aligned : r.lo % 4096 = 0
  base_le : mmapBase.toNat ≤ r.lo
  lo_lt : r.lo < kernBase.toNat
  hi_le : r.hi ≤ kernBase.toNat

theorem end_le_hi (r : Region) : r.virtAddr.toNat + r.size.toNat ≤ r.hi := le_pageCeil _

theorem lo_le_hi (r : Region) : r.lo ≤ r.hi := (Nat.le_add_right _ _).trans (end_le_hi r)

namespace Within

variable {r : Region}

theorem toNat_end (h : r.Within) :
    (r.virtAddr + r.size).toNat = r.virtAddr.toNat + r.size.toNat := by
  have hend := end_le_hi r
  have hle : r.hi ≤ 0x80000000 := h.hi_le
  rw [BitVec.toNat_add, Nat.mod_eq_of_lt (by omega)]

/-- The code's `PGROUNDUP(virt_addr + size)` is the end of the last page. -/
theorem toNat_pgRoundUp_end (h : r.Within) :
    (pgRoundUp (r.virtAddr + r.size)).toNat = r.hi := by
  have hend := end_le_hi r
  have hle : r.hi ≤ 0x80000000 := h.hi_le
  rw [toNat_pgRoundUp_of_le (by rw [h.toNat_end]; omega), h.toNat_end, hi]

theorem virtAddr_ne_zero (h : r.Within) : r.virtAddr ≠ 0 := by
  intro hzero
  have hbase := h.base_le
  rw [lo, hzero] at hbase
  exact absurd hbase (by decide)

theorem pgRoundUp_virtAddr (h : r.Within) : pgRoundUp r.virtAddr = r.virtAddr :=
  pgRoundUp_eq_self h.aligned

end Within

/-- A region that is not empty and ends below `KERNBASE`. -/
@[mk_iff]
structure Placed (r : Region) : Prop where
  aligned : r.lo % 4096 = 0
  positive : 0 < r.size.toNat
  base_le : mmapBase.toNat ≤ r.lo
  hi_lt : r.hi < kernBase.toNat

instance : DecidablePred Placed := fun r ↦ decidable_of_iff _ (placed_iff r).symm

namespace Placed

variable {r : Region}

theorem lo_lt_hi (h : r.Placed) : r.lo < r.hi :=
  calc
    r.lo < r.virtAddr.toNat + r.size.toNat := Nat.lt_add_of_pos_right h.positive
    _ ≤ r.hi := end_le_hi r

theorem hi_mod (r : Region) : r.hi % 4096 = 0 := pageCeil_mod _

theorem hi_le (h : r.Placed) : r.hi ≤ 0x7FFFF000 := by
  have hlt : r.hi < 0x80000000 := h.hi_lt
  have hmod := hi_mod r
  omega

theorem within (h : r.Placed) : r.Within :=
  ⟨h.aligned, h.base_le, h.lo_lt_hi.trans h.hi_lt, h.hi_lt.le⟩

theorem size_ne_zero (h : r.Placed) : r.size ≠ 0 := by grind [h.positive]

theorem size_le_pgRoundUp (h : r.Placed) : r.size ≤ pgRoundUp r.size := by
  have hend := end_le_hi r
  have hle := h.hi_le
  rw [BitVec.le_def, toNat_pgRoundUp_of_le (by omega)]
  exact le_pageCeil _

/-- A placed region's size is positive as the signed number the code takes it for. -/
theorem size_toInt_pos (h : r.Placed) : 0 < r.size.toInt := by
  grind [end_le_hi, h.hi_le, h.positive]

end Placed

end Region

namespace RegionTable

@[simp]
theorem set_self (t : RegionTable) (i : ℤ) (entry : MmapRegion) : t.set i entry i = entry := by
  simp [set]

theorem set_of_ne (t : RegionTable) {i j : ℤ} (entry : MmapRegion) (h : j ≠ i) :
    t.set i entry j = t j := by
  simp [set, h]

/-- The regions of the first `n` entries. -/
def firstRegions (t : RegionTable) (n : ℕ) : List Region :=
  (List.range n).map fun i : ℕ ↦ (t i).region

def live (t : RegionTable) : List Region := t.firstRegions t.total.toNat

@[simp]
theorem length_firstRegions (t : RegionTable) (n : ℕ) : (t.firstRegions n).length = n := by
  simp [firstRegions]

@[simp]
theorem getElem_firstRegions (t : RegionTable) (n i : ℕ) (h : i < (t.firstRegions n).length) :
    (t.firstRegions n)[i] = (t i).region := by
  simp [firstRegions]

variable {t t' : RegionTable}

theorem firstRegions_congr {n : ℕ} (h : ∀ i : ℕ, i < n → (t' i).region = (t i).region) :
    t'.firstRegions n = t.firstRegions n := by
  apply map_congr_left
  intro i hi
  exact h i (mem_range.mp hi)

/-- The live entries are in order between `MMAPBASE` and `KERNBASE`. -/
structure Spaced (t : RegionTable) : Prop where
  total_nonneg : 0 ≤ t.total
  within : ∀ i < t.total.toNat, (t (i : ℕ)).region.Within
  hi_le_lo : ∀ i j : ℕ, i < j → j < t.total.toNat → (t i).region.hi ≤ (t j).region.lo

/-- The live regions of a table, in place and in order. -/
structure WellFormed (t : RegionTable) : Prop where
  total_nonneg : 0 ≤ t.total
  total_le : t.total ≤ 30
  placed : ∀ r ∈ t.live, r.Placed
  laidOut : LaidOut Region.lo Region.hi t.live

namespace WellFormed

variable {t : RegionTable} {i : ℕ}

section

variable (h : t.WellFormed)
include h

theorem natCast_total : (t.total.toNat : ℤ) = t.total :=
  Int.toNat_of_nonneg h.total_nonneg

theorem placed_at (hi : i < t.total.toNat) : (t i).region.Placed := by
  apply h.placed
  exact mem_map.mpr ⟨i, mem_range.mpr hi, rfl⟩

theorem hi_le_lo {j : ℕ} (hij : i < j) (hj : j < t.total.toNat) :
    (t i).region.hi ≤ (t j).region.lo := by
  have hordered := pairwise_iff_getElem.mp h.laidOut.ordered i j
    (by rw [live, length_firstRegions]; omega) (by rw [live, length_firstRegions]; omega) hij
  simp only [live, getElem_firstRegions] at hordered
  exact hordered

theorem spaced : t.Spaced :=
  ⟨h.total_nonneg, fun _ hi ↦ (h.placed_at hi).within, fun _ _ hij hj ↦ h.hi_le_lo hij hj⟩

theorem lo_lt_lo {j : ℕ} (hij : i < j) (hj : j < t.total.toNat) :
    (t i).region.lo < (t j).region.lo :=
  (h.placed_at (hij.trans hj)).lo_lt_hi.trans_le (h.hi_le_lo hij hj)

theorem virtAddr_injective {j : ℕ} (hi : i < t.total.toNat)
    (hj : j < t.total.toNat) (hequal : (t i).virtAddr = (t j).virtAddr) : i = j := by
  have hlo : (t i).region.lo = (t j).region.lo := congrArg BitVec.toNat hequal
  rcases lt_trichotomy i j with hlt | heq | hgt
  · exact absurd (h.lo_lt_lo hlt hj) (by omega)
  · exact heq
  · exact absurd (h.lo_lt_lo hgt hi) (by omega)

end

end WellFormed

theorem wellFormed_iff (t : RegionTable) :
    t.WellFormed ↔ 0 ≤ t.total ∧ t.total ≤ 30 ∧ (∀ r ∈ t.live, r.Placed) ∧
      t.live.Pairwise fun a b ↦ a.hi ≤ b.lo :=
  ⟨fun h ↦ ⟨h.total_nonneg, h.total_le, h.placed, h.laidOut.ordered⟩,
    fun ⟨hnonneg, hle, hplaced, hordered⟩ ↦
      ⟨hnonneg, hle, hplaced, fun r hr ↦ (hplaced r hr).lo_lt_hi, hordered⟩⟩

instance : DecidablePred WellFormed := fun t ↦ decidable_of_iff _ (wellFormed_iff t).symm

/-- Tables with the same regions have the same live ones. -/
theorem live_congr (h : ∀ i : ℕ, (t' i).region = (t i).region) :
    t'.total = t.total ∧ t'.live = t.live := by
  have htotal : t'.total = t.total := congrArg (fun r : Region ↦ r.virtAddr.toInt) (h 30)
  refine ⟨htotal, ?_⟩
  rw [live, live, htotal]
  exact firstRegions_congr fun i _ ↦ h i

theorem wellFormed_congr (h : ∀ i : ℕ, (t' i).region = (t i).region)
    (hwell : t.WellFormed) : t'.WellFormed ∧ t'.live = t.live := by
  obtain ⟨htotal, hlive⟩ := live_congr h
  exact ⟨⟨htotal ▸ hwell.total_nonneg, htotal ▸ hwell.total_le, hlive ▸ hwell.placed,
    hlive ▸ hwell.laidOut⟩, hlive⟩

end RegionTable

end Xv6Mmap
