import Xv6Mmap.Region.Remove

/-!
# Where `my_mmap` puts a region

The tests that keep a region between `MMAPBASE` and `KERNBASE` are spread over `my_mmap`,
`check_mmap_possible`, `find_mmap_addr` and `setup_mmap_arr`, and they are made in 32-bit
arithmetic.  On a well-formed table three kinds of call get past them: a null address under
`MAP_FIXED`, a hint in the last page below `KERNBASE` with a size that wraps around, and a search
that takes a left-over entry behind the live ones for a live one.
-/

namespace Xv6Mmap

open MmapRegion
open BitVec (le_def lt_def toInt_eq_toNat_of_lt toNat_add)

/-- The region lies between `MMAPBASE` and `KERNBASE`, in exact arithmetic. -/
def MmapRegion.InBounds (mr : MmapRegion) : Prop :=
  mmapBase.toNat ≤ mr.virtAddr.toNat ∧ mr.virtAddr.toNat + mr.size.toNat ≤ kernBase.toNat

instance (mr : MmapRegion) : Decidable mr.InBounds := inferInstanceAs (Decidable (_ ∧ _))

namespace RegionTable

variable {t t' : RegionTable} {a : MmapArgs} {size : Word} {k : ℕ} {addr : Word}

/-- The index of the entry a successful `my_mmap` fills. -/
def slot (t : RegionTable) (a : MmapArgs) : Option ℤ :=
  if a.valid = true ∧ t.totalMmaps ≠ 30 then (t.chooseSlot a).2 else none

/-- The region recorded for the outcome of `chooseSlot`, if there is one, is in bounds. -/
def Bounded (a : MmapArgs) (outcome : RegionTable × Option ℤ) : Prop :=
  ∀ i, outcome.2 = some i → (outcome.1.fillEntry i a i).InBounds

theorem bounded_none (t : RegionTable) (a : MmapArgs) : Bounded a (t, none) := by
  intro i hi
  exact absurd hi (by simp)

theorem bounded_some {i : ℤ} : Bounded a (t, some i) ↔ (t.fillEntry i a i).InBounds := by
  constructor
  · intro h
    exact h i rfl
  · intro h j hj
    obtain rfl : i = j := Option.some_inj.mp hj
    exact h

theorem fillEntry_inBounds {i : ℤ} (hi : i ≠ 30) :
    (t.fillEntry i a i).InBounds ↔ (t i).InBounds := by
  unfold fillEntry setTotal
  dsimp only
  rw [set_of_ne _ _ hi, set_self]
  exact .rfl

theorem Placement.inBounds (h : Placement t t' k a.size) (hroom : t.total < 30) :
    (t'.fillEntry k a k).InBounds := by
  obtain ⟨addr, hfits, hopened⟩ := h
  have hend := hfits.end_lt
  have hle := le_pageCeil (addr.toNat + a.size.toNat)
  have hindex := hfits.index_le
  rw [fillEntry_inBounds (by omega), InBounds, hopened.virtAddr, hopened.size_eq]
  exact ⟨hfits.base_le, by omega⟩

theorem Chosen.bounded {outcome : RegionTable × Option ℤ} (h : Chosen t a outcome)
    (hroom : t.total < 30) : Bounded a outcome := by
  rcases h with rfl | ⟨t', k, rfl, hplacement⟩
  · exact bounded_none t a
  · exact bounded_some.mpr (hplacement.inBounds hroom)

/-! ## The search that runs off the live entries -/

/-- The address `find_mmap_addr` takes from the entry behind the live ones. -/
def leftOverEnd (t : RegionTable) : Word :=
  pgRoundUp ((t t.total).virtAddr + (t t.total).size)

/-- What keeps a region behind the left-over entry in bounds: the code refuses it, or the entry
ends at or above `MMAPBASE` and adding the size does not wrap around. -/
def LeftOverSound (t : RegionTable) (size : Word) : Prop :=
  kernBase < t.leftOverEnd + size ∨ kernBase ≤ pgRoundUp (t.leftOverEnd + size) ∨
    mmapBase ≤ t.leftOverEnd ∧ t.leftOverEnd.toNat + size.toNat < 2 ^ 32

theorem findGap_of_not_stopsAt (t : RegionTable) (size : Word) (i n : ℕ)
    (h : ∀ j, i ≤ j → j < i + n → ¬ StopsAt t size j) : t.findGap size i n = i + n := by
  induction n generalizing i with
  | zero => rfl
  | succ n ih =>
    have hhere : ¬ StopsAt t size i := h i le_rfl (by omega)
    rw [StopsAt, not_or] at hhere
    rw [findGap, if_neg hhere.1]
    dsimp only
    rw [if_neg hhere.2, ih (i + 1) fun j hij hj ↦ h j (by omega) (by omega)]
    omega

/-- A search that never stops takes the entry behind the live ones for the last live one. -/
theorem findMmapAddr_of_not_inside (hwell : t.WellFormed) (h : ¬ SearchEndsInside t size) :
    t.findMmapAddr size = if kernBase < t.leftOverEnd + size then (t, -1)
      else t.setupMmapArr size t.total t.leftOverEnd := by
  unfold SearchEndsInside at h
  push Not at h
  obtain ⟨hlive, hfront, hgaps⟩ := h
  have hgap : t.findGap size 0 t.total.toNat = t.total.toNat := by
    rw [findGap_of_not_stopsAt t size 0 t.total.toNat fun j _ hj ↦ hgaps j (by omega)]
    omega
  rw [findMmapAddr, if_neg (mt (total_eq_zero_iff t).mp hlive), if_neg (by simpa using hfront)]
  dsimp only
  rw [hgap, hwell.natCast_total]
  rfl

/-- Behind the live entries nothing is moved: the new entry is written two places behind the last
live one, at index 30, over `total_mmaps`, if 29 entries are live. -/
theorem setupMmapArr_behind (addr : Word) :
    t.setupMmapArr size t.total addr = if kernBase ≤ pgRoundUp (addr + size) then (t, -1)
      else (t.set (t.total + 1) { t (t.total + 1) with virtAddr := addr, size := size },
        t.total + 1) := by
  have hmoves : (t.total - (t.total + 1)).toNat = 0 := by omega
  rw [setupMmapArr, hmoves]
  rfl

theorem pgRoundUp_lt_kernBase {x : Word} (hlow : ¬ kernBase < x)
    (h : ¬ kernBase ≤ pgRoundUp x) : x.toNat ≤ 0x7FFFF000 := by
  have hkern : kernBase.toNat = 0x80000000 := rfl
  rw [lt_def] at hlow
  rw [le_def, toNat_pgRoundUp_of_le (by omega), pageCeil] at h
  omega

/-- The entry written behind the live ones is in bounds if the address taken from the left-over
entry is, even where its address becomes the count and is then incremented. -/
theorem behind_inBounds_iff (addr : Word) (haligned : addr.toNat % 4096 = 0)
    (hsize : a.size.toNat < 2 ^ 31) (hend : (addr + a.size).toNat ≤ 0x7FFFF000) (i : ℤ) :
    ((t.set i { t i with virtAddr := addr, size := a.size }).fillEntry i a i).InBounds ↔
      mmapBase ≤ addr ∧ addr.toNat + a.size.toNat < 2 ^ 32 := by
  have hbase : mmapBase.toNat = 0x60000000 := rfl
  have hkern : kernBase.toNat = 0x80000000 := rfl
  rw [toNat_add] at hend
  rw [le_def]
  by_cases hi : i = 30
  · subst hi
    have hone : (1 : Word).toNat = 1 := rfl
    have hnext : (addr + 1).toNat = addr.toNat + 1 := by
      rw [toNat_add, hone, Nat.mod_eq_of_lt (by omega)]
    have hentry : ((t.set 30 { t 30 with virtAddr := addr, size := a.size }).fillEntry 30 a
        30).InBounds ↔ mmapBase.toNat ≤ (addr + 1).toNat ∧
          (addr + 1).toNat + a.size.toNat ≤ kernBase.toNat := by
      simp [fillEntry, setTotal, totalMmaps, InBounds]
    rw [hentry, hnext]
    omega
  · rw [fillEntry_inBounds hi, set_self, InBounds]
    dsimp only
    omega

/-- The test of a chosen index for `-1`. -/
def tested (outcome : RegionTable × ℤ) : RegionTable × Option ℤ :=
  if outcome.2 = -1 then (outcome.1, none) else (outcome.1, some outcome.2)

theorem bounded_findMmapAddr_iff (hwell : t.WellFormed) (hsize : a.size.toNat < 2 ^ 31)
    (hroom : t.total < 30) :
    Bounded a (tested (t.findMmapAddr a.size)) ↔
      (¬ SearchEndsInside t a.size → LeftOverSound t a.size) := by
  by_cases hinside : SearchEndsInside t a.size
  · have hchosen := (places_findMmapAddr hwell.spaced hsize hinside).chosen
    exact iff_of_true (hchosen.bounded hroom) fun h ↦ absurd hinside h
  · have hnonneg := hwell.total_nonneg
    rw [findMmapAddr_of_not_inside hwell hinside, setupMmapArr_behind, LeftOverSound]
    by_cases hpast : kernBase < t.leftOverEnd + a.size
    · rw [if_pos hpast]
      exact iff_of_true (bounded_none t a) fun _ ↦ .inl hpast
    · by_cases hround : kernBase ≤ pgRoundUp (t.leftOverEnd + a.size)
      · rw [if_neg hpast, if_pos hround]
        exact iff_of_true (bounded_none t a) fun _ ↦ .inr (.inl hround)
      · have hend := pgRoundUp_lt_kernBase hpast hround
        have hbehind := behind_inBounds_iff (t := t) t.leftOverEnd (pgRoundUp_mod _) hsize hend
          (t.total + 1)
        rw [if_neg hpast, if_neg hround, tested, if_neg (show t.total + 1 ≠ -1 by omega)]
        simp only [hinside, hpast, hround, not_false_eq_true, false_or, forall_const]
        exact bounded_some.trans hbehind

/-! ## The hint that wraps around -/

/-- The last entry `check_mmap_possible` looks at ends below `KERNBASE`.  Of an empty table it looks
at the memory before the table. -/
def LastBelowKernBase (t : RegionTable) : Prop :=
  pgRoundUp ((t (t.total - 1)).virtAddr + (t (t.total - 1)).size) < kernBase

theorem lastBelowKernBase_of_live (hwell : t.WellFormed) (hlive : t.total ≠ 0) :
    LastBelowKernBase t := by
  have hnonneg := hwell.total_nonneg
  obtain ⟨i, hi⟩ : ∃ i : ℕ, t.total - 1 = i := ⟨(t.total - 1).toNat, by omega⟩
  have hplaced := hwell.placed_at (i := i) (by omega)
  rw [LastBelowKernBase, hi, lt_def]
  exact hplaced.within.toNat_pgRoundUp_end.trans_lt hplaced.hi_lt

theorem pgRoundUp_of_wraps (h : Wraps addr size) : pgRoundUp addr = kernBase := by
  obtain ⟨hlow, hhigh, _⟩ := h
  have hlimit : (0x7FFFF000 : Word).toNat = 0x7FFFF000 := rfl
  have hlimit' : (0x80000000 : Word).toNat = 0x80000000 := rfl
  rw [lt_def] at hlow hhigh
  apply BitVec.eq_of_toNat_eq
  rw [toNat_pgRoundUp_of_le (by omega), pageCeil, show kernBase.toNat = 0x80000000 from rfl]
  omega

/-- The end of such a region is rounded up to address 0. -/
theorem pgRoundUp_end_of_wraps (h : Wraps addr size) (hsize : size.toNat < 2 ^ 31) :
    pgRoundUp (kernBase + size) = 0 := by
  obtain ⟨_, _, hlarge⟩ := h
  have hlimit : (0x7FFFF000 : Word).toNat = 0x7FFFF000 := rfl
  have hkern : kernBase.toNat = 0x80000000 := rfl
  rw [lt_def] at hlarge
  apply BitVec.eq_of_toNat_eq
  rw [toNat_pgRoundUp, toNat_add, hkern, show (0 : Word).toNat = 0 from rfl]
  omega

/-- A hint that wraps around is placed at `KERNBASE`. -/
theorem not_bounded_of_wraps (hwell : t.WellFormed) (h : Wraps addr a.size)
    (hsize : a.size.toNat < 2 ^ 31) (hroom : t.total < 30) (hlast : LastBelowKernBase t) :
    ∃ t', ∃ k : ℕ, t.checkMmapPossible addr a.size = (t', (k : ℤ)) ∧
      ¬ Bounded a (t', some (k : ℤ)) := by
  have hfits : pgRoundUp (kernBase + a.size) < kernBase := by
    rw [pgRoundUp_end_of_wraps h hsize]
    decide
  obtain ⟨t', hrun, hopened⟩ :=
    setupMmapArr_opened hwell.total_nonneg (le_refl t.total.toNat) hfits
  refine ⟨t', t.total.toNat, ?_, ?_⟩
  · rw [LastBelowKernBase] at hlast
    rw [checkMmapPossible, pgRoundUp_of_wraps h, if_pos hlast, ← hrun, hwell.natCast_total]
  · have hlarge : (0x7FFFF000 : Word).toNat < a.size.toNat := h.2.2
    rw [bounded_some, fillEntry_inBounds (by omega), InBounds, hopened.virtAddr,
      hopened.size_eq]
    omega

/-- On an empty table a hint that wraps around is refused where the memory before the table reads
as an entry that ends at or above `KERNBASE`. -/
theorem checkMmapPossible_of_wraps (h : Wraps addr size) (hempty : t.total = 0)
    (hlast : ¬ LastBelowKernBase t) : t.checkMmapPossible addr size = (t, -1) := by
  rw [LastBelowKernBase] at hlast
  rw [checkMmapPossible, pgRoundUp_of_wraps h, if_neg hlast, hempty]
  rfl

theorem findMmapAddr_of_wraps (h : Wraps addr size) (hsize : size.toNat < 2 ^ 31)
    (hempty : t.total = 0) : t.findMmapAddr size = (t, -1) := by
  have hlarge : (0x7FFFF000 : Word).toNat < size.toNat := h.2.2
  have hlimit : (0x7FFFF000 : Word).toNat = 0x7FFFF000 := rfl
  have hbase : mmapBase.toNat = 0x60000000 := rfl
  have hkern : kernBase.toNat = 0x80000000 := rfl
  have hsum : (mmapBase + size).toNat = mmapBase.toNat + size.toNat := by
    rw [toNat_add, Nat.mod_eq_of_lt (by omega)]
  have hpast : kernBase ≤ pgRoundUp (mmapBase + size) := by
    rw [le_def, toNat_pgRoundUp_of_le (by omega), pageCeil]
    omega
  rw [findMmapAddr, if_pos ((total_eq_zero_iff t).mpr hempty), if_pos hpast]

end RegionTable

/-! ## The call -/

/-- `my_mmap` looks for a place at the hint. -/
def MmapArgs.HintAccepted (a : MmapArgs) : Prop :=
  a.addr.slt mmapBase = false ∧ a.roundedAddr ≤ kernBase

instance (a : MmapArgs) : Decidable a.HintAccepted := inferInstanceAs (Decidable (_ ∧ _))

/-- The calls on table `t` whose region ends up in bounds. -/
structure MmapArgs.StaysInBounds (a : MmapArgs) (t : RegionTable) : Prop where
  fixed_null : a.flags.has mapFixed = true → a.addr = 0 → (t (-1)).InBounds
  hint : a.flags.has mapFixed = false → RegionTable.Wraps a.addr a.size →
    t.total = 0 ∧ ¬ t.LastBelowKernBase
  search : a.flags.has mapFixed = false →
    a.addr = 0 ∨ a.HintAccepted ∧ (t.checkMmapPossible a.addr a.size).2 = -1 →
      ¬ t.SearchEndsInside a.size → t.LeftOverSound a.size

namespace RegionTable

variable {t t' : RegionTable} {a : MmapArgs}

theorem hintAccepted_of_wraps (h : Wraps a.addr a.size) (hsize : a.size.toNat < 2 ^ 31) :
    a.HintAccepted := by
  obtain ⟨hlow, hhigh, _⟩ := id h
  have hlimit : (0x7FFFF000 : Word).toNat = 0x7FFFF000 := rfl
  have hlimit' : (0x80000000 : Word).toNat = 0x80000000 := rfl
  rw [lt_def] at hlow hhigh
  constructor
  · rw [BitVec.slt_eq_decide, toInt_eq_toNat_of_lt (by omega),
      show mmapBase.toInt = 0x60000000 from rfl, decide_eq_false_iff_not]
    omega
  · rw [MmapArgs.roundedAddr, pgRoundUp_of_wraps h, pgRoundUp_end_of_wraps h hsize]
    decide

section

variable (hwell : t.WellFormed) (hsize : a.size.toNat < 2 ^ 31) (hroom : t.total < 30)
include hwell hsize hroom

theorem bounded_fixed_iff (hfixed : a.flags.has mapFixed = true) :
    Bounded a (t.chooseSlot a) ↔ (a.addr = 0 → (t (-1)).InBounds) := by
  rw [chooseSlot, if_pos hfixed]
  by_cases hnull : a.addr = 0
  · rw [if_pos hnull, bounded_some, fillEntry_inBounds (by decide)]
    simp only [hnull, forall_const]
  · rw [if_neg hnull]
    refine iff_of_true ?_ fun h ↦ absurd h hnull
    split
    · exact bounded_none t a
    · rename_i hrange
      simp only [Bool.or_eq_true, not_or, Bool.not_eq_true] at hrange
      have haligned : a.addr.srem pgSize = 0 := by simpa using hrange.2
      obtain ⟨hbase, hlow⟩ := toNat_of_not_slt_mmapBase hrange.1.1
      have hplaces := places_checkMmapPossible hwell.spaced hbase hlow hsize
        (not_wraps_of_aligned haligned)
      exact hplaces.chosen.bounded hroom

/-- A hint inside the bounds that does not wrap around is as good as no hint: what can go wrong is
the search that follows when it is not possible. -/
theorem bounded_hint_iff (hfree : a.flags.has mapFixed = false) (hnull : a.addr ≠ 0)
    (haccepted : a.HintAccepted) (hwraps : ¬ Wraps a.addr a.size) :
    Bounded a (t.chooseSlot a) ↔ ((t.checkMmapPossible a.addr a.size).2 = -1 →
      ¬ SearchEndsInside t a.size → LeftOverSound t a.size) := by
  obtain ⟨hbase, hlow⟩ := toNat_of_not_slt_mmapBase haccepted.1
  have hrounded : ¬ kernBase < a.roundedAddr := BitVec.not_lt.mpr haccepted.2
  rw [chooseSlot, hfree, if_neg Bool.false_ne_true, if_neg hnull, haccepted.1,
    if_neg (by simpa using hrounded)]
  rcases places_checkMmapPossible hwell.spaced hbase hlow hsize hwraps with
    hfail | ⟨t', k, hplace, hplacement⟩
  · rw [hfail]
    simp only [if_pos, forall_const]
    exact bounded_findMmapAddr_iff hwell hsize hroom
  · have hk : (k : ℤ) ≠ -1 := by omega
    rw [hplace]
    simp only [hk, if_false, false_implies, iff_true]
    exact bounded_some.mpr (hplacement.inBounds hroom)

theorem bounded_wraps_iff (hfree : a.flags.has mapFixed = false) (hwraps : Wraps a.addr a.size) :
    Bounded a (t.chooseSlot a) ↔ t.total = 0 ∧ ¬ LastBelowKernBase t := by
  have haccepted := hintAccepted_of_wraps hwraps hsize
  have hrounded : ¬ kernBase < a.roundedAddr := BitVec.not_lt.mpr haccepted.2
  have hnull : a.addr ≠ 0 := by
    intro hnull
    rw [hnull] at hwraps
    exact absurd hwraps.1 (by decide)
  rw [chooseSlot, hfree, if_neg Bool.false_ne_true, if_neg hnull, haccepted.1,
    if_neg (by simpa using hrounded)]
  by_cases hlast : LastBelowKernBase t
  · grind [not_bounded_of_wraps]
  · grind [lastBelowKernBase_of_live, checkMmapPossible_of_wraps, findMmapAddr_of_wraps,
      bounded_none]

theorem bounded_chooseSlot_iff : Bounded a (t.chooseSlot a) ↔ a.StaysInBounds t := by
  by_cases hfixed : a.flags.has mapFixed = true
  · rw [bounded_fixed_iff hwell hsize hroom hfixed]
    exact ⟨fun h ↦ ⟨fun _ ↦ h, by simp [hfixed], by simp [hfixed]⟩, fun h ↦ h.fixed_null hfixed⟩
  · have hfree : a.flags.has mapFixed = false := Bool.not_eq_true _ ▸ hfixed
    by_cases hwraps : Wraps a.addr a.size
    · rw [bounded_wraps_iff hwell hsize hroom hfree hwraps]
      refine ⟨fun h ↦ ⟨by simp [hfree], fun _ _ ↦ h, ?_⟩, fun h ↦ h.hint hfree hwraps⟩
      intro _ _ hsearch
      exact absurd (Or.inl h.1) hsearch
    · by_cases hnull : a.addr = 0
      · rw [chooseSlot, if_neg hfixed, if_pos hnull]
        have hfind := bounded_findMmapAddr_iff (a := a) hwell hsize hroom
        refine hfind.trans ⟨fun h ↦ ⟨by simp [hfree], ?_, fun _ _ ↦ h⟩, ?_⟩
        · exact fun _ h ↦ absurd h hwraps
        · exact fun h ↦ h.search hfree (.inl hnull)
      · by_cases haccepted : a.HintAccepted
        · rw [bounded_hint_iff hwell hsize hroom hfree hnull haccepted hwraps]
          refine ⟨fun h ↦ ⟨by simp [hfree], fun _ h ↦ absurd h hwraps, ?_⟩, ?_⟩
          · exact fun _ hwhen ↦ h (hwhen.resolve_left hnull).2
          · exact fun h hcheck ↦ h.search hfree (.inr ⟨haccepted, hcheck⟩)
        · have hrefused : (a.addr.slt mmapBase || decide (kernBase < a.roundedAddr)) = true := by
            by_contra hrange
            simp only [Bool.or_eq_true, not_or, Bool.not_eq_true, decide_eq_true_eq] at hrange
            exact haccepted ⟨hrange.1, BitVec.not_lt.mp (by simpa using hrange.2)⟩
          rw [chooseSlot, if_neg hfixed, if_neg hnull, if_pos hrefused]
          refine iff_of_true (bounded_none t a)
            ⟨by simp [hfree], fun _ h ↦ absurd h hwraps, fun _ hwhen ↦ ?_⟩
          exact absurd (hwhen.resolve_left hnull).1 haccepted

end

/-- **The recorded region is in bounds** exactly if the call is none of the three that get past the
tests. -/
theorem recorded_inBounds_iff (hwell : t.WellFormed) :
    (∀ i, t.slot a = some i → ((t.myMmap a).1 i).InBounds) ↔
      (a.valid = true → t.total < 30 → a.StaysInBounds t) := by
  have hfull : t.totalMmaps = 30 ↔ ¬ t.total < 30 := by
    have hle := hwell.total_le
    rw [← BitVec.toInt_inj, ← total]
    change t.total = 30 ↔ _
    omega
  unfold slot myMmap
  by_cases hvalid : a.valid = true
  · by_cases hroom : t.total < 30
    · have hnot : t.totalMmaps ≠ 30 := fun h ↦ hfull.mp h hroom
      have hiff := bounded_chooseSlot_iff hwell (MmapArgs.size_toNat_lt hvalid) hroom
      rw [if_pos ⟨hvalid, hnot⟩, if_neg (by simpa using hvalid), if_neg hnot]
      simp only [hvalid, hroom, forall_const]
      rw [← hiff, Bounded]
      rcases t.chooseSlot a with ⟨t', _ | j⟩
      · simp
      · simp
    · simp [hfull.mpr hroom, hroom]
  · simp [hvalid]

/-- A table without entries, in a process that has nothing but zeroes before it. -/
def emptyTable : RegionTable := fun _ ↦ MmapRegion.blank

theorem emptyTable_wellFormed : emptyTable.WellFormed :=
  (wellFormed_of_total_eq_zero rfl).1

/-- An anonymous private mapping of `size` bytes at the hint `addr`. -/
def anonymousAt (addr size : Word) : MmapArgs where
  addr := addr
  f := 0
  size := size
  offset := 0
  flags := mapPrivate ||| mapAnonymous
  protection := protRead
  readable := false
  writable := false

/-- A table with a page mapped at `MMAPBASE` and another one after a gap of three pages. -/
def twoPages : RegionTable :=
  ((emptyTable.myMmap (anonymousAt 0 4096)).1.myMmap (anonymousAt 0x60004000 4096)).1

/-- A page goes into the gap, and the region behind it moves up. -/
theorem recorded_inBounds_gap :
    twoPages.slot (anonymousAt 0 4096) = some 1 ∧
      ((twoPages.myMmap (anonymousAt 0 4096)).1 1).InBounds := by
  have hslot : twoPages.slot (anonymousAt 0 4096) = some 1 := by decide
  refine ⟨hslot, (recorded_inBounds_iff (by decide)).mpr ?_ 1 hslot⟩
  intro _ _
  refine ⟨fun h ↦ absurd h (by decide), fun _ h ↦ absurd h (by decide), ?_⟩
  intro _ _ hsearch
  exact absurd (Or.inr (Or.inr ⟨0, by decide, by decide⟩)) hsearch

/-- A hint in the last page below `KERNBASE`, with a size close to `2 ^ 31`, passes every test and
is recorded at `KERNBASE`. -/
theorem recorded_at_kernBase :
    emptyTable.WellFormed ∧ emptyTable.slot (anonymousAt 0x7FFFF001 0x7FFFF001) = some 0 ∧
      ((emptyTable.myMmap (anonymousAt 0x7FFFF001 0x7FFFF001)).1 0).virtAddr = kernBase ∧
      ¬ ((emptyTable.myMmap (anonymousAt 0x7FFFF001 0x7FFFF001)).1 0).InBounds :=
  ⟨emptyTable_wellFormed, by decide, by decide, by decide⟩

end RegionTable

end Xv6Mmap
