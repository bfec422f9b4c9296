import Xv6Mmap.Region.Bounds

/-!
# Where a region is placed

`find_mmap_addr` takes the lowest gap that is larger than the size, else the space behind the last
region.  `check_mmap_possible`, asked for an address, wants the region to stay clear of its
neighbours: it refuses free ranges below the first region, ranges that touch the region before them
and ranges that fill a gap to its end.
-/

namespace Xv6Mmap.RegionTable

open BitVec

variable {t t' : RegionTable} {size addr : Word} {k : ℕ}

/-- The pages from `addr` on are not those of a live entry. -/
def Free (t : RegionTable) (addr size : Word) : Prop :=
  ∀ i < t.total.toNat, (t (i : ℕ)).region.hi ≤ addr.toNat ∨
    pageCeil (addr.toNat + size.toNat) ≤ (t (i : ℕ)).region.lo

/-- A region that keeps clear of its two neighbours keeps clear of every live entry. -/
theorem Spaced.free (hspaced : t.Spaced) (hk : k ≤ t.total.toNat)
    (hprevious : ∀ i, i + 1 = k → (t i).region.hi ≤ addr.toNat)
    (hnext : k < t.total.toNat → pageCeil (addr.toNat + size.toNat) ≤ (t k).region.lo) :
    Free t addr size := by
  intro i hi
  rcases Nat.lt_or_ge i k with hik | hki
  · left
    have hlast := hprevious (k - 1) (by omega)
    rcases Nat.lt_or_eq_of_le (show i ≤ k - 1 by omega) with hlt | rfl
    · exact ((hspaced.hi_le_lo i (k - 1) hlt (by omega)).trans (Region.lo_le_hi _)).trans hlast
    · exact hlast
  · right
    rcases Nat.lt_or_eq_of_le hki with hlt | rfl
    · exact ((hnext (by omega)).trans (Region.lo_le_hi _)).trans (hspaced.hi_le_lo k i hlt hi)
    · exact hnext hi

/-! ## First fit -/

/-- The live entries are in order between `MMAPBASE` and `KERNBASE`, there is room for another one,
and the other entries are zero. -/
structure Arranged (t : RegionTable) : Prop extends t.Spaced where
  total_le : t.total ≤ 29
  blank : ∀ i : ℕ, t.total ≤ i → i < 30 → t i = MmapRegion.blank

/-- The entry behind the last live one is zero, so the search stops there at the latest. -/
theorem Arranged.searchEndsInside (h : t.Arranged) (size : Word) : SearchEndsInside t size := by
  have hnonneg := h.total_nonneg
  have hlast := h.total_le
  by_cases hempty : t.total = 0
  · exact .inl hempty
  · refine .inr (.inr ⟨t.total.toNat - 1, by omega, .inl ?_⟩)
    rw [show ((t.total.toNat - 1 : ℕ) : ℤ) + 1 = (t.total.toNat : ℕ) by omega,
      h.blank _ (by omega) (by omega)]
    rfl

/-- A region of `size` bytes has been inserted at index `k`: page aligned, below `KERNBASE`, on no
page of another region, and the others are the same and in the same order. -/
def SoundInsertion (t : RegionTable) (size : Word) (k : ℕ) (addr : Word)
    (outcome : RegionTable × ℤ) : Prop :=
  ∃ t', outcome = (t', (k : ℤ)) ∧ Free t addr size ∧ Fits t k addr size ∧ Opened t t' k addr size

theorem Fits.soundInsertion {outcome : RegionTable × ℤ} (hfits : Fits t k addr size)
    (hspaced : t.Spaced) (hopened : Opened t t' k addr size) (hrun : outcome = (t', (k : ℤ))) :
    SoundInsertion t size k addr outcome :=
  ⟨t', hrun, hspaced.free hfits.index_le hfits.after_previous hfits.before_next, hfits, hopened⟩

/-- **Placement is sound and first fit.**  `find_mmap_addr` takes the lowest gap that is larger than
the size, else the space behind the last region, and fails only if the region would not stay below
`KERNBASE` there.  `check_mmap_possible` leaves the table alone or inserts soundly as well. -/
theorem findMmapAddr_firstFit (t : RegionTable) (size : Word) (h : t.Arranged)
    (hsize : 0 < size.toInt) :
    (∃ k ≤ t.total.toNat, (∀ j < k, ¬ t.HasGap size j) ∧ (k < t.total.toNat → t.HasGap size k) ∧
      ∃ addr : Word, addr.toNat = t.gapStart k ∧
        if pageCeil (addr.toNat + size.toNat) < kernBase.toNat then
          SoundInsertion t size k addr (t.findMmapAddr size)
        else k = t.total.toNat ∧ t.findMmapAddr size = (t, -1)) ∧
    ∀ addr : Word, 1 ≤ t.total → mmapBase.toNat ≤ addr.toNat → addr.toNat + size.toNat < 2 ^ 31 →
      t.checkMmapPossible addr size = (t, -1) ∨
        ∃ k addr', SoundInsertion t size k addr' (t.checkMmapPossible addr size) := by
  have hspaced := h.toSpaced
  have hlow := toNat_lt_of_toInt_pos hsize
  constructor
  · obtain ⟨k, hk, hnone, hgap, addr, haddr, htakes⟩ :=
      findMmapAddr_takes hspaced hlow (h.searchEndsInside size)
    refine ⟨k, hk, hnone, hgap, addr, haddr, ?_⟩
    unfold Takes at htakes
    split
    · rename_i hend
      rw [if_pos hend] at htakes
      obtain ⟨t', hrun, hfits, hopened⟩ := htakes
      exact hfits.soundInsertion hspaced hopened hrun
    · rename_i hend
      rwa [if_neg hend] at htakes
  · intro addr _ hbase hsum
    have hwraps : ¬ Wraps addr size := by
      rintro ⟨_, _, hpast⟩
      rw [lt_def, show (0x7FFFF000 : Word).toNat = 0x7FFFF000 from rfl] at hpast
      rw [show mmapBase.toNat = 0x60000000 from rfl] at hbase
      omega
    rcases places_checkMmapPossible hspaced hbase (by omega) hlow hwraps with
      hfail | ⟨t', k, hplace, addr', hfits, hopened⟩
    · exact Or.inl hfail
    · exact Or.inr ⟨k, addr', hfits.soundInsertion hspaced hopened hplace⟩

theorem twoPages_arranged : twoPages.Arranged where
  toSpaced := WellFormed.spaced (by decide)
  total_le := by decide
  blank i hlive hi := by
    have hbehind : ∀ i < 30, 2 ≤ i → twoPages (i : ℕ) = .blank := by decide
    have htwo : twoPages.total = 2 := by decide
    exact hbehind i hi (by omega)

/-- A page goes into the gap between two regions. -/
theorem findMmapAddr_firstFit_gap :
    ∃ addr, addr.toNat = 0x60001000 ∧
      SoundInsertion twoPages 4096 1 addr (twoPages.findMmapAddr 4096) := by
  obtain ⟨⟨k, hk, hbefore, hgap, addr, haddr, htakes⟩, _⟩ :=
    findMmapAddr_firstFit twoPages 4096 twoPages_arranged (by decide)
  have hfirst : ¬ twoPages.HasGap 4096 0 := by
    rw [HasGap]
    decide
  have hsecond : twoPages.HasGap 4096 1 := ⟨by decide, by decide⟩
  obtain rfl : k = 1 := by
    rcases Nat.lt_trichotomy k 1 with hzero | hone | htwo
    · obtain rfl : k = 0 := by omega
      exact absurd (hgap (by decide)) hfirst
    · exact hone
    · exact absurd hsecond (hbefore 1 htwo)
  rw [haddr, if_pos (by decide)] at htakes
  exact ⟨addr, haddr, htakes⟩

/-! ## A requested address -/

theorem Clear.free (hspaced : t.Spaced) (h : Clear t addr size) : Free t addr size := by
  rcases h with ⟨hempty, _⟩ | ⟨i, hi, hstart, hend⟩
  · intro j hj
    omega
  · refine hspaced.free hi (fun j hj ↦ ?_) fun hlt ↦ ?_
    · rw [Nat.succ.inj hj]
      exact hstart.le
    · exact pageCeil_le (hend hlt).le (hspaced.within _ hlt).aligned

section Fixed

variable {a : MmapArgs} (hflags : a.flags = mapFixed ||| mapPrivate ||| mapAnonymous)
  (hoffset : 0 ≤ a.offset.toInt) (hsize : 0 < a.size.toInt) (haligned : a.addr.toNat % 4096 = 0)
  (hbase : mmapBase.toNat ≤ a.addr.toNat)
  (hend : pageCeil (a.addr.toNat + a.size.toNat) < kernBase.toNat)
include hflags hoffset hsize haligned hbase hend

/-- The arguments are in order, so `check_mmap_possible` decides. -/
theorem chooseSlot_fixed (t : RegionTable) :
    a.valid = true ∧ t.chooseSlot a = match t.checkMmapPossible a.addr a.size with
      | (t, i) => if i = -1 then (t, none) else (t, some i) := by
  have hkern : kernBase.toNat = 0x80000000 := rfl
  have hbase' : mmapBase.toNat = 0x60000000 := rfl
  have hle := le_pageCeil (a.addr.toNat + a.size.toNat)
  have hint : a.addr.toInt = a.addr.toNat := toInt_eq_toNat_of_lt (by omega)
  constructor
  · rw [MmapArgs.valid, hflags, sle_eq_decide, slt_eq_decide,
      decide_eq_false (show ¬ a.size.toInt ≤ (0 : Word).toInt from not_le.mpr hsize),
      decide_eq_false (show ¬ a.offset.toInt < (0 : Word).toInt from not_lt.mpr hoffset)]
    rfl
  · have hnull : a.addr ≠ 0 := by
      intro hzero
      rw [hzero] at hbase
      exact absurd hbase (by decide)
    have hlow : a.addr.slt mmapBase = false := by
      rw [slt_eq_decide, decide_eq_false_iff_not, hint, show mmapBase.toInt = 0x60000000 from rfl]
      omega
    have hhigh : ¬ kernBase < a.roundedAddr := by
      rw [MmapArgs.roundedAddr, pgRoundUp_eq_self haligned, lt_def,
        toNat_pgRoundUp_of_le (by rw [toNat_add]; omega), toNat_add,
        Nat.mod_eq_of_lt (by omega)]
      omega
    have hrem : a.addr.srem pgSize = 0 := by
      apply eq_of_toInt_eq
      rw [toInt_srem, hint, Int.tmod_eq_emod_of_nonneg (by omega)]
      change (a.addr.toNat : ℤ) % 4096 = 0
      omega
    rw [chooseSlot, if_pos (by rw [hflags]; decide), if_neg hnull, hlow, hrem]
    rw [if_neg (by simpa using hhigh)]

/-- The call succeeds at its address where that is clear, and else changes nothing. -/
theorem myMmap_fixed_cases (h : t.Arranged) :
    Clear t a.addr a.size ∧ (t.myMmap a).2 = a.addr ∨
      ¬ Clear t a.addr a.size ∧ t.myMmap a = (t, -1) := by
  have hkern : kernBase.toNat = 0x80000000 := rfl
  have hle := le_pageCeil (a.addr.toNat + a.size.toNat)
  have hnonneg := h.total_nonneg
  have htotal := h.total_le
  have hround : (pgRoundUp (a.addr + a.size)).toNat = pageCeil (a.addr.toNat + a.size.toNat) := by
    have hsum : (a.addr + a.size).toNat = a.addr.toNat + a.size.toNat := by
      rw [toNat_add, Nat.mod_eq_of_lt (by omega)]
    rw [toNat_pgRoundUp_of_le (by omega), hsum]
  have hroom : t.totalMmaps ≠ 30 := by
    intro hfull
    rw [total, hfull] at htotal
    exact absurd htotal (by decide)
  obtain ⟨hvalid, hchoose⟩ := chooseSlot_fixed hflags hoffset hsize haligned hbase hend t
  rw [myMmap, if_neg (by simp [hvalid]), if_neg hroom, hchoose]
  have hcases := checkMmapPossible_cases h.toSpaced (show (pgRoundUp a.addr).toNat + a.size.toNat < _ by
    rw [pgRoundUp_eq_self haligned]
    omega)
  rw [pgRoundUp_eq_self haligned] at hcases
  rcases hcases with ⟨hclear, k, hk, _, _, hrun⟩ | ⟨hclear, hrun⟩
  · obtain ⟨t', hsetup, hopened⟩ := setupMmapArr_opened h.total_nonneg hk
      (lt_def.mpr (hround ▸ hend))
    have hinserted := hopened.inserted (a := a) (by omega) (by omega)
    rw [hrun, hsetup]
    dsimp only
    rw [if_neg (by omega)]
    exact .inl ⟨hclear, congrArg Region.virtAddr hinserted.region_eq⟩
  · rw [hrun]
    exact .inr ⟨hclear, rfl⟩

/-- **`MAP_FIXED` and free ranges.**  The call returns its address on every free range and fails with
the table unchanged on every other one if and only if the range, where it is free, stays clear of the
live entries. -/
theorem myMmap_fixed_iff (h : t.Arranged) :
    ((Free t a.addr a.size → (t.myMmap a).2 = a.addr) ∧
        (¬ Free t a.addr a.size → t.myMmap a = (t, -1))) ↔
      (Free t a.addr a.size → Clear t a.addr a.size) := by
  have haddr : a.addr ≠ -1 := by
    intro hfull
    rw [hfull] at haligned
    exact absurd haligned (by decide)
  rcases myMmap_fixed_cases hflags hoffset hsize haligned hbase hend h with
    ⟨hclear, hrun⟩ | ⟨hclear, hrun⟩
  · exact ⟨fun _ _ ↦ hclear, fun _ ↦ ⟨fun _ ↦ hrun, fun hnot ↦ absurd (hclear.free h.toSpaced) hnot⟩⟩
  · refine ⟨fun hexact hfree ↦ ?_, fun hall ↦ ⟨fun hfree ↦ absurd (hall hfree) hclear, fun _ ↦ hrun⟩⟩
    have hreturn := hexact.1 hfree
    rw [hrun] at hreturn
    exact absurd hreturn.symm haddr

end Fixed

/-- A private anonymous mapping of one page at the fixed address `addr`. -/
def fixedAt (addr : Word) : MmapArgs :=
  { anonymousAt addr 4096 with flags := mapFixed ||| mapPrivate ||| mapAnonymous }

/-- A table with one page mapped at `MMAPBASE`. -/
def onePage : RegionTable := (emptyTable.myMmap (anonymousAt 0 4096)).1

theorem onePage_arranged : onePage.Arranged where
  toSpaced := WellFormed.spaced (by decide)
  total_le := by decide
  blank i hlive hi := by
    have hbehind : ∀ i < 30, 1 ≤ i → onePage (i : ℕ) = .blank := by decide
    have hone : onePage.total = 1 := by decide
    exact hbehind i hi (by omega)

theorem onePage_free {addr : Word} (h : 0x60001000 ≤ addr) : Free onePage addr 4096 := by
  intro i hi
  obtain rfl : i = 0 := Nat.lt_one_iff.mp hi
  exact .inl (le_def.mp h)

/-- One page further on the call succeeds. -/
theorem myMmap_fixed_apart : (onePage.myMmap (fixedAt 0x60002000)).2 = 0x60002000 := by
  have hexact := (myMmap_fixed_iff (a := fixedAt 0x60002000) rfl (by decide) (by decide) (by decide)
    (by decide) (by decide) onePage_arranged).mpr fun _ ↦
      Or.inr ⟨0, by decide, by decide, fun h ↦ absurd h (by decide)⟩
  exact hexact.1 (onePage_free (by decide))

/-- The page right behind the only region is free, and refused. -/
theorem myMmap_fixed_refused_behind :
    onePage.Arranged ∧ Free onePage 0x60001000 4096 ∧
      (onePage.myMmap (fixedAt 0x60001000)).2 ≠ 0x60001000 :=
  ⟨onePage_arranged, onePage_free (by decide), by decide⟩

end Xv6Mmap.RegionTable
