import Xv6Mmap.Region.Layout

/-!
# Inserting a region

`my_mmap` chooses an address and an index, moves the entries behind that index up by one and fills
in the new entry.  On a well-formed table, and as long as the search for a gap stops inside the live
entries, it either fails and leaves the table alone or puts one new region in its place among the
live ones.
-/

namespace Xv6Mmap

open Library.Intervals List
open BitVec (le_def lt_def toInt_inj toNat_add)

variable {outcome : RegionTable × ℤ}

namespace RegionTable

variable {t t' : RegionTable} {size addr : Word} {k : ℕ}

/-! ## Moving entries up -/

theorem region_copyEntry (t : RegionTable) (dst src i : ℤ) :
    (t.copyEntry dst src i).region = if i = dst then (t src).region else (t i).region := by
  by_cases h : i = dst
  · rw [if_pos h, h, copyEntry, set_self, MmapRegion.region_copyMmapStruct]
  · rw [if_neg h, copyEntry, set_of_ne t _ h]

theorem region_shiftRight (t : RegionTable) (j : ℤ) (n : ℕ) (i : ℤ) :
    (t.shiftRight j n i).region =
      if j - n < i ∧ i ≤ j then (t (i - 1)).region else (t i).region := by
  induction n generalizing t j with
  | zero => rw [shiftRight, if_neg (by omega)]
  | succ n ih =>
    rw [shiftRight, ih, region_copyEntry, region_copyEntry]
    by_cases htop : i = j
    · subst htop
      rw [if_neg (by omega), if_pos rfl, if_pos (by omega)]
    · grind

theorem shiftRight_of_lt (t : RegionTable) (j : ℤ) (n : ℕ) {i : ℤ} (h : j < i) :
    t.shiftRight j n i = t i := by
  induction n generalizing t j with
  | zero => rfl
  | succ n ih =>
    rw [shiftRight, ih _ _ (by omega)]
    exact set_of_ne t _ (by omega)

/-- `t'` is `t` with room made at index `k` for a region at `addr`. -/
structure Opened (t t' : RegionTable) (k : ℕ) (addr size : Word) : Prop where
  below : ∀ i : ℕ, i < k → (t' i).region = (t i).region
  virtAddr : (t' k).virtAddr = addr
  size_eq : (t' k).size = size
  moved : ∀ i : ℕ, k ≤ i → i < t.total.toNat → (t' (i + 1 : ℕ)).region = (t i).region
  behind : ∀ i : ℤ, t.total < i → t' i = t i

theorem setupMmapArr_opened (hnonneg : 0 ≤ t.total) (hk : k ≤ t.total.toNat)
    (hfits : pgRoundUp (addr + size) < kernBase) :
    ∃ t', t.setupMmapArr size (k - 1 : ℤ) addr = (t', (k : ℤ)) ∧ Opened t t' k addr size := by
  have hindex : (k - 1 : ℤ) + 1 = k := by omega
  have hmoves : (((t.total - k).toNat : ℕ) : ℤ) = t.total - k := by omega
  refine ⟨(t.shiftRight t.total (t.total - k).toNat).set k
    { t.shiftRight t.total (t.total - k).toNat k with virtAddr := addr, size := size }, ?_, ?_⟩
  · rw [setupMmapArr, hindex]
    dsimp only
    rw [if_neg (by simpa using hfits)]
  · constructor
    · intro i hi
      rw [set_of_ne _ _ (by omega), region_shiftRight, if_neg (by omega)]
    · rw [set_self]
    · rw [set_self]
    · grind [set_of_ne, region_shiftRight]
    · intro i hi
      rw [set_of_ne _ _ (by omega), shiftRight_of_lt _ _ _ hi]

/-- At the end of the live entries nothing is moved, so a failure there changes nothing. -/
theorem setupMmapArr_end (h : kernBase ≤ pgRoundUp (addr + size)) :
    t.setupMmapArr size (t.total - 1) addr = (t, -1) := by
  have hmoves : (t.total - (t.total - 1 + 1)).toNat = 0 := by omega
  rw [setupMmapArr, hmoves]
  dsimp only [shiftRight]
  rw [if_pos h]

/-! ## A place for the region -/

/-- The region of `size` bytes at `addr` fits between the live entries `k - 1` and `k`. -/
structure Fits (t : RegionTable) (k : ℕ) (addr size : Word) : Prop where
  index_le : k ≤ t.total.toNat
  aligned : addr.toNat % 4096 = 0
  base_le : mmapBase.toNat ≤ addr.toNat
  end_lt : pageCeil (addr.toNat + size.toNat) < kernBase.toNat
  after_previous : ∀ i, i + 1 = k → (t i).region.hi ≤ addr.toNat
  before_next : k < t.total.toNat → pageCeil (addr.toNat + size.toNat) ≤ (t k).region.lo

/-- What a successful choice of a slot comes to. -/
def Placement (t t' : RegionTable) (k : ℕ) (size : Word) : Prop :=
  ∃ addr, Fits t k addr size ∧ Opened t t' k addr size

/-- Either the table is left alone, or room is made for the region where it fits. -/
def Places (t : RegionTable) (size : Word) (outcome : RegionTable × ℤ) : Prop :=
  outcome = (t, -1) ∨ ∃ t', ∃ k : ℕ, outcome = (t', (k : ℤ)) ∧ Placement t t' k size

/-- Room is made at index `k` for the region at `addr`; behind the last live entry it may be refused
for reaching `KERNBASE`. -/
def Takes (t : RegionTable) (size : Word) (k : ℕ) (addr : Word) (outcome : RegionTable × ℤ) : Prop :=
  if pageCeil (addr.toNat + size.toNat) < kernBase.toNat then
    ∃ t', outcome = (t', (k : ℤ)) ∧ Fits t k addr size ∧ Opened t t' k addr size
  else k = t.total.toNat ∧ outcome = (t, -1)

theorem Takes.places (h : Takes t size k addr outcome) :
    Places t size outcome := by
  unfold Takes at h
  split at h
  · obtain ⟨t', hrun, hplacement⟩ := h
    exact .inr ⟨t', k, hrun, addr, hplacement⟩
  · exact .inl h.2

theorem takes_setupMmapArr (hspaced : t.Spaced) (hk : k ≤ t.total.toNat)
    (haligned : addr.toNat % 4096 = 0) (hbase : mmapBase.toNat ≤ addr.toNat)
    (hprevious : ∀ i, i + 1 = k → (t i).region.hi ≤ addr.toNat)
    (hnext : k < t.total.toNat → pageCeil (addr.toNat + size.toNat) ≤ (t k).region.lo)
    (hsum : addr.toNat + size.toNat ≤ 0xFFFFF000) :
    Takes t size k addr (t.setupMmapArr size (k - 1 : ℤ) addr) := by
  have hround : (pgRoundUp (addr + size)).toNat = pageCeil (addr.toNat + size.toNat) := by
    have hadd : (addr + size).toNat = addr.toNat + size.toNat := by
      rw [toNat_add, Nat.mod_eq_of_lt (by omega)]
    rw [toNat_pgRoundUp_of_le (by omega), hadd]
  unfold Takes
  split
  · rename_i hend
    obtain ⟨t', hrun, hopened⟩ := setupMmapArr_opened hspaced.total_nonneg hk
      (lt_def.mpr (hround ▸ hend))
    exact ⟨t', hrun, ⟨hk, haligned, hbase, hend, hprevious, hnext⟩, hopened⟩
  · rename_i hend
    have hlast : k = t.total.toNat := by
      by_contra hne
      have hlt : k < t.total.toNat := by omega
      exact hend ((hnext hlt).trans_lt (hspaced.within k hlt).lo_lt)
    refine ⟨hlast, ?_⟩
    rw [hlast, Int.toNat_of_nonneg hspaced.total_nonneg]
    exact setupMmapArr_end (le_def.mpr (hround ▸ Nat.le_of_not_lt hend))

/-! ## Checking a requested address -/

/-- The bytes from `addr` on touch neither the live entry `i` nor the next one. -/
def ClearBehind (t : RegionTable) (addr size : Word) (i : ℕ) : Prop :=
  (t i).region.hi < addr.toNat ∧
    (i + 1 < t.total.toNat → addr.toNat + size.toNat < (t (i + 1 : ℕ)).region.lo)

/-- The bytes from `addr` on start behind a live entry and touch no entry; for an empty table, what
stands before the table takes the part of the entry. -/
def Clear (t : RegionTable) (addr size : Word) : Prop :=
  (t.total = 0 ∧ pgRoundUp ((t (-1)).virtAddr + (t (-1)).size) < addr) ∨
    ∃ i < t.total.toNat, ClearBehind t addr size i

/-- The loop of `check_mmap_possible` looks for an entry but the last with the region behind it. -/
theorem checkGaps_cases (hspaced : t.Spaced) (hsum : addr.toNat + size.toNat < 2 ^ 32) (i n : ℕ)
    (hn : n = 0 ∨ i + n + 1 = t.total.toNat) :
    (∃ j, i ≤ j ∧ j < i + n ∧ ClearBehind t addr size j ∧
        t.checkGaps addr size i n = t.setupMmapArr size j addr) ∨
      (∀ j, i ≤ j → j < i + n → ¬ ClearBehind t addr size j) ∧
        t.checkGaps addr size i n = (t, -1) := by
  induction n generalizing i with
  | zero => exact .inr ⟨fun j hij hj ↦ by omega, rfl⟩
  | succ n ih =>
    have hround : pgRoundUp (t (i + 1 : ℕ)).virtAddr = (t (i + 1 : ℕ)).virtAddr :=
      (hspaced.within (i + 1) (by omega)).pgRoundUp_virtAddr
    have hstart : (pgRoundUp ((t i).virtAddr + (t i).size)).toNat = (t i).region.hi :=
      (hspaced.within i (by omega)).toNat_pgRoundUp_end
    have htest : (pgRoundUp ((t i).virtAddr + (t i).size) < addr ∧
        addr + size < pgRoundUp (t (i + 1)).virtAddr) ↔ ClearBehind t addr size i := by
      rw [show ((i : ℤ) + 1) = ((i + 1 : ℕ) : ℤ) by norm_cast, hround, lt_def, lt_def,
        toNat_add, Nat.mod_eq_of_lt hsum, hstart]
      exact and_congr_right fun _ ↦ ⟨fun h _ ↦ h, fun h ↦ h (by omega)⟩
    rw [checkGaps]
    dsimp only
    split
    · rename_i hle
      refine .inr ⟨fun j hij hj hclear ↦ ?_, rfl⟩
      have hlo : (t i).region.lo ≤ (t j).region.hi := by
        rcases Nat.lt_or_eq_of_le hij with hlt | rfl
        · exact ((Region.lo_le_hi _).trans (hspaced.hi_le_lo i j hlt (by omega))).trans
            (Region.lo_le_hi _)
        · exact Region.lo_le_hi _
      exact absurd (le_def.mp hle) (Nat.not_le.mpr (hlo.trans_lt hclear.1))
    · split
      · rename_i hclear
        exact .inl ⟨i, le_rfl, by omega, htest.mp hclear, rfl⟩
      · rename_i hclear
        rcases ih (i + 1) (by omega) with ⟨j, hij, hj, h⟩ | ⟨hnone, hrun⟩
        · exact .inl ⟨j, by omega, by omega, h⟩
        · refine .inr ⟨fun j hij hj ↦ ?_, hrun⟩
          rcases Nat.lt_or_eq_of_le hij with hlt | rfl
          · exact hnone j hlt (by omega)
          · exact mt htest.mpr hclear

/-- `check_mmap_possible` accepts exactly the addresses that are clear. -/
theorem checkMmapPossible_cases (hspaced : t.Spaced)
    (hsum : (pgRoundUp addr).toNat + size.toNat < 2 ^ 32) :
    (Clear t (pgRoundUp addr) size ∧ ∃ k ≤ t.total.toNat, (k = 0 → t.total = 0) ∧
        (∀ i, i + 1 = k → ClearBehind t (pgRoundUp addr) size i) ∧
        t.checkMmapPossible addr size = t.setupMmapArr size (k - 1 : ℤ) (pgRoundUp addr)) ∨
      ¬ Clear t (pgRoundUp addr) size ∧ t.checkMmapPossible addr size = (t, -1) := by
  have htotal := Int.toNat_of_nonneg hspaced.total_nonneg
  rw [checkMmapPossible]
  generalize pgRoundUp addr = addr at hsum ⊢
  by_cases hempty : t.total = 0
  · have hclear : Clear t addr size ↔ pgRoundUp ((t (-1)).virtAddr + (t (-1)).size) < addr := by
      simp [Clear, hempty]
    rw [hclear, hempty]
    by_cases hlast : pgRoundUp ((t (-1)).virtAddr + (t (-1)).size) < addr
    · exact .inl ⟨hlast, 0, le_rfl, fun _ ↦ rfl, fun i hi ↦ by omega, if_pos hlast⟩
    · exact .inr ⟨hlast, if_neg hlast⟩
  · obtain ⟨m, hm⟩ : ∃ m : ℕ, t.total.toNat = m + 1 := ⟨t.total.toNat - 1, by omega⟩
    have hlast : pgRoundUp ((t m).virtAddr + (t m).size) < addr ↔ ClearBehind t addr size m := by
      rw [lt_def, show (pgRoundUp ((t m).virtAddr + (t m).size)).toNat = (t m).region.hi from
        (hspaced.within m (by omega)).toNat_pgRoundUp_end]
      exact ⟨fun h ↦ ⟨h, fun hlt ↦ by omega⟩, fun h ↦ h.1⟩
    have haccepted {j : ℕ} (hj : j ≤ m) (hclear : ClearBehind t addr size j) {outcome}
        (hrun : outcome = t.setupMmapArr size j addr) :
        Clear t addr size ∧ ∃ k ≤ t.total.toNat, (k = 0 → t.total = 0) ∧
          (∀ i, i + 1 = k → ClearBehind t addr size i) ∧
          outcome = t.setupMmapArr size (k - 1 : ℤ) addr := by
      refine ⟨.inr ⟨j, by omega, hclear⟩, j + 1, by omega, nofun, fun i hi ↦ ?_, ?_⟩
      · rwa [Nat.succ.inj hi]
      · rw [hrun, show ((j + 1 : ℕ) : ℤ) - 1 = j by omega]
    rw [show t.total - 1 = (m : ℤ) by omega, Int.toNat_natCast]
    by_cases hclear : ClearBehind t addr size m
    · exact .inl (haccepted le_rfl hclear (if_pos (hlast.mpr hclear)))
    · rw [if_neg (mt hlast.mp hclear)]
      rcases checkGaps_cases hspaced hsum 0 m (by omega) with ⟨j, _, hj, hbetween, hrun⟩ | ⟨hnone, hrun⟩
      · exact .inl (haccepted (by omega) hbetween hrun)
      · refine .inr ⟨?_, hrun⟩
        rintro (⟨hzero, _⟩ | ⟨j, hj, hbetween⟩)
        · exact hempty hzero
        · rcases Nat.lt_or_eq_of_le (show j ≤ m by omega) with hlt | rfl
          · exact hnone j (Nat.zero_le j) (by omega) hbetween
          · exact hclear hbetween

/-- A positive address and a size whose sum wraps around when it is rounded up to a page. -/
def Wraps (addr size : Word) : Prop :=
  0x7FFFF000 < addr ∧ addr < 0x80000000 ∧ 0x7FFFF000 < size

instance (addr size : Word) : Decidable (Wraps addr size) :=
  inferInstanceAs (Decidable (_ ∧ _ ∧ _))

theorem places_checkMmapPossible (hspaced : t.Spaced) (hbase : mmapBase.toNat ≤ addr.toNat)
    (haddr : addr.toNat < 2 ^ 31) (hsize : size.toNat < 2 ^ 31) (hwraps : ¬ Wraps addr size) :
    Places t size (t.checkMmapPossible addr size) := by
  have hround : (pgRoundUp addr).toNat = pageCeil addr.toNat := toNat_pgRoundUp_of_le (by omega)
  have hle : addr.toNat ≤ (pgRoundUp addr).toNat := hround ▸ le_pageCeil _
  have hsum : (pgRoundUp addr).toNat + size.toNat ≤ 0xFFFFF000 := by
    have hcases : addr.toNat ≤ 0x7FFFF000 ∨ size.toNat ≤ 0x7FFFF000 := by
      have hlimit : (0x7FFFF000 : Word).toNat = 0x7FFFF000 := rfl
      have hlimit' : (0x80000000 : Word).toNat = 0x80000000 := rfl
      rw [Wraps, lt_def, lt_def, lt_def] at hwraps
      omega
    rw [hround, pageCeil]
    omega
  have hlt : (pgRoundUp addr).toNat + size.toNat < 2 ^ 32 := by omega
  rcases checkMmapPossible_cases hspaced hlt with
    ⟨_, k, hk, hfirst, hbehind, hrun⟩ | ⟨_, hrun⟩
  · rw [hrun]
    refine (takes_setupMmapArr hspaced hk (pgRoundUp_mod addr) (hbase.trans hle)
      (fun i hi ↦ (hbehind i hi).1.le) (fun hlt ↦ ?_) hsum).places
    obtain ⟨i, rfl⟩ : ∃ i, k = i + 1 := ⟨k - 1, by omega⟩
    exact pageCeil_le ((hbehind i rfl).2 hlt).le (hspaced.within _ hlt).aligned
  · exact .inl hrun

/-! ## Searching for a gap -/

/-- The start of the space before entry `k`. -/
def gapStart (t : RegionTable) (k : ℕ) : ℕ :=
  if k = 0 then mmapBase.toNat else (t (k - 1 : ℕ)).region.hi

/-- The gap before the live entry `k` is larger than `size`. -/
def HasGap (t : RegionTable) (size : Word) (k : ℕ) : Prop :=
  k < t.total.toNat ∧ t.gapStart k + size.toNat < (t k).region.lo

/-- The test that ends the search of `find_mmap_addr` at index `i`. -/
def StopsAt (t : RegionTable) (size : Word) (i : ℕ) : Prop :=
  (t (i + 1)).virtAddr = 0 ∨
    size < pgRoundUp (t (i + 1)).virtAddr - pgRoundUp ((t i).virtAddr + (t i).size)

instance (t : RegionTable) (size : Word) (i : ℕ) : Decidable (StopsAt t size i) :=
  inferInstanceAs (Decidable (_ ∨ _))

/-- The search stops at the first index with the test fulfilled. -/
theorem findGap_stopsAt (t : RegionTable) (size : Word) (i n : ℕ)
    (h : ∃ j, i ≤ j ∧ j < i + n ∧ StopsAt t size j) :
    t.findGap size i n < i + n ∧ StopsAt t size (t.findGap size i n) ∧
      ∀ j, i ≤ j → j < t.findGap size i n → ¬ StopsAt t size j := by
  induction n generalizing i with
  | zero =>
    obtain ⟨j, hij, hj, _⟩ := h
    omega
  | succ n ih =>
    rw [findGap]
    dsimp only
    split
    · exact ⟨by omega, .inl (by assumption), fun j hij hj ↦ by omega⟩
    · split
      · exact ⟨by omega, .inr (by assumption), fun j hij hj ↦ by omega⟩
      · rename_i hzero hgap
        have hnot : ¬ StopsAt t size i := fun hstops ↦ hstops.elim hzero hgap
        obtain ⟨j, hij, hj, hstops⟩ := h
        have hne : j ≠ i := by
          rintro rfl
          exact hnot hstops
        obtain ⟨hlt, hstop, hfirst⟩ := ih (i + 1) ⟨j, by omega, by omega, hstops⟩
        refine ⟨by omega, hstop, fun j hij hj ↦ ?_⟩
        rcases Nat.lt_or_eq_of_le hij with hlt | rfl
        · exact hfirst j hlt hj
        · exact hnot

/-- The search for a gap, if it is made, ends before it reads an entry behind the live ones as if it
were live. -/
def SearchEndsInside (t : RegionTable) (size : Word) : Prop :=
  t.total = 0 ∨ size < (t 0).virtAddr - mmapBase ∨ ∃ i < t.total.toNat, StopsAt t size i

instance (t : RegionTable) (size : Word) : Decidable (SearchEndsInside t size) :=
  inferInstanceAs (Decidable (_ ∨ _ ∨ ∃ i < _, _))

/-- The test of the search between two live entries. -/
theorem stopsAt_iff (hspaced : t.Spaced) {i : ℕ} (hi : i + 1 < t.total.toNat) :
    StopsAt t size i ↔ t.HasGap size (i + 1) := by
  have hstart : (pgRoundUp ((t i).virtAddr + (t i).size)).toNat = (t i).region.hi :=
    (hspaced.within i (by omega)).toNat_pgRoundUp_end
  have hnext := hspaced.within (i + 1) hi
  have horder := hspaced.hi_le_lo i (i + 1) (Nat.lt_succ_self i) hi
  have hround : pgRoundUp (t (i + 1 : ℕ)).virtAddr = (t (i + 1 : ℕ)).virtAddr :=
    hnext.pgRoundUp_virtAddr
  have hgap : t.HasGap size (i + 1) ↔ (t i).region.hi + size.toNat < (t (i + 1 : ℕ)).region.lo :=
    and_iff_right hi
  rw [StopsAt, show ((i : ℤ) + 1) = ((i + 1 : ℕ) : ℤ) by norm_cast, hround,
    or_iff_right (show (t (i + 1 : ℕ)).virtAddr ≠ 0 from hnext.virtAddr_ne_zero), hgap, lt_def,
    BitVec.toNat_sub_of_le (show _ ≤ (t (i + 1 : ℕ)).virtAddr from
      le_def.mpr (hstart.trans_le horder)), hstart]
  change _ < (t (i + 1 : ℕ)).region.lo - _ ↔ _
  omega

/-- The test for the gap below the first region. -/
theorem front_iff (hspaced : t.Spaced) (hlive : 0 < t.total.toNat) :
    size < (t 0).virtAddr - mmapBase ↔ t.HasGap size 0 := by
  have hbase : mmapBase ≤ (t (0 : ℕ)).virtAddr := (hspaced.within 0 hlive).base_le
  change size < (t (0 : ℕ)).virtAddr - mmapBase ↔
    0 < t.total.toNat ∧ mmapBase.toNat + size.toNat < (t (0 : ℕ)).virtAddr.toNat
  rw [lt_def, BitVec.toNat_sub_of_le hbase]
  omega

/-- Room is made in a gap that is large enough, or behind the last region. -/
theorem takes_gap (hspaced : t.Spaced) (hk : k ≤ t.total.toNat) (haddr : addr.toNat = t.gapStart k)
    (hsum : t.gapStart k + size.toNat ≤ 0xFFFFF000) (hgap : k < t.total.toNat → t.HasGap size k) :
    Takes t size k addr (t.setupMmapArr size (k - 1 : ℤ) addr) := by
  have hstart : t.gapStart k % 4096 = 0 ∧ mmapBase.toNat ≤ t.gapStart k := by
    unfold gapStart
    split
    · exact ⟨by decide, le_rfl⟩
    · have hwithin := hspaced.within (k - 1) (by omega)
      exact ⟨pageCeil_mod _, hwithin.base_le.trans (Region.lo_le_hi _)⟩
  refine takes_setupMmapArr hspaced hk (haddr ▸ hstart.1) (haddr ▸ hstart.2) (fun i hi ↦ ?_)
    (fun hlt ↦ ?_) (haddr ▸ hsum)
  · subst hi
    exact haddr.ge
  · rw [haddr]
    exact pageCeil_le (hgap hlt).2.le (hspaced.within k hlt).aligned

theorem total_eq_zero_iff (t : RegionTable) : t.totalMmaps = 0 ↔ t.total = 0 := by
  rw [total, ← toInt_inj]
  rfl

/-- An empty table takes the region at `MMAPBASE`. -/
theorem takes_first (hempty : t.total = 0) (hsize : size.toNat < 2 ^ 31) :
    Takes t size 0 mmapBase (t.findMmapAddr size) := by
  have hbase : mmapBase.toNat = 0x60000000 := rfl
  have hround : (pgRoundUp (mmapBase + size)).toNat = pageCeil (mmapBase.toNat + size.toNat) := by
    have hsum : (mmapBase + size).toNat = mmapBase.toNat + size.toNat := by
      rw [toNat_add, Nat.mod_eq_of_lt (by omega)]
    rw [toNat_pgRoundUp_of_le (by omega), hsum]
  rw [findMmapAddr, if_pos ((total_eq_zero_iff t).mpr hempty), Takes]
  split
  · rename_i hend
    rw [if_neg (by rw [BitVec.not_le, lt_def, hround]; exact hend)]
    refine ⟨_, rfl, ⟨Nat.zero_le _, by decide, le_rfl, hend, ?_, ?_⟩, ⟨?_, ?_, ?_, ?_, ?_⟩⟩
    · intro i hi
      omega
    · intro h
      omega
    · intro i hi
      omega
    · exact congrArg MmapRegion.virtAddr (set_self t 0 _)
    · exact congrArg MmapRegion.size (set_self t 0 _)
    · intro i _ hi
      omega
    · intro i hi
      exact set_of_ne t _ (by omega)
  · rename_i hend
    rw [if_pos (le_def.mpr (hround ▸ Nat.le_of_not_lt hend))]
    exact ⟨by omega, rfl⟩

section

variable (hspaced : t.Spaced) (hsize : size.toNat < 2 ^ 31)
include hspaced hsize

/-- The space behind the live entry `i`, at which the search has stopped. -/
theorem takes_behind {i : ℕ}
    (hi : i < t.total.toNat) (hgap : i + 1 < t.total.toNat → t.HasGap size (i + 1)) :
    let mmapaddr := pgRoundUp ((t i).virtAddr + (t i).size)
    mmapaddr.toNat = t.gapStart (i + 1) ∧ Takes t size (i + 1) mmapaddr
      (if kernBase < mmapaddr + size then (t, -1) else t.setupMmapArr size i mmapaddr) := by
  intro mmapaddr
  have hkern : kernBase.toNat = 0x80000000 := rfl
  have hwithin := hspaced.within i hi
  have hstart : mmapaddr.toNat = t.gapStart (i + 1) := hwithin.toNat_pgRoundUp_end
  have hle : t.gapStart (i + 1) ≤ kernBase.toNat := hwithin.hi_le
  have hpast : kernBase < mmapaddr + size ↔ kernBase.toNat < mmapaddr.toNat + size.toNat := by
    rw [lt_def, toNat_add, Nat.mod_eq_of_lt (by omega)]
  refine ⟨hstart, ?_⟩
  simp only [hpast]
  split
  · have hceil := le_pageCeil (mmapaddr.toNat + size.toNat)
    rw [Takes, if_neg (by omega)]
    refine ⟨?_, rfl⟩
    by_contra hne
    have hnext := hgap (by omega)
    have hlt := hnext.2.trans (hspaced.within _ hnext.1).lo_lt
    omega
  · have hsum : t.gapStart (i + 1) + size.toNat ≤ 0xFFFFF000 := by omega
    have htakes := takes_gap hspaced hi hstart hsum hgap
    rwa [show ((i + 1 : ℕ) : ℤ) - 1 = i by omega] at htakes

/-- **First fit.**  `find_mmap_addr` takes the lowest gap that is larger than `size`, else the space
behind the last region. -/
theorem findMmapAddr_takes (hsearch : SearchEndsInside t size) :
    ∃ k ≤ t.total.toNat, (∀ j < k, ¬ t.HasGap size j) ∧ (k < t.total.toNat → t.HasGap size k) ∧
      ∃ addr, addr.toNat = t.gapStart k ∧ Takes t size k addr (t.findMmapAddr size) := by
  have hnonneg := hspaced.total_nonneg
  by_cases hempty : t.total = 0
  · refine ⟨0, Nat.zero_le _, nofun, fun hlt ↦ ?_, mmapBase, rfl, takes_first hempty hsize⟩
    omega
  have hlive : 0 < t.total.toNat := by omega
  rw [findMmapAddr, if_neg (mt (total_eq_zero_iff t).mp hempty)]
  split
  · rename_i hgap
    have hfront := (front_iff hspaced hlive).mp hgap
    have hlt : _ < 0x80000000 := hfront.2.trans (hspaced.within 0 hlive).lo_lt
    exact ⟨0, hlive.le, nofun, fun _ ↦ hfront, mmapBase, rfl,
      takes_gap hspaced hlive.le rfl (by omega) fun _ ↦ hfront⟩
  · rename_i hgap
    have hinside : ∃ j, 0 ≤ j ∧ j < 0 + t.total.toNat ∧ StopsAt t size j := by
      rcases hsearch with h | h | ⟨j, hj, hstops⟩
      · exact absurd h hempty
      · exact absurd h hgap
      · exact ⟨j, Nat.zero_le j, by omega, hstops⟩
    obtain ⟨hi, hstops, hfirst⟩ := findGap_stopsAt t size 0 t.total.toNat hinside
    dsimp only
    generalize t.findGap size 0 t.total.toNat = i at hi hstops hfirst ⊢
    have hnext (hlt : i + 1 < t.total.toNat) : t.HasGap size (i + 1) :=
      (stopsAt_iff hspaced hlt).mp hstops
    refine ⟨i + 1, by omega, fun j hj ↦ ?_, hnext, _, takes_behind hspaced hsize (by omega) hnext⟩
    cases j with
    | zero => exact mt (front_iff hspaced hlive).mpr hgap
    | succ j =>
      intro hgap'
      exact hfirst j (Nat.zero_le j) (by omega) ((stopsAt_iff hspaced hgap'.1).mpr hgap')

theorem places_findMmapAddr
    (hsearch : SearchEndsInside t size) : Places t size (t.findMmapAddr size) := by
  obtain ⟨_, _, _, _, _, _, htakes⟩ := findMmapAddr_takes hspaced hsize hsearch
  exact htakes.places

end

end RegionTable

/-! ## The call -/

theorem toNat_lt_of_toInt_pos {size : Word} (h : 0 < size.toInt) : size.toNat < 2 ^ 31 := by
  rw [BitVec.toInt_eq_toNat_cond] at h
  have hlt := size.isLt
  split at h <;> omega

namespace MmapArgs

variable {a : MmapArgs}

/-- The region a successful call creates at `va`. -/
def region (a : MmapArgs) (va : Word) : Region where
  virtAddr := va
  size := a.size
  flags := a.flags
  protection := a.stored
  f := a.f
  offset := a.offset

theorem size_toInt_pos (h : a.valid = true) : 0 < a.size.toInt := by
  simp only [valid, Bool.and_eq_true, Bool.not_eq_true', Bool.or_eq_false_iff] at h
  have hpositive : ¬ a.size.toInt ≤ (0 : Word).toInt := by
    simpa [BitVec.sle_eq_decide] using h.1.1.2.1
  simpa using hpositive

theorem size_toNat_lt (h : a.valid = true) : a.size.toNat < 2 ^ 31 :=
  toNat_lt_of_toInt_pos (size_toInt_pos h)

theorem size_toNat_pos (h : a.valid = true) : 0 < a.size.toNat := by
  have hpositive := size_toInt_pos h
  rw [BitVec.toInt_eq_toNat_of_lt (by have := size_toNat_lt h; omega)] at hpositive
  omega

/-- The calls on table `t` that keep it well formed: not a null address under `MAP_FIXED`, not a
hint that wraps around, and if a gap is searched for, the search ends inside the live entries. -/
@[mk_iff]
structure Admissible (a : MmapArgs) (t : RegionTable) : Prop where
  not_fixed_null : ¬ (a.flags.has mapFixed = true ∧ a.addr = 0)
  not_wraps : a.flags.has mapFixed = false → ¬ RegionTable.Wraps a.addr a.size
  search : a.flags.has mapFixed = false →
    (a.addr = 0 ∨ (t.checkMmapPossible a.addr a.size).2 = -1) → t.SearchEndsInside a.size

instance (t : RegionTable) : Decidable (a.Admissible t) :=
  decidable_of_iff _ (admissible_iff a t).symm

end MmapArgs

theorem toNat_of_not_slt_mmapBase {addr : Word} (h : addr.slt mmapBase = false) :
    mmapBase.toNat ≤ addr.toNat ∧ addr.toNat < 2 ^ 31 := by
  have hle : mmapBase.toInt ≤ addr.toInt := by
    simpa [BitVec.slt_eq_decide] using h
  have hbase : mmapBase.toInt = 0x60000000 := rfl
  have hbase' : mmapBase.toNat = 0x60000000 := rfl
  have hlt := addr.isLt
  rw [hbase, BitVec.toInt_eq_toNat_cond] at hle
  split at hle <;> omega

namespace RegionTable

variable {t t' : RegionTable} {a : MmapArgs} {k : ℕ} {r : Region}

/-- No page-aligned address wraps around. -/
theorem not_wraps_of_aligned {addr size : Word} (h : addr.srem pgSize = 0) :
    ¬ Wraps addr size := by
  rintro ⟨hlow, hhigh, _⟩
  have hlimit : (0x7FFFF000 : Word).toNat = 0x7FFFF000 := rfl
  have hlimit' : (0x80000000 : Word).toNat = 0x80000000 := rfl
  rw [lt_def] at hlow hhigh
  have hrem : addr.toInt.tmod 4096 = 0 := by
    have hint := congrArg BitVec.toInt h
    rw [BitVec.toInt_srem] at hint
    exact hint
  rw [BitVec.toInt_eq_toNat_of_lt (by omega), Int.tmod_eq_emod_of_nonneg (by omega)] at hrem
  omega

/-- Either `my_mmap` fails here with the table as it was, or room is made where the region fits. -/
def Chosen (t : RegionTable) (a : MmapArgs) (outcome : RegionTable × Option ℤ) : Prop :=
  outcome = (t, none) ∨
    ∃ t', ∃ k : ℕ, outcome = (t', some (k : ℤ)) ∧ Placement t t' k a.size

theorem Places.chosen (h : Places t a.size outcome) :
    Chosen t a (if outcome.2 = -1 then (outcome.1, none) else (outcome.1, some outcome.2)) := by
  rcases h with rfl | ⟨t', k, rfl, hplacement⟩
  · exact .inl rfl
  · exact .inr ⟨t', k, if_neg (by omega), hplacement⟩

theorem chooseSlot_chosen (hwell : t.WellFormed) (hvalid : a.valid = true)
    (hadmissible : a.Admissible t) : Chosen t a (t.chooseSlot a) := by
  have hsize := MmapArgs.size_toNat_lt hvalid
  have hcheck (haddr : a.addr.slt mmapBase = false) (hwraps : ¬ Wraps a.addr a.size) :
      Places t a.size (t.checkMmapPossible a.addr a.size) :=
    have hrange := toNat_of_not_slt_mmapBase haddr
    places_checkMmapPossible hwell.spaced hrange.1 hrange.2 hsize hwraps
  rw [chooseSlot]
  split
  · rename_i hfixed
    rw [if_neg fun h ↦ hadmissible.not_fixed_null ⟨hfixed, h⟩]
    split
    · exact .inl rfl
    · rename_i hrange
      simp only [Bool.or_eq_true, not_or, Bool.not_eq_true] at hrange
      have haligned : a.addr.srem pgSize = 0 := by simpa using hrange.2
      exact (hcheck hrange.1.1 (not_wraps_of_aligned haligned)).chosen
  · rename_i hfixed
    have hfree : a.flags.has mapFixed = false := Bool.not_eq_true _ ▸ hfixed
    have hsearch := hadmissible.search hfree
    split
    · rename_i hnull
      exact (places_findMmapAddr hwell.spaced hsize (hsearch (.inl hnull))).chosen
    · split
      · exact .inl rfl
      · rename_i hrange
        simp only [Bool.or_eq_true, not_or, Bool.not_eq_true] at hrange
        rcases hcheck hrange.1 (hadmissible.not_wraps hfree) with hfail | ⟨t', k, hplace, hplacement⟩
        · have hfind := places_findMmapAddr hwell.spaced hsize (hsearch (.inr (by rw [hfail])))
          rw [hfail]
          exact hfind.chosen
        · rw [hplace]
          exact .inr ⟨t', k, if_neg (by omega), hplacement⟩

/-- `t'` is `t` with the region `r` inserted at index `k` of the live entries. -/
structure Inserted (t t' : RegionTable) (k : ℕ) (r : Region) : Prop where
  below : ∀ i : ℕ, i < k → (t' i).region = (t i).region
  region_eq : (t' k).region = r
  moved : ∀ i : ℕ, k ≤ i → i < t.total.toNat → (t' (i + 1 : ℕ)).region = (t i).region
  behind : ∀ i : ℤ, t.total < i → i ≠ 30 → t' i = t i
  totalMmaps_eq : t'.totalMmaps = t.totalMmaps + 1

namespace Inserted

theorem total_eq (h : Inserted t t' k r) (hnonneg : 0 ≤ t.total) (hroom : t.total < 30) :
    t'.total = t.total + 1 := by
  have hone : (1 : Word).toInt = 1 := rfl
  rw [total] at hnonneg hroom
  rw [total, total, h.totalMmaps_eq, BitVec.toInt_add, hone, Int.bmod_eq_of_le (by omega) (by omega)]

theorem live_eq (h : Inserted t t' k r) (hnonneg : 0 ≤ t.total) (hroom : t.total < 30)
    (hk : k ≤ t.total.toNat) : t'.live = t.live.take k ++ r :: t.live.drop k := by
  have htotal : t'.total.toNat = t.total.toNat + 1 := by
    rw [h.total_eq hnonneg hroom]
    omega
  apply ext_getElem
  · grind [live, length_firstRegions]
  · intro i hi hi'
    have hlength : (t.live.take k).length = k := by
      simp only [live, length_take, length_firstRegions]
      omega
    have hi'' : i < t.total.toNat + 1 := by
      rw [live, length_firstRegions] at hi
      omega
    rw [show t'.live[i] = (t' i).region from getElem_firstRegions t' _ i hi]
    rcases lt_trichotomy i k with hlt | heq | hgt
    · rw [getElem_append_left (by omega), getElem_take, h.below i hlt]
      exact (getElem_firstRegions t _ i _).symm
    · subst heq
      rw [getElem_append_right (by omega), h.region_eq]
      simp [hlength]
    · obtain ⟨j, rfl⟩ : ∃ j, i = j + 1 := ⟨i - 1, by omega⟩
      have hdrop : j + 1 - k = (j - k) + 1 := by omega
      have hindex : k + (j - k) = j := by omega
      rw [getElem_append_right (by omega), h.moved j (by omega) (by omega)]
      simp only [hlength, hdrop, getElem_cons_succ, getElem_drop, hindex]
      exact (getElem_firstRegions t _ j _).symm

theorem wellFormed (h : Inserted t t' k r) (hwell : t.WellFormed) (hroom : t.total < 30)
    (hfits : Fits t k r.virtAddr r.size) (hpositive : 0 < r.size.toNat) : t'.WellFormed := by
  have hlive := h.live_eq hwell.total_nonneg hroom hfits.index_le
  have htotal := h.total_eq hwell.total_nonneg hroom
  have hplaced : r.Placed := ⟨hfits.aligned, hpositive, hfits.base_le, hfits.end_lt⟩
  have hnonneg := hwell.total_nonneg
  have hk := hfits.index_le
  refine ⟨by omega, by omega, ?_, ?_⟩
  · grind [hwell.placed]
  · rw [hlive]
    apply LaidOut.insert _ hplaced.lo_lt_hi
    · intro r' hr'
      obtain ⟨i, hi, rfl⟩ := mem_take_iff_getElem.mp hr'
      rw [show t.live.length = t.total.toNat from length_firstRegions _ _] at hi
      have hlast : (t (k - 1 : ℕ)).region.hi ≤ r.lo := hfits.after_previous (k - 1) (by omega)
      refine le_trans ?_ hlast
      rw [show t.live[i] = (t i).region from getElem_firstRegions t _ i _]
      rcases Nat.lt_or_eq_of_le (show i ≤ k - 1 by omega) with hlt | heq
      · exact (hwell.hi_le_lo hlt (by omega)).trans (hwell.placed_at (by omega)).lo_lt_hi.le
      · rw [heq]
    · intro r' hr'
      obtain ⟨i, hi, rfl⟩ := mem_drop_iff_getElem.mp hr'
      rw [show t.live.length = t.total.toNat from length_firstRegions _ _] at hi
      have hnext : r.hi ≤ (t k).region.lo := hfits.before_next (by omega)
      refine hnext.trans ?_
      rw [show t.live[k + i] = (t (k + i : ℕ)).region from getElem_firstRegions t _ (k + i) _]
      rcases Nat.eq_zero_or_pos i with rfl | hpos
      · exact le_rfl
      · exact (hwell.lo_lt_lo (by omega) (by omega)).le
    · rw [take_append_drop]
      exact hwell.laidOut

end Inserted

theorem Opened.inserted {va : Word} (h : Opened t t' k va a.size) (hroom : t.total < 30)
    (hk : (k : ℤ) ≤ t.total) : Inserted t (t'.fillEntry k a) k (a.region va) := by
  constructor
  · intro i hi
    rw [fillEntry, setTotal, set_of_ne _ _ (by omega), set_of_ne _ _ (by omega), h.below i hi]
  · rw [fillEntry, setTotal, set_of_ne _ _ (by omega), set_self]
    simp only [MmapRegion.region, MmapArgs.region, h.virtAddr, h.size_eq]
  · intro i hki hi
    rw [fillEntry, setTotal, set_of_ne _ _ (by omega), set_of_ne _ _ (by omega), h.moved i hki hi]
  · intro i hi hi'
    rw [fillEntry, setTotal, set_of_ne _ _ hi', set_of_ne _ _ (by omega), h.behind i hi]
  · rw [totalMmaps, fillEntry, setTotal, set_self]
    dsimp only
    rw [totalMmaps, set_of_ne _ _ (by omega), h.behind 30 hroom]
    rfl

/-- **What `my_mmap` does to a table.** It fails and leaves the table as it was, or it inserts the
region it was asked for where that fits, at the index that it has chosen. -/
theorem myMmap_chosen (hwell : t.WellFormed)
    (hadmissible : a.valid = true → t.total < 30 → a.Admissible t) :
    t.myMmap a = (t, -1) ∨
      ∃ t' va, ∃ k : ℕ, t.myMmap a = (t', va) ∧ a.valid = true ∧ t.total < 30 ∧
        Fits t k va a.size ∧ Inserted t t' k (a.region va) ∧ (t.chooseSlot a).2 = some (k : ℤ) := by
  rw [myMmap]
  split
  · exact .inl rfl
  · rename_i hinvalid
    have hvalid : a.valid = true := by simpa using hinvalid
    split
    · exact .inl rfl
    · rename_i hfull
      have hroom : t.total < 30 := by
        have hle := hwell.total_le
        have hne : t.total ≠ 30 := by
          intro h
          exact hfull (toInt_inj.mp h)
        omega
      rcases chooseSlot_chosen hwell hvalid (hadmissible hvalid hroom) with
        hnone | ⟨t', k, hsome, va, hfits, hopened⟩
      · rw [hnone]
        exact .inl rfl
      · have hk : (k : ℤ) ≤ t.total := by
          rw [← hwell.natCast_total]
          exact_mod_cast hfits.index_le
        have hinserted := hopened.inserted hroom hk
        rw [hsome]
        refine .inr ⟨t'.fillEntry k a, va, k, Prod.ext rfl ?_, hvalid, hroom, hfits, hinserted, rfl⟩
        exact congrArg Region.virtAddr hinserted.region_eq

theorem myMmap_cases (hwell : t.WellFormed)
    (hadmissible : a.valid = true → t.total < 30 → a.Admissible t) :
    t.myMmap a = (t, -1) ∨
      ∃ t' va k, t.myMmap a = (t', va) ∧ a.valid = true ∧ t.total < 30 ∧ Fits t k va a.size ∧
        Inserted t t' k (a.region va) := by
  rcases myMmap_chosen hwell hadmissible with
    hfail | ⟨t', va, k, hcall, hvalid, hroom, hfits, hinserted, _⟩
  · exact .inl hfail
  · exact .inr ⟨t', va, k, hcall, hvalid, hroom, hfits, hinserted⟩

end RegionTable

end Xv6Mmap
