import Xv6Mmap.Region.Insert
import Mathlib.Data.List.Basic

/-!
# Removing and shrinking a region

Once its pages are freed, `my_munmap` either takes the entry out of the table, moving the later
entries down until one with a null address, or cuts the unmapped pages off its front.  When the
entry it found is a live one, the live regions afterwards are the ones before with that region
dropped or shrunk.
-/

namespace Xv6Mmap

open Library.Intervals List

/-- A list filtered by a function that changes nothing but the item at index `i`. -/
theorem filterMap_eq_of_unique {α : Type*} (l : List α) (f : α → Option α) {i : ℕ}
    (hi : i < l.length) (hother : ∀ j (hj : j < l.length), j ≠ i → f l[j] = some l[j]) :
    l.filterMap f = l.take i ++ ((f l[i]).toList ++ l.drop (i + 1)) := by
  have hkeep (part : List α) (h : ∀ a ∈ part, f a = some a) : part.filterMap f = part := by
    rw [filterMap_congr h, filterMap_some]
  have hbefore : (l.take i).filterMap f = l.take i := by
    apply hkeep
    intro a ha
    obtain ⟨j, hj, rfl⟩ := mem_take_iff_getElem.mp ha
    exact hother j (by omega) (by omega)
  have hafter : (l.drop (i + 1)).filterMap f = l.drop (i + 1) := by
    apply hkeep
    intro a ha
    obtain ⟨j, hj, rfl⟩ := mem_drop_iff_getElem.mp ha
    exact hother (i + 1 + j) (by omega) (by omega)
  have hitem (rest : List α) : (l[i] :: rest).filterMap f =
      (f l[i]).toList ++ rest.filterMap f := by
    cases h : f l[i] with
    | none | some a => simp [h]
  calc
    l.filterMap f = (l.take i ++ l[i] :: l.drop (i + 1)).filterMap f := by
      rw [← drop_eq_getElem_cons hi, take_append_drop]
    _ = l.take i ++ ((f l[i]).toList ++ l.drop (i + 1)) := by
      rw [filterMap_append, hbefore, hitem, hafter]

namespace Region

/-- What unmapping `size` bytes at `addr` leaves of a region: nothing or its tail if it starts
there, and all of it otherwise. -/
def unmap (addr size : Word) (r : Region) : Option Region :=
  if r.virtAddr = addr then
    if r.size ≤ size then none
    else some { r with virtAddr := r.virtAddr + size, size := r.size - size }
  else some r

theorem unmap_of_ne {addr : Word} {r : Region} (size : Word) (h : r.virtAddr ≠ addr) :
    r.unmap addr size = some r := by
  rw [unmap, if_neg h]

variable {addr size : Word} {r r' : Region}

/-- Cutting whole pages off the front keeps the end where it is. -/
theorem Placed.unmap (h : r.Placed) (hsize : size.toNat % 4096 = 0)
    (hrest : r.unmap addr size = some r') : r'.Placed ∧ r.lo ≤ r'.lo ∧ r'.hi = r.hi := by
  rw [Region.unmap] at hrest
  split at hrest
  · split at hrest
    · cases hrest
    · rename_i hle
      cases hrest
      have hlt : size.toNat < r.size.toNat := by
        rw [BitVec.le_def] at hle
        omega
      have hend := end_le_hi r
      have hhi := h.hi_le
      have hstart : (r.virtAddr + size).toNat = r.virtAddr.toNat + size.toNat := by
        rw [BitVec.toNat_add, Nat.mod_eq_of_lt (by omega)]
      have hlength : (r.size - size).toNat = r.size.toNat - size.toNat :=
        BitVec.toNat_sub_of_le hlt.le
      have hsame : Region.hi { r with virtAddr := r.virtAddr + size, size := r.size - size } =
          r.hi := by
        rw [hi, hi, hstart, hlength]
        congr 1
        omega
      have haligned := h.aligned
      have hbase := h.base_le
      have hlo : Region.lo { r with virtAddr := r.virtAddr + size, size := r.size - size } =
          r.lo + size.toNat := hstart
      refine ⟨⟨?_, ?_, ?_, ?_⟩, ?_, hsame⟩
      · omega
      · dsimp only
        omega
      · omega
      · rw [hsame]
        exact h.hi_lt
      · omega
  · cases hrest
    exact ⟨h, le_rfl, rfl⟩

end Region

namespace RegionTable

variable {t : RegionTable} {i : ℕ} {size : Word}

/-! ## Moving entries down -/

theorem shiftLeft_of_lt (t : RegionTable) (i n : ℕ) {j : ℤ} (h : j < i) :
    t.shiftLeft i n j = t j := by
  induction n generalizing t i with
  | zero => rfl
  | succ n ih =>
    rw [shiftLeft]
    split
    · rfl
    · rw [ih _ _ (by omega)]
      exact set_of_ne t _ (by omega)

theorem shiftLeft_of_le (t : RegionTable) (i n : ℕ) {j : ℤ} (h : i + n ≤ j) :
    t.shiftLeft i n j = t j := by
  induction n generalizing t i with
  | zero => rfl
  | succ n ih =>
    rw [shiftLeft]
    split
    · rfl
    · rw [ih _ _ (by omega)]
      exact set_of_ne t _ (by omega)

/-- As long as the entries above are in use, each is moved down by one. -/
theorem region_shiftLeft (t : RegionTable) (i n m : ℕ) (hm : m ≤ n)
    (hused : ∀ j : ℕ, i < j → j ≤ i + m → (t j).virtAddr ≠ 0) {j : ℕ} (hij : i ≤ j)
    (hj : j < i + m) : (t.shiftLeft i n j).region = (t (j + 1 : ℕ)).region := by
  induction n generalizing t i m with
  | zero => omega
  | succ n ih =>
    have hcast : (i : ℤ) + 1 = ((i + 1 : ℕ) : ℤ) := by norm_cast
    rw [shiftLeft, if_neg (by rw [hcast]; exact hused (i + 1) (by omega) (by omega))]
    rcases Nat.eq_or_lt_of_le hij with rfl | hlt
    · rw [shiftLeft_of_lt _ _ _ (by omega), region_copyEntry, if_pos rfl, hcast]
    · have hsame (l : ℕ) (hl : i < l) : t.copyEntry i (i + 1) l = t l :=
        set_of_ne t _ (by omega)
      rw [ih _ (i + 1) (m - 1) (by omega) _ (by omega) (by omega), hsame (j + 1) (by omega)]
      intro l hl hl'
      rw [hsame l (by omega)]
      exact hused l (by omega) (by omega)

/-! ## The entry found -/

/-- The first entry of the table that starts at `mainaddr`. -/
theorem findEntry_eq_some {mainaddr : Word} (h : t.findEntry mainaddr = some i) :
    i < 30 ∧ (t i).virtAddr = mainaddr ∧ ∀ j : ℕ, j < i → (t j).virtAddr ≠ mainaddr := by
  rw [findEntry, List.find?_range_eq_some] at h
  obtain ⟨hmatch, hi, hfirst⟩ := h
  refine ⟨mem_range.mp hi, by simpa using hmatch, ?_⟩
  intro j hj
  simpa using hfirst j hj

theorem dropEntry_totalMmaps_of_le (hi : i < 30) (h : (t i).size ≤ size) :
    (t.dropEntry i size).totalMmaps = t.totalMmaps - 1 := by
  rw [dropEntry, if_pos h, totalMmaps, setTotal, set_self, totalMmaps,
    shiftLeft_of_le _ _ _ (by omega), set_of_ne _ _ (by omega)]
  rfl

theorem dropEntry_of_not_le (h : ¬ (t i).size ≤ size) :
    t.dropEntry i size = t.set i
      { t i with virtAddr := (t i).virtAddr + size, size := (t i).size - size } := by
  rw [dropEntry, if_neg h]

section

variable (hwell : t.WellFormed) (hi : i < t.total.toNat)
include hwell hi

/-- The live entries once a live one has been taken out. -/
theorem region_dropEntry (h : (t i).size ≤ size) {j : ℕ} (hj : j + 1 < t.total.toNat) :
    (t.dropEntry i size j).region = if j < i then (t j).region else (t (j + 1 : ℕ)).region := by
  have hle := hwell.total_le
  rw [dropEntry, if_pos h, setTotal, set_of_ne _ _ (by omega)]
  split
  · rw [shiftLeft_of_lt _ _ _ (by omega), set_of_ne _ _ (by omega)]
  · have hsame (l : ℕ) (hl : i < l) :
        t.set i (t i).zeroMmapRegionStruct l = t l := set_of_ne t _ (by omega)
    rw [region_shiftLeft _ i (30 - i) (t.total.toNat - 1 - i) (by omega) _ (by omega) (by omega),
      hsame (j + 1) (by omega)]
    intro l hl hl'
    rw [hsame l hl]
    exact (hwell.placed_at (by omega)).within.virtAddr_ne_zero

theorem unmap_live (size : Word) :
    t.live.filterMap (Region.unmap (t i).virtAddr size) =
      t.live.take i ++
        (((t i).region.unmap (t i).virtAddr size).toList ++ t.live.drop (i + 1)) := by
  have hlength : t.live.length = t.total.toNat := length_firstRegions _ _
  have hitem : t.live[i] = (t i).region := getElem_firstRegions t _ i _
  rw [filterMap_eq_of_unique t.live _ (i := i) (by omega), hitem]
  intro j hj hne
  apply Region.unmap_of_ne
  rw [show t.live[j] = (t j).region from getElem_firstRegions t _ j hj]
  exact fun hequal ↦ hne (hwell.virtAddr_injective (by omega) hi hequal)

theorem dropEntry_live_of_le (h : (t i).size ≤ size) :
    (t.dropEntry i size).total = t.total - 1 ∧
      (t.dropEntry i size).live = t.live.take i ++ t.live.drop (i + 1) := by
  have hle := hwell.total_le
  have htotal : (t.dropEntry i size).total = t.total - 1 := by
    grind [total, dropEntry_totalMmaps_of_le]
  refine ⟨htotal, ?_⟩
  have hlength : t.live.length = t.total.toNat := length_firstRegions _ _
  apply ext_getElem
  · grind [live, length_firstRegions]
  · intro j hj hj'
    have hbound : j + 1 < t.total.toNat := by
      rw [live, length_firstRegions, htotal] at hj
      omega
    rw [show (t.dropEntry i size).live[j] = (t.dropEntry i size j).region from
      getElem_firstRegions _ _ j hj, region_dropEntry hwell hi h hbound]
    have htake : (t.live.take i).length = i := by
      rw [length_take]
      omega
    split
    · rw [getElem_append_left (by omega), getElem_take]
      exact (getElem_firstRegions t _ j _).symm
    · have hindex : i + 1 + (j - i) = j + 1 := by omega
      rw [getElem_append_right (by omega)]
      simp only [htake, getElem_drop, hindex]
      exact (getElem_firstRegions t _ (j + 1) _).symm

theorem dropEntry_live_of_not_le (h : ¬ (t i).size ≤ size) :
    (t.dropEntry i size).total = t.total ∧
      (t.dropEntry i size).live = t.live.take i ++
        { (t i).region with virtAddr := (t i).virtAddr + size, size := (t i).size - size } ::
          t.live.drop (i + 1) := by
  have hle := hwell.total_le
  have htotal : (t.dropEntry i size).total = t.total := by
    rw [dropEntry_of_not_le h, total, totalMmaps, set_of_ne _ _ (by omega)]
    rfl
  refine ⟨htotal, ?_⟩
  have hlength : t.live.length = t.total.toNat := length_firstRegions _ _
  apply ext_getElem
  · grind [live, length_firstRegions]
  · intro j hj hj'
    rw [show (t.dropEntry i size).live[j] = (t.dropEntry i size j).region from
      getElem_firstRegions _ _ j hj, dropEntry_of_not_le h]
    have htake : (t.live.take i).length = i := by
      rw [length_take]
      omega
    rcases lt_trichotomy j i with hlt | heq | hgt
    · rw [set_of_ne _ _ (by omega), getElem_append_left (by omega), getElem_take]
      exact (getElem_firstRegions t _ j _).symm
    · subst heq
      rw [set_self, getElem_append_right (by omega)]
      simp only [htake, Nat.sub_self, getElem_cons_zero]
      rfl
    · have hdrop : j - i = (j - i - 1) + 1 := by omega
      have hindex : i + 1 + (j - i - 1) = j := by omega
      rw [set_of_ne _ _ (by omega), getElem_append_right (by omega)]
      simp only [htake]
      rw [getElem_cons]
      rw [dif_neg (by omega)]
      simp only [getElem_drop, hindex]
      exact (getElem_firstRegions t _ j _).symm

/-- **What `my_munmap` does to the table.** When the entry it found is a live one, the live regions
afterwards are the ones before with that region unmapped. -/
theorem dropEntry_live (size : Word) :
    (t.dropEntry i size).live = t.live.filterMap (Region.unmap (t i).virtAddr size) := by
  rw [unmap_live hwell hi, Region.unmap,
    if_pos (show (t i).region.virtAddr = (t i).virtAddr from rfl)]
  by_cases h : (t i).size ≤ size
  · rw [(dropEntry_live_of_le hwell hi h).2, if_pos (show (t i).region.size ≤ size from h)]
    rfl
  · rw [(dropEntry_live_of_not_le hwell hi h).2,
      if_neg (show ¬ (t i).region.size ≤ size from h)]
    rfl

theorem dropEntry_wellFormed (hsize : size.toNat % 4096 = 0) : (t.dropEntry i size).WellFormed := by
  have hbounds : 0 ≤ (t.dropEntry i size).total ∧ (t.dropEntry i size).total ≤ 30 := by
    have hle := hwell.total_le
    by_cases h : (t i).size ≤ size
    · rw [(dropEntry_live_of_le hwell hi h).1]
      omega
    · rw [(dropEntry_live_of_not_le hwell hi h).1]
      omega
  refine ⟨hbounds.1, hbounds.2, ?_, ?_⟩
  · intro r' hr'
    rw [dropEntry_live hwell hi] at hr'
    obtain ⟨r, hr, hrest⟩ := mem_filterMap.mp hr'
    exact ((hwell.placed r hr).unmap hsize hrest).1
  · rw [dropEntry_live hwell hi]
    apply hwell.laidOut.filterMap
    intro r hr r' hrest
    obtain ⟨hplaced, hlo, hhi⟩ := (hwell.placed r hr).unmap hsize hrest
    exact ⟨hlo, hplaced.lo_lt_hi, hhi.le⟩

/-- The lookup of the start of a live region finds that region. -/
theorem WellFormed.findEntry_live :
    t.findEntry (t i).virtAddr = some i := by
  have hle := hwell.total_le
  rw [findEntry, List.find?_range_eq_some]
  refine ⟨by simp, mem_range.mpr (by omega), ?_⟩
  intro j hj
  have hne : (t j).virtAddr ≠ (t i).virtAddr := by
    intro hequal
    have hsame := hwell.virtAddr_injective (hj.trans hi) hi hequal
    omega
  simp [hne]

end

/-- Taking an entry out leaves those before it alone. -/
theorem dropEntry_of_lt (h : (t i).size ≤ size) {j : ℕ} (hj : j < i) (hi : i < 30) :
    t.dropEntry i size j = t j := by
  rw [dropEntry, if_pos h, setTotal, set_of_ne _ _ (by omega), shiftLeft_of_lt _ _ _ (by omega),
    set_of_ne _ _ (by omega)]

/-! ## Clearing the count -/

theorem totalMmaps_setTotal (t : RegionTable) (n : Word) : (t.setTotal n).totalMmaps = n := by
  rw [totalMmaps, setTotal, set_self]

theorem total_setTotal (t : RegionTable) (n : Word) : (t.setTotal n).total = n.toInt := by
  rw [total, totalMmaps_setTotal]

theorem wellFormed_of_total_eq_zero (h : t.total = 0) : t.WellFormed ∧ t.live = [] := by
  have hlive : t.live = [] := by
    rw [live, h]
    rfl
  refine ⟨⟨h.ge, by omega, ?_, ?_⟩, hlive⟩
  · intro r hr
    rw [hlive] at hr
    exact absurd hr not_mem_nil
  · rw [hlive]
    exact .nil _ _

end RegionTable

end Xv6Mmap
