import Mathlib.Algebra.Order.Group.Nat
import Mathlib.Data.BitVec
import Mathlib.Tactic.Ring

/-!
# Byte strings

Strings of cells that are overwritten in part, and numbers that are kept in bytes with the least
significant byte first.
-/

namespace Xv6Mmap.Library.Bytes

open List Nat

section Splice

variable {β : Type*} {f g src : ℕ → β} {off n i : ℕ} {m : ℕ} {xs : List β}

/-- Overwrite the `n` cells from `off` on. -/
def splice (f : ℕ → β) (off n : ℕ) (src : ℕ → β) : ℕ → β :=
  fun i ↦ if off ≤ i ∧ i < off + n then src (i - off) else f i

theorem splice_of_mem (hlo : off ≤ i) (hhi : i < off + n) : splice f off n src i = src (i - off) :=
  if_pos ⟨hlo, hhi⟩

theorem splice_of_lt (h : i < off) : splice f off n src i = f i :=
  if_neg fun hmem ↦ absurd hmem.1 (not_le.mpr h)

theorem splice_of_ge (h : off + n ≤ i) : splice f off n src i = f i :=
  if_neg fun hmem ↦ absurd hmem.2 (not_lt.mpr h)

theorem splice_add {j : ℕ} (h : j < n) : splice f off n src (off + j) = src j := by
  rw [splice_of_mem (Nat.le_add_right _ _) (Nat.add_lt_add_left h _), Nat.add_sub_cancel_left]

@[simp]
theorem splice_zero (f : ℕ → β) (off : ℕ) (src : ℕ → β) : splice f off 0 src = f := by
  grind [splice_of_lt, splice_of_ge]

/-- Two pieces, one right behind the other. -/
theorem splice_splice (m : ℕ) :
    splice (splice f off m src) (off + m) n (fun j ↦ src (m + j)) = splice f off (m + n) src := by
  funext i
  rcases lt_or_ge i (off + m) with hlt | hge
  · grind [splice_of_lt, splice_of_mem]
  · grind [splice_of_mem, splice_of_ge]

/-- A string read in two pieces. -/
theorem map_range_split (hm : m ≤ n) (f : ℕ → β) :
    (range n).map f =
      (range m).map f ++ (range (n - m)).map fun k ↦ f (m + k) := by
  obtain ⟨k, rfl⟩ := Nat.exists_eq_add_of_le hm
  rw [range_add, map_append, map_map, Nat.add_sub_cancel_left]
  rfl

/-! ## Overlays of lists -/

/-- The list `ys` over the list `xs` from `off` on. -/
def overlay (xs : List β) (off : ℕ) (ys : List β) : List β :=
  xs.take off ++ ys ++ xs.drop (off + ys.length)

theorem length_overlay (h : off ≤ xs.length) (ys : List β) :
    (overlay xs off ys).length = max xs.length (off + ys.length) := by
  rw [overlay, length_append, length_append, length_take_of_le h, length_drop]
  omega

theorem overlay_nil (xs : List β) (off : ℕ) : overlay xs off [] = xs := by
  rw [overlay, append_nil, length_nil, Nat.add_zero, take_append_drop]

/-- Two overlays, one right behind the other. -/
theorem overlay_overlay (h : off ≤ xs.length) (ys zs : List β) :
    overlay (overlay xs off ys) (off + ys.length) zs = overlay xs off (ys ++ zs) := by
  have hfront : (xs.take off ++ ys).length = off + ys.length := by
    rw [length_append, length_take_of_le h]
  have hdrop : (xs.take off ++ ys ++ xs.drop (off + ys.length)).drop (off + ys.length + zs.length) =
      xs.drop (off + ys.length + zs.length) := by
    rw [← drop_drop, drop_left' hfront, drop_drop]
  unfold overlay
  rw [take_left' hfront, hdrop, length_append, ← Nat.add_assoc,
    append_assoc (take off xs) ys zs]

/-- A piece of an overlay that is the piece laid over. -/
theorem slice_overlay (h : off ≤ xs.length) (ys : List β) :
    ((overlay xs off ys).drop off).take ys.length = ys := by
  rw [overlay, append_assoc, drop_left' (length_take_of_le h), take_left]

/-- A piece before it. -/
theorem slice_overlay_of_le (h : off ≤ xs.length) (hm : m + n ≤ off)
    (ys : List β) : ((overlay xs off ys).drop m).take n = (xs.drop m).take n := by
  have hlen : (xs.take off).length = off := length_take_of_le h
  rw [overlay, append_assoc, drop_append_of_le_length (by omega),
    take_append_of_le_length (by rw [length_drop]; omega), drop_take, take_take,
    Nat.min_eq_left (by omega)]

/-- A piece behind it. -/
theorem slice_overlay_of_ge (h : off ≤ xs.length) {ys : List β}
    (hm : off + ys.length ≤ m) : ((overlay xs off ys).drop m).take n = (xs.drop m).take n := by
  obtain ⟨k, rfl⟩ := Nat.exists_eq_add_of_le hm
  have hfront : (xs.take off ++ ys).length = off + ys.length := by
    rw [length_append, length_take_of_le h]
  rw [overlay, ← drop_drop, drop_left' hfront, drop_drop]

/-- An overlay of strings that are given by functions. -/
theorem overlay_map_range (hm : off ≤ m) (f src : ℕ → β) :
    overlay ((range m).map f) off ((range n).map src) =
      (range (max m (off + n))).map (splice f off n src) := by
  apply ext_getElem
  · rw [length_overlay (by simpa using hm)]
    simp
  · intro k hk hk'
    rw [length_overlay (by simpa using hm)] at hk
    simp only [length_map, length_range] at hk hk'
    simp only [overlay, getElem_append, getElem_take, getElem_drop, getElem_map,
      getElem_range, length_append, length_take, length_map, length_range]
    split
    · grind [splice_of_lt, splice_of_mem]
    · rw [splice_of_ge (by omega)]
      congr 1
      omega

end Splice

section LittleEndian

variable {f g : ℕ → BitVec 8} {k n : ℕ}

/-- Byte `j` of a number. -/
def leByte (n j : ℕ) : BitVec 8 := BitVec.ofNat 8 (n / 256 ^ j)

/-- The number that the first `k` bytes make. -/
def leValue (f : ℕ → BitVec 8) : ℕ → ℕ
  | 0 => 0
  | k + 1 => leValue f k + 256 ^ k * (f k).toNat

theorem leValue_congr (h : ∀ j < k, f j = g j) : leValue f k = leValue g k := by
  induction k with
  | zero => rfl
  | succ k ih =>
    rw [leValue, leValue, ih fun j hj ↦ h j (lt_succ_of_lt hj), h k (lt_succ_self k)]

theorem leValue_leByte (n k : ℕ) : leValue (leByte n) k = n % 256 ^ k := by
  induction k with
  | zero => rw [leValue, pow_zero, mod_one]
  | succ k ih =>
    have hbyte : (leByte n k).toNat = n / 256 ^ k % 256 := by
      rw [leByte, BitVec.toNat_ofNat]
    rw [leValue, ih, hbyte, pow_succ, mod_mul]

theorem leValue_leByte_of_lt (h : n < 256 ^ k) : leValue (leByte n) k = n := by
  rw [leValue_leByte, mod_eq_of_lt h]

theorem leValue_eq_zero (h : ∀ j < k, f j = 0) : leValue f k = 0 := by
  induction k with
  | zero => rfl
  | succ k ih =>
    rw [leValue, ih fun j hj ↦ h j (lt_succ_of_lt hj), h k (lt_succ_self k)]
    rfl

end LittleEndian

end Xv6Mmap.Library.Bytes
