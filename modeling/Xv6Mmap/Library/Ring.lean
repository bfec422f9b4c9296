import Mathlib.Data.Nat.ModEq
import Mathlib.Data.BitVec

/-!
# Rings with free-running counters

A ring of `size` cells is addressed by counters that are never reduced: a counter stands for the
cell that is its remainder.  The counters are machine words and wrap, which does no harm as long as
`size` divides the number of words.
-/

namespace Xv6Mmap.Library.Ring

open BitVec List Nat

variable {α : Type*} {w size : ℕ} [NeZero size]

/-- The cell that a counter stands for. -/
def cell (size : ℕ) [NeZero size] (counter : BitVec w) : Fin size := Fin.ofNat size counter.toNat

/-- The cells from the counter `r` up to the counter `e` hold `contents`. -/
structure Holds (data : Fin size → α) (r e : BitVec w) (contents : List α) : Prop where
  count : e = r + BitVec.ofNat w contents.length
  fits : contents.length ≤ size
  cells : ∀ i (h : i < contents.length), data (cell size (r + BitVec.ofNat w i)) = contents[i]

variable {data : Fin size → α} {r e : BitVec w} {contents : List α} {x : α}

theorem Holds.nil (data : Fin size → α) (r : BitVec w) : Holds data r r [] where
  count := by simp
  fits := Nat.zero_le size
  cells i h := absurd h (Nat.not_lt_zero i)

theorem ofNat_succ (n : ℕ) : .ofNat w (n + 1) = .ofNat w n + 1#w :=
  ofNat_add n 1

theorem Holds.sub_eq (h : Holds data r e contents) : e - r = .ofNat w contents.length := by
  rw [h.count]
  exact add_sub_cancel_left r _

section Small

variable (hsmall : size < 2 ^ w)
include hsmall

/-- The counters tell the number of cells in use. -/
theorem Holds.toNat_sub (h : Holds data r e contents) : (e - r).toNat = contents.length := by
  rw [h.sub_eq, toNat_ofNat]
  exact mod_eq_of_lt (lt_of_le_of_lt h.fits hsmall)

theorem Holds.eq_iff (h : Holds data r e contents) : r = e ↔ contents = [] := by
  constructor
  · intro heq
    have hlength := h.toNat_sub hsmall
    rw [heq, sub_self] at hlength
    exact length_eq_zero_iff.mp hlength.symm
  · intro hnil
    rw [h.count, hnil]
    simp

theorem Holds.full_iff (h : Holds data r e contents) :
    e = r + .ofNat w size ↔ contents.length = size := by
  constructor
  · intro heq
    have hlength := h.toNat_sub hsmall
    rw [heq, add_sub_cancel_left, toNat_ofNat, mod_eq_of_lt hsmall] at hlength
    exact hlength.symm
  · intro hfull
    rw [h.count, hfull]

end Small

section Divides

variable (hdvd : size ∣ 2 ^ w)
include hdvd

theorem val_cell_add (r : BitVec w) (i : ℕ) :
    (cell size (r + .ofNat w i)).val = (r.toNat + i) % size := by
  calc (cell size (r + .ofNat w i)).val
      = (r.toNat + i % 2 ^ w) % 2 ^ w % size := by
        rw [cell, Fin.val_ofNat, toNat_add, toNat_ofNat]
    _ = (r.toNat + i) % 2 ^ w % size := by rw [add_mod_mod]
    _ = (r.toNat + i) % size := mod_mod_of_dvd _ hdvd

/-- Within one turn of the ring, different counters stand for different cells. -/
theorem cell_add_ne (r : BitVec w) {i j : ℕ} (hi : i < size) (hj : j < size) (hne : i ≠ j) :
    cell size (r + .ofNat w i) ≠ cell size (r + .ofNat w j) := by
  intro heq
  have hval := congrArg Fin.val heq
  rw [val_cell_add hdvd, val_cell_add hdvd] at hval
  have hmod : i % size = j % size := Nat.ModEq.add_left_cancel' r.toNat hval
  rw [mod_eq_of_lt hi, mod_eq_of_lt hj] at hmod
  exact hne hmod

/-- Store behind the last cell in use. -/
theorem Holds.push (h : Holds data r e contents) (hroom : contents.length < size) (x : α) :
    Holds (Function.update data (cell size e) x) r (e + 1#w) (contents ++ [x]) where
  count := by
    rw [length_append, length_singleton, ofNat_succ contents.length, ← add_assoc, ← h.count]
  fits := by
    rw [length_append, length_singleton]
    exact hroom
  cells i hi := by grind [h.cells, h.count, Function.update_apply, cell_add_ne]

end Divides

theorem Holds.head (h : Holds data r e (x :: contents)) : data (cell size r) = x := by
  have hfirst := h.cells 0 (zero_lt_succ _)
  simpa using hfirst

/-- Give the first cell in use back. -/
theorem Holds.pop (h : Holds data r e (x :: contents)) : Holds data (r + 1#w) e contents where
  count := by
    rw [h.count, length_cons, ofNat_succ, add_assoc, add_comm (BitVec.ofNat w _)]
  fits := le_of_succ_le h.fits
  cells i hi := by
    have hnext := h.cells (i + 1) (succ_lt_succ hi)
    rw [ofNat_succ, add_comm (BitVec.ofNat w i), ← add_assoc] at hnext
    exact hnext

/-- Give the last cell in use back. -/
theorem Holds.unpush (h : Holds data r e (contents ++ [x])) : Holds data r (e - 1#w) contents where
  count := by
    rw [h.count, length_append, length_singleton, ofNat_succ, ← add_assoc,
      add_sub_cancel_right]
  fits := by grind [h.fits]
  cells i hi := by grind [h.cells]

theorem Holds.last (h : Holds data r e (contents ++ [x])) : data (cell size (e - 1#w)) = x := by
  grind [h.cells, h.unpush.count]

end Xv6Mmap.Library.Ring
