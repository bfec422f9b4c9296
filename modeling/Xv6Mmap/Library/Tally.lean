import Mathlib.Algebra.BigOperators.Ring.Finset
import Mathlib.Algebra.Order.BigOperators.Group.Finset

/-!
# Tallies over a family of processes

Every process is in a phase, and a phase has a weight.  The tally is the sum of the weights of all
processes; a move of one process changes it by what its own weight changes.
-/

namespace Xv6Mmap.Library

open Function Finset

variable {ι φ : Type*} [Fintype ι]

/-- The sum of the weights of the phases that the processes are in. -/
def tally (weight : φ → ℕ) (phases : ι → φ) : ℕ := ∑ i, weight (phases i)

variable {weight weight' : φ → ℕ} {phases : ι → φ}

theorem le_tally (weight : φ → ℕ) (phases : ι → φ) (i : ι) :
    weight (phases i) ≤ tally weight phases :=
  single_le_sum (f := fun j ↦ weight (phases j)) (fun _ _ ↦ Nat.zero_le _)
    (mem_univ i)

theorem tally_eq_zero (h : ∀ i, weight (phases i) = 0) : tally weight phases = 0 :=
  sum_eq_zero fun i _ ↦ h i

theorem tally_le_mul {c : ℕ} (h : ∀ p, weight p ≤ c * weight' p) :
    tally weight phases ≤ c * tally weight' phases := by
  calc tally weight phases ≤ ∑ i, c * weight' (phases i) := sum_le_sum fun i _ ↦ h (phases i)
    _ = c * tally weight' phases := (mul_sum _ _ _).symm

theorem tally_update [DecidableEq ι] (i : ι) (next : φ) :
    tally weight (update phases i next) + weight (phases i) =
      tally weight phases + weight next := by
  have hsame : ∀ j ∈ univ.erase i,
      weight (update phases i next j) = weight (phases j) := by
    intro j hj
    rw [update_of_ne (ne_of_mem_erase hj)]
  have hnext := add_sum_erase univ
    (fun j ↦ weight (update phases i next j)) (mem_univ i)
  have hold := add_sum_erase univ (fun j ↦ weight (phases j)) (mem_univ i)
  rw [sum_congr rfl hsame, update_self] at hnext
  rw [tally, tally, ← hnext, ← hold]
  omega

end Xv6Mmap.Library
