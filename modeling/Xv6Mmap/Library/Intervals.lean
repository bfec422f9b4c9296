import Mathlib.Data.List.Pairwise
import Mathlib.Data.Set.Lattice
import Mathlib.Order.CompletePartialOrder
import Mathlib.Order.Interval.Set.Basic

/-!
# Lists of disjoint intervals in increasing order

The items of a list each cover the half-open interval from `lo` to `hi`.  The list is laid out when
every interval is non-empty and each ends before the next one begins.  Inserting an item into a gap,
dropping items and shrinking items all keep a list laid out.
-/

namespace Xv6Mmap.Library.Intervals

open List

variable {ρ α : Type*} [LinearOrder α]

/-- Non-empty intervals, each ending before the next one begins. -/
structure LaidOut (lo hi : ρ → α) (items : List ρ) : Prop where
  nonempty : ∀ item ∈ items, lo item < hi item
  ordered : items.Pairwise fun a b ↦ hi a ≤ lo b

namespace LaidOut

variable {lo hi : ρ → α} {items before after : List ρ} {item : ρ}

theorem nil (lo hi : ρ → α) : LaidOut lo hi [] :=
  ⟨by simp, List.Pairwise.nil⟩

/-- The items are strictly increasing in their lower ends. -/
theorem strictlyIncreasing (h : LaidOut lo hi items) : items.Pairwise fun a b ↦ lo a < lo b := by
  refine h.ordered.imp_of_mem ?_
  intro a b ha _ hab
  exact (h.nonempty a ha).trans_le hab

theorem nodup (h : LaidOut lo hi items) : items.Nodup := by
  refine h.strictlyIncreasing.imp ?_
  rintro a b hab rfl
  exact lt_irrefl _ hab

theorem insert (h : LaidOut lo hi (before ++ after)) (hitem : lo item < hi item)
    (hbefore : ∀ a ∈ before, hi a ≤ lo item) (hafter : ∀ b ∈ after, hi item ≤ lo b) :
    LaidOut lo hi (before ++ item :: after) := by
  obtain ⟨hfirst, hsecond, hcross⟩ := pairwise_append.mp h.ordered
  constructor
  · grind [h.nonempty]
  · refine pairwise_append.mpr ⟨hfirst, List.Pairwise.cons hafter hsecond, ?_⟩
    intro a ha b hb
    rcases mem_cons.mp hb with rfl | hb
    · exact hbefore a ha
    · exact hcross a ha b hb

/-- Dropping some items and shrinking others. -/
theorem filterMap (h : LaidOut lo hi items) (f : ρ → Option ρ)
    (hshrink : ∀ r ∈ items, ∀ r', f r = some r' → lo r ≤ lo r' ∧ lo r' < hi r' ∧ hi r' ≤ hi r) :
    LaidOut lo hi (items.filterMap f) := by
  constructor
  · grind
  · grind [h.ordered.imp_of_mem]

end LaidOut

end Xv6Mmap.Library.Intervals
