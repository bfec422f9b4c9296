import Mathlib.Data.List.Nodup

/-!
# Who owns which resource

Resources are either on a free list or held by owners.  The holding is sound when the free list has
no duplicates, no held resource is on it, and two owners hold the same resource only if they are
allowed to share it.
-/

namespace Xv6Mmap.Library.Ownership

open List

variable {ω φ : Type*}

structure Sound (free : List φ) (owned : ω → φ → Prop) (sharing : ω → ω → Prop) : Prop where
  nodup : free.Nodup
  not_free : ∀ o f, owned o f → f ∉ free
  exclusive : ∀ o o' f, owned o f → owned o' f → o = o' ∨ sharing o o'

namespace Sound

variable {free : List φ} {owned owned' : ω → φ → Prop} {sharing sharing' : ω → ω → Prop} {f : φ}

/-- Owners may give up what they hold. -/
theorem mono (h : Sound free owned sharing) (hsub : ∀ o f, owned' o f → owned o f) :
    Sound free owned' sharing := by
  refine ⟨h.nodup, ?_, ?_⟩
  · intro o f ho
    exact h.not_free o f (hsub o f ho)
  · intro o o' f ho ho'
    exact h.exclusive o o' f (hsub o f ho) (hsub o' f ho')

/-- A sharing relation may be replaced by one that covers what is in fact shared. -/
theorem of_sharing (h : Sound free owned sharing)
    (hshared : ∀ o o' f, o ≠ o' → owned o f → owned o' f → sharing o o' → sharing' o o') :
    Sound free owned sharing' := by
  refine ⟨h.nodup, h.not_free, ?_⟩
  intro o o' f ho ho'
  by_cases heq : o = o'
  · exact Or.inl heq
  · grind [h.exclusive]

/-- Taking the first resource off the free list: nobody holds it. -/
theorem pop (h : Sound (f :: free) owned sharing) :
    Sound free owned sharing ∧ f ∉ free ∧ ∀ o, ¬ owned o f := by
  obtain ⟨hfresh, hnodup⟩ := nodup_cons.mp h.nodup
  refine ⟨⟨hnodup, ?_, h.exclusive⟩, hfresh, ?_⟩
  · intro o g ho hg
    exact h.not_free o g ho (mem_cons_of_mem f hg)
  · intro o ho
    exact h.not_free o f ho mem_cons_self

/-- Putting a resource that nobody holds any more on the free list. -/
theorem push (h : Sound free owned sharing) (hfresh : f ∉ free)
    (hsub : ∀ o g, owned' o g → owned o g) (hnobody : ∀ o, ¬ owned' o f) :
    Sound (f :: free) owned' sharing := by
  have hmono := h.mono hsub
  refine ⟨nodup_cons.mpr ⟨hfresh, h.nodup⟩, ?_, hmono.exclusive⟩
  intro o g ho hg
  rcases mem_cons.mp hg with rfl | hg
  · exact hnobody o ho
  · exact hmono.not_free o g ho hg

/-- Handing a resource to an owner, where all who hold it already may share it with the new one. -/
theorem assign (h : Sound free owned sharing) {o : ω} (hfresh : f ∉ free)
    (hothers : ∀ o', owned o' f → o' = o ∨ (sharing o o' ∧ sharing o' o))
    (hsub : ∀ o' g, owned' o' g → owned o' g ∨ (o' = o ∧ g = f)) :
    Sound free owned' sharing := by
  refine ⟨h.nodup, ?_, ?_⟩
  · grind [h.not_free]
  · grind [h.exclusive]

end Sound

end Xv6Mmap.Library.Ownership
