import Mathlib.Logic.Function.Basic

/-!
# Resources that have one holder each

Every holder holds one resource or none.  No two holders hold the same resource, and a resource is
taken iff somebody holds it.
-/

namespace Xv6Mmap.Library

variable {ω β : Type*}

/-- No resource has two holders, and the resources taken are those that are held. -/
structure SoleHolders (holds : ω → Option β) (taken : β → Prop) : Prop where
  sole : ∀ o o' b, holds o = some b → holds o' = some b → o = o'
  taken : ∀ b, taken b ↔ ∃ o, holds o = some b

namespace SoleHolders

variable {holds holds' : ω → Option β} {taken taken' : β → Prop} {o : ω} {b : β}

theorem congr (h : SoleHolders holds taken) (hholds : ∀ o, holds' o = holds o)
    (htaken : ∀ b, taken' b ↔ taken b) : SoleHolders holds' taken' := by
  have hfun : holds' = holds := funext hholds
  subst hfun
  exact ⟨h.sole, fun b ↦ (htaken b).trans (h.taken b)⟩

/-- A holder that has none takes a resource that is not taken. -/
theorem take (h : SoleHolders holds taken) (hfree : ¬ taken b) (hnone : holds o = none)
    (hself : holds' o = some b) (hothers : ∀ p, p ≠ o → holds' p = holds p)
    (htaken : ∀ c, taken' c ↔ taken c ∨ c = b) : SoleHolders holds' taken' := by
  have hnobody : ∀ p, holds p ≠ some b := fun p hp ↦ hfree ((h.taken b).mpr ⟨p, hp⟩)
  constructor
  · intro p q c hp hq
    by_cases hpo : p = o
    · grind
    · grind [h.sole]
  · intro c
    rw [htaken c, h.taken c]
    constructor
    · grind
    · grind

/-- Some holders give up what they hold. -/
theorem release (h : SoleHolders holds taken) (leaves : ω → Prop)
    (hleaves : ∀ o, leaves o → holds' o = none) (hstay : ∀ o, ¬ leaves o → holds' o = holds o)
    (htaken : ∀ c, taken' c ↔ taken c ∧ ∀ o, leaves o → holds o ≠ some c) :
    SoleHolders holds' taken' := by
  have hold : ∀ {p c}, holds' p = some c → ¬ leaves p ∧ holds p = some c := by grind
  constructor
  · intro p q c hp hq
    exact h.sole p q c (hold hp).2 (hold hq).2
  · grind [h.taken, h.sole]

end SoleHolders

end Xv6Mmap.Library
