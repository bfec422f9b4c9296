import Mathlib.Logic.Function.Basic

/-!
# Locks that are recorded in the phases of processes

Every process is in a phase, and some phases are those of a process that has a lock.  The lock's
holder and the phases agree if the holder is the one process in such a phase.
-/

namespace Xv6Mmap.Library

open Function Option

variable {ι φ : Type*} {has : φ → Bool} {phases : ι → φ} {holder : Option ι} {p q : ι}

/-- The holder of a lock is the process in a phase that has it. -/
def Held (has : φ → Bool) (phases : ι → φ) (holder : Option ι) : Prop :=
  ∀ p, holder = some p ↔ has (phases p) = true

theorem Held.nobody (h : ∀ p, has (phases p) = false) : Held has phases none := by
  intro p
  rw [h p]
  exact iff_of_false (some_ne_none p).symm Bool.false_ne_true

theorem Held.unique (h : Held has phases holder) (hp : has (phases p) = true)
    (hq : has (phases q) = true) : p = q :=
  Option.some.inj (((h p).mpr hp).symm.trans ((h q).mpr hq))

theorem Held.free (h : Held has phases none) (p : ι) : has (phases p) = false := by
  rw [← Bool.not_eq_true]
  intro hp
  cases (h p).mpr hp

/-- The phases change, but not who has the lock. -/
theorem Held.congr {phases' : ι → φ} (h : Held has phases holder)
    (hsame : ∀ q, has (phases' q) = has (phases q)) : Held has phases' holder := by
  intro q
  rw [hsame q]
  exact h q

variable [DecidableEq ι] {next : φ}

theorem Held.keep (h : Held has phases holder) (hsame : has next = has (phases p)) :
    Held has (update phases p next) holder := by grind [h.congr, update_apply]

theorem Held.acquire (h : Held has phases none) (hnext : has next = true) :
    Held has (update phases p next) (some p) := by
  intro q
  by_cases hq : q = p
  · rw [hq, update_self]
    exact iff_of_true rfl hnext
  · rw [update_of_ne hq, h.free q]
    exact iff_of_false (fun heq ↦ hq (Option.some.inj heq).symm) Bool.false_ne_true

theorem Held.release (h : Held has phases holder) (hp : has (phases p) = true)
    (hnext : has next = false) : Held has (update phases p next) none := by
  intro q
  by_cases hq : q = p
  · rw [hq, update_self, hnext]
    exact iff_of_false (some_ne_none p).symm Bool.false_ne_true
  · rw [update_of_ne hq]
    exact iff_of_false (some_ne_none q).symm fun hhas ↦ hq (h.unique hhas hp)

end Xv6Mmap.Library
