import Xv6Mmap.Library.Prog

/-!
# Programs that record events

A traced program keeps a list of events beside its state.  `Erases c d` says that `c` is the program
`d` but for the events: both return the same, or halt for the same reason, in the same state.  What
is proved about the events of `c` is then a fact about the calls that `d` makes.
-/

namespace Xv6Mmap.Library

/-- A program over `σ` that records events of `τ`. -/
abbrev Traced (ε σ τ α : Type) := Prog ε (σ × List τ) α

namespace Traced

open Prog

variable {ε σ τ α β : Type} {c : Traced ε σ τ α} {d : Prog ε σ α} {f : α → Traced ε σ τ β}
  {R : β → σ × List τ → Prop}

/-- A program that records nothing. -/
def lift (c : Prog ε σ α) : Traced ε σ τ α := fun x ↦ ((c x.1).1, ((c x.1).2, x.2))

def record (e : τ) : Traced ε σ τ Unit := modify fun x ↦ (x.1, x.2 ++ [e])

/-- The events of a run, in order, up to the point where it returns or halts. -/
def events (c : Traced ε σ τ α) (s : σ) : List τ := (c (s, [])).2.2

/-! ## Forgetting the events -/

def Erases (c : Traced ε σ τ α) (d : Prog ε σ α) : Prop :=
  ∀ x, ((c x).1, (c x).2.1) = d x.1

theorem erases_lift (c : Prog ε σ α) : Erases (lift c : Traced ε σ τ α) c := fun _ ↦ rfl

theorem erases_pure (a : α) : Erases (pure a : Traced ε σ τ α) (pure a) := fun _ ↦ rfl

theorem Erases.bind {g : α → Prog ε σ β} (hc : Erases c d) (hf : ∀ a, Erases (f a) (g a)) :
    Erases (c >>= f) (d >>= g) := by
  intro x
  have hfirst := hc x
  rcases hrun : c x with ⟨outcome, y⟩
  rw [hrun] at hfirst
  rw [bind_apply, bind_apply, hrun, ← hfirst]
  cases outcome with
  | ok a => exact hf a y
  | error e => rfl

/-- Recording an event changes nothing else. -/
theorem Erases.record_bind (e : τ) (h : Erases c d) :
    Erases (record e >>= fun _ ↦ c) d :=
  fun x ↦ h (x.1, x.2 ++ [e])

theorem Erases.ite {c' : Traced ε σ τ α} {d' : Prog ε σ α} (b : Prop) [Decidable b]
    (h : Erases c d) (h' : Erases c' d') :
    Erases (if b then c else c') (if b then d else d') := by
  by_cases hb : b
  · rw [if_pos hb, if_pos hb]
    exact h
  · rw [if_neg hb, if_neg hb]
    exact h'

/-- A run of the program itself that returns, seen with its events. -/
theorem Erases.eq_ok (h : Erases c d) {s t : σ} {a : α}
    (hrun : d s = (.ok a, t)) : c (s, []) = (.ok a, (t, events c s)) := by
  have hsame := h (s, [])
  rw [hrun, Prod.mk.injEq] at hsame
  exact Prod.ext hsame.1 (Prod.ext hsame.2 rfl)

/-! ## What the events are -/

/-- A judgment about a program, at a given list of events. -/
theorem triple_lift {P : σ → Prop} {c : Prog ε σ α} {Q : α → σ → Prop} {E : ε → σ → Prop}
    (h : Triple P c Q E) (l : List τ) :
    Triple (fun x ↦ P x.1 ∧ x.2 = l) (lift c : Traced ε σ τ α) (fun a x ↦ Q a x.1 ∧ x.2 = l)
      fun e x ↦ E e x.1 ∧ x.2 = l := by
  rintro ⟨s, l'⟩ ⟨hs, rfl⟩
  have hrun := h s hs
  rw [lift]
  rcases hc : c s with ⟨outcome, t⟩
  rw [hc] at hrun
  cases outcome with
  | ok a | error e => exact ⟨hrun, rfl⟩

/-- A program that records nothing may do anything else. -/
theorem triple_lift_bind {L : List τ → Prop} {c : Prog ε σ α}
    (h : ∀ a, Triple (fun x ↦ L x.2) (f a) R fun _ _ ↦ True) :
    Triple (fun x ↦ L x.2) (lift c >>= f) R fun _ _ ↦ True := by
  rintro ⟨s, l⟩ hl
  rw [bind_apply, lift]
  dsimp only
  rcases c s with ⟨outcome, t⟩
  cases outcome with
  | ok a => exact h a (t, l) hl
  | error e => trivial

theorem triple_lift_get_bind {P : σ × List τ → Prop} {f : σ → Traced ε σ τ β}
    {E : ε → σ × List τ → Prop}
    (h : ∀ x, P x → Triple (· = x) (f x.1) R E) : Triple P (lift get >>= f) R E :=
  fun x hx ↦ h x hx x rfl

end Traced

end Xv6Mmap.Library
