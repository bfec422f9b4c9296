import Mathlib.Logic.Relation

/-!
# Runs of a deterministic labelled system

`step s a` is the state after the action `a` in state `s`, or `none` where the action cannot be
taken.  A guard singles out the runs all of whose steps meet a condition on the state before the
step; a property that holds initially and that every such step keeps holds all along these runs.
-/

namespace Xv6Mmap.Library.Runs

open Relation Option

variable {σ ι : Type*} (step : σ → ι → Option σ)

/-- No condition on the steps. -/
def unguarded : σ → ι → Prop := fun _ _ ↦ True

/-- From `s`, steps that meet the guard lead to `s'`. -/
def Reaches (guard : σ → ι → Prop) : σ → σ → Prop :=
  Relation.ReflTransGen fun s s' ↦ ∃ a, guard s a ∧ step s a = some s'

/-- Take the actions of a list one after the other. -/
def run : List ι → σ → Option σ
  | [], s => some s
  | a :: rest, s => (step s a).bind (run rest)

/-- Take the actions of a list one after the other, as long as each meets the guard. -/
def runIf (guard : σ → ι → Prop) [∀ s a, Decidable (guard s a)] : List ι → σ → Option σ
  | [], s => some s
  | a :: rest, s => if guard s a then (step s a).bind (runIf guard rest) else none

/-- The actions of a list, each of which meets the guard, lead from `s` to `s'`. -/
def Takes (guard : σ → ι → Prop) : List ι → σ → σ → Prop
  | [], s, s' => s' = s
  | a :: rest, s, s' => guard s a ∧ ∃ t, step s a = some t ∧ Takes guard rest t s'

variable {step} {guard : σ → ι → Prop} {s s' : σ} {actions : List ι}

theorem Reaches.invariant {I : σ → Prop} (h : Reaches step guard s s') (hinit : I s)
    (hstep : ∀ t a t', I t → guard t a → step t a = some t' → I t') : I s' := by
  induction h with
  | refl => exact hinit
  | tail _ hlast ih =>
    obtain ⟨a, hguard, hnext⟩ := hlast
    exact hstep _ a _ ih hguard hnext

/-- A run that meets a condition is a run. -/
theorem Reaches.unguard (h : Reaches step guard s s') : Reaches step unguarded s s' := by
  induction h with
  | refl => exact .refl
  | tail _ hlast ih =>
    obtain ⟨a, _, hnext⟩ := hlast
    exact ih.tail ⟨a, trivial, hnext⟩

theorem Takes.reaches (h : Takes step guard actions s s') : Reaches step guard s s' := by
  induction actions generalizing s with
  | nil =>
    cases h
    exact .refl
  | cons a rest ih =>
    obtain ⟨hguard, t, hstep, hrest⟩ := h
    exact .head ⟨a, hguard, hstep⟩ (ih hrest)

theorem reaches_of_run (h : run step actions s = some s') :
    Reaches step unguarded s s' := by
  induction actions generalizing s with
  | nil =>
    cases h
    exact .refl
  | cons a rest ih =>
    rw [run, bind_eq_some_iff] at h
    obtain ⟨next, hnext, hrest⟩ := h
    exact .head ⟨a, trivial, hnext⟩ (ih hrest)

theorem reaches_of_runIf [∀ s a, Decidable (guard s a)]
    (h : runIf step guard actions s = some s') : Reaches step guard s s' := by
  induction actions generalizing s with
  | nil =>
    cases h
    exact .refl
  | cons a rest ih =>
    rw [runIf] at h
    split at h
    · rename_i hguard
      obtain ⟨next, hnext, hrest⟩ := bind_eq_some_iff.mp h
      exact .head ⟨a, hguard, hnext⟩ (ih hrest)
    · cases h

theorem exists_reaches {F : σ → Prop} (actions : List ι) (h : ∃ t ∈ run step actions s, F t) :
    ∃ t, Reaches step unguarded s t ∧ F t := by
  obtain ⟨t, ht, hfacts⟩ := h
  exact ⟨t, reaches_of_run ht, hfacts⟩

/-- What is known of every state reached, of the state in which a run on given actions ends. -/
theorem exists_runIf [∀ s a, Decidable (guard s a)] {F P : σ → Prop}
    (h : ∃ t ∈ runIf step guard actions s, F t) (hend : ∀ t, Reaches step guard s t → F t → P t) :
    ∃ t, runIf step guard actions s = some t ∧ P t := by
  obtain ⟨t, ht, hfacts⟩ := h
  exact ⟨t, ht, hend t (reaches_of_runIf ht) hfacts⟩

end Xv6Mmap.Library.Runs
