import Mathlib.Algebra.Order.Group.Nat
import Mathlib.Data.List.GetD
import Mathlib.Logic.Function.Basic

/-!
# Tables of slots

A finite map kept in a list of slots.  A slot is free or has a key, and no two slots have the same
key.  The map is changed by storing to one slot, which may be the one behind the last.
-/

namespace Xv6Mmap.Library.SlotTable

open Function List Option

variable {α κ : Type*} (key : α → Option κ)

/-- No two slots have the same key. -/
def Distinct (es : List α) : Prop :=
  ∀ (j k : ℕ) a b x, es[j]? = some a → es[k]? = some b → key a = some x → key b = some x → j = k

/-- The slot with a key. -/
def lookup [DecidableEq κ] (es : List α) (x : κ) : Option α := es.find? fun a ↦ key a = some x

/-- Store to slot `k`, or behind the last slot. -/
def store (es : List α) (k : ℕ) (a : α) : List α := if k < es.length then es.set k a else es ++ [a]

variable {key} {es : List α} {a b : α} {x : κ} {k : ℕ}

theorem getElem?_store (hk : k ≤ es.length) (a : α) (j : ℕ) :
    (store es k a)[j]? = if j = k then some a else es[j]? := by
  unfold store
  split
  · grind
  · grind

theorem length_store (hk : k ≤ es.length) (a : α) :
    (store es k a).length = max es.length (k + 1) := by grind [store]

section Lookup

variable [DecidableEq κ]

theorem lookup_eq_none : lookup key es x = none ↔ ∀ (j : ℕ) a, es[j]? = some a → key a ≠ some x := by
  unfold lookup
  rw [List.find?_eq_none]
  constructor
  · intro h j a hj
    have hne := h a (mem_of_getElem? hj)
    simpa using hne
  · intro h a ha
    obtain ⟨j, hj⟩ := mem_iff_getElem?.mp ha
    simpa using h j a hj

/-- In a table the slot with a key is found. -/
theorem Distinct.lookup_eq_some (h : Distinct key es) :
    lookup key es x = some a ↔ key a = some x ∧ ∃ j : ℕ, es[j]? = some a := by
  unfold lookup
  constructor
  · intro hfind
    have hkey := List.find?_some hfind
    exact ⟨by simpa using hkey, mem_iff_getElem?.mp (mem_of_find?_eq_some hfind)⟩
  · rintro ⟨hkey, j, hj⟩
    cases hfind : es.find? fun b ↦ key b = some x with
    | none =>
      have hne := List.find?_eq_none.mp hfind a (mem_of_getElem? hj)
      exact absurd hkey (by simpa using hne)
    | some b =>
      have hkey' : key b = some x := by simpa using List.find?_some hfind
      obtain ⟨k, hk⟩ := mem_iff_getElem?.mp (mem_of_find?_eq_some hfind)
      have heq := h j k a b x hj hk hkey hkey'
      rw [heq, hk] at hj
      exact hj

/-- Slot `k` is free, or it is the one behind the last. -/
def Vacant (key : α → Option κ) (es : List α) (k : ℕ) : Prop :=
  k ≤ es.length ∧ ∀ b, es[k]? = some b → key b = none

omit [DecidableEq κ] in
/-- The slots apart from slot `k` keep their keys. -/
theorem Distinct.store (h : Distinct key es) (hk : k ≤ es.length)
    (hnew : ∀ x, key a = some x → ∀ (j : ℕ) b, es[j]? = some b → key b = some x → j = k) :
    Distinct key (store es k a) := by
  intro i j b c x hi hj hb hc
  rw [getElem?_store hk] at hi hj
  split at hi
  · grind
  · split at hj
    · rename_i hne _
      cases hj
      exact absurd (hnew x hc i b hi hb) hne
    · exact h i j b c x hi hj hb hc

/-- A new key is stored in a slot that is vacant. -/
theorem Distinct.lookup_store (h : Distinct key es) (hk : Vacant key es k) (ha : key a = some x)
    (hnew : lookup key es x = none) : Distinct key (SlotTable.store es k a) ∧
      lookup key (SlotTable.store es k a) = update (lookup key es) x (some a) := by
  have hdistinct : Distinct key (SlotTable.store es k a) := by
    apply h.store hk.1
    intro y hy j b hj hb
    rw [ha, some_inj] at hy
    rw [← hy] at hb
    exact absurd hb (lookup_eq_none.mp hnew j b hj)
  refine ⟨hdistinct, ?_⟩
  funext y
  by_cases hy : y = x
  · rw [hy, update_self, hdistinct.lookup_eq_some]
    refine ⟨ha, k, ?_⟩
    rw [getElem?_store hk.1, if_pos rfl]
  · rw [update_of_ne hy]
    ext b
    rw [hdistinct.lookup_eq_some, h.lookup_eq_some, and_congr_right_iff]
    intro hb
    apply exists_congr
    intro j
    rw [getElem?_store hk.1]
    by_cases hj : j = k
    · rw [if_pos hj]
      refine iff_of_false ?_ ?_
      · rintro ⟨rfl⟩
        rw [ha, some_inj] at hb
        exact hy hb.symm
      · intro hslot
        rw [hk.2 b (hj ▸ hslot)] at hb
        cases hb
    · rw [if_neg hj]

/-- A key is taken out of the table. -/
theorem Distinct.lookup_clear (h : Distinct key es) (hk : es[k]? = some b) (hb : key b = some x)
    (ha : key a = none) : Distinct key (SlotTable.store es k a) ∧
      lookup key (SlotTable.store es k a) = update (lookup key es) x none := by
  have hle : k ≤ es.length := (List.getElem?_eq_some_iff.mp hk).1.le
  have hdistinct : Distinct key (SlotTable.store es k a) := by
    apply h.store hle
    intro y hy
    rw [ha] at hy
    cases hy
  refine ⟨hdistinct, ?_⟩
  funext y
  by_cases hy : y = x
  · rw [hy, update_self, lookup_eq_none]
    intro j c hj hc
    rw [getElem?_store hle] at hj
    split at hj
    · cases hj
      rw [ha] at hc
      cases hc
    · rename_i hne
      exact hne (h j k c b x hj hk hc hb)
  · rw [update_of_ne hy]
    ext c
    rw [hdistinct.lookup_eq_some, h.lookup_eq_some, and_congr_right_iff]
    intro hc
    apply exists_congr
    intro j
    rw [getElem?_store hle]
    by_cases hj : j = k
    · grind
    · rw [if_neg hj]

end Lookup

end Xv6Mmap.Library.SlotTable
