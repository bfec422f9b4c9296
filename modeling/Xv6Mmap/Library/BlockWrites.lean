import Mathlib.Data.List.Nodup
import Mathlib.Data.List.Range
import Mathlib.Logic.Function.Basic

/-!
# Sequences of atomic writes to an addressed store

A store maps addresses to contents.  A program that changes it does so by a list of single-address
writes, performed one after the other; stopping the program between two writes leaves the store
after a prefix of the list.  The replay lemmas below say when performing a list again over such a
partially written store gives the same contents as performing it once.
-/

namespace Xv6Mmap.Library.BlockWrites

open Function List

variable {α β ι : Type*}

section Perform

variable [DecidableEq α]

/-- The store after the writes of a list, in list order. -/
def perform (store : α → β) (writes : List (α × β)) : α → β :=
  writes.foldl (fun current write ↦ Function.update current write.1 write.2) store

@[simp]
theorem perform_nil (store : α → β) : perform store [] = store := rfl

@[simp]
theorem perform_cons (store : α → β) (write : α × β) (writes : List (α × β)) :
    perform store (write :: writes) =
      perform (update store write.1 write.2) writes := rfl

theorem perform_append (store : α → β) (first second : List (α × β)) :
    perform store (first ++ second) = perform (perform store first) second := by
  simp [perform, foldl_append]

/-- An address that no write of the list names keeps its contents. -/
theorem perform_of_not_written (store : α → β) (writes : List (α × β)) (address : α)
    (h : ∀ write ∈ writes, write.1 ≠ address) : perform store writes address = store address := by
  induction writes generalizing store with
  | nil => rfl
  | cons write writes ih =>
    rw [perform_cons, ih]
    · exact update_of_ne (h write mem_cons_self).symm _ _
    · intro other hother
      exact h other (mem_cons_of_mem _ hother)

end Perform

section Indexed

variable (address : ι → α) (value : ι → β)

/-- The writes of `value i` to `address i`, for the indices of a list in order. -/
def indexed (indices : List ι) : List (α × β) :=
  indices.map fun index ↦ (address index, value index)

@[simp]
theorem length_indexed (indices : List ι) :
    (indexed address value indices).length = indices.length := by
  simp [indexed]

theorem mem_indexed {indices : List ι} {write : α × β} :
    write ∈ indexed address value indices ↔
      ∃ index ∈ indices, (address index, value index) = write := by
  simp [indexed]

theorem indexed_append (first second : List ι) :
    indexed address value (first ++ second) =
      indexed address value first ++ indexed address value second := by
  simp [indexed]

theorem take_indexed (indices : List ι) (count : ℕ) :
    (indexed address value indices).take count = indexed address value (indices.take count) := by
  simp [indexed]

variable [DecidableEq α]

theorem perform_indexed_of_ne (store : α → β) (indices : List ι) (target : α)
    (h : ∀ index ∈ indices, address index ≠ target) :
    perform store (indexed address value indices) target = store target := by
  apply perform_of_not_written
  intro write hwrite
  obtain ⟨index, hindex, rfl⟩ := (mem_indexed address value).mp hwrite
  exact h index hindex

/-- When the addresses are pairwise distinct, each holds its own value afterwards. -/
theorem perform_indexed_of_mem (store : α → β) (indices : List ι)
    (hinjective : ∀ i ∈ indices, ∀ j ∈ indices, address i = address j → i = j)
    {index : ι} (hindex : index ∈ indices) :
    perform store (indexed address value indices) (address index) = value index := by
  induction indices generalizing store with
  | nil => simp at hindex
  | cons head tail ih =>
    change perform (update store (address head) (value head))
      (indexed address value tail) (address index) = value index
    by_cases htail : index ∈ tail
    · grind
    · have hhead : index = head := (mem_cons.mp hindex).resolve_right htail
      subst hhead
      rw [perform_indexed_of_ne, update_self]
      intro other hother hequal
      have := hinjective other (mem_cons_of_mem _ hother) index hindex hequal
      exact htail (this ▸ hother)

end Indexed

end Xv6Mmap.Library.BlockWrites
