import Mathlib.Data.List.Basic
import Mathlib.Data.List.Induction
import Mathlib.Data.List.Nodup
import Mathlib.Logic.Function.Basic

/-!
# Queues linked through their elements

A head and a link in every element make a queue.  An element is appended by following the links to
the one that is null and writing it there.
-/

namespace Xv6Mmap.Library

open Function List

variable {α : Type*}

/-- The head of a queue and the links of the elements. -/
structure Links (α : Type*) where
  head : Option α
  next : α → Option α

namespace Links

/-- Read a link: `none` is the head, `some a` the link of `a`. -/
def read (q : Links α) : Option α → Option α
  | none => q.head
  | some a => q.next a

def write [DecidableEq α] (q : Links α) (target : Option α) : Option α → Links α
  | none => { q with head := target }
  | some a => { q with next := Function.update q.next a target }

/-- Follow at most `k` links to the one that is null. -/
def lastLink (q : Links α) : ℕ → Option α → Option (Option α)
  | 0, _ => none
  | k + 1, link =>
    match q.read link with
    | none => some link
    | some a => q.lastLink k (some a)

/-- Following the links from `start` visits the elements of a list and comes to an end. -/
def From (next : α → Option α) : Option α → List α → Prop
  | start, [] => start = none
  | start, a :: l => start = some a ∧ From next (next a) l

/-- The queue holds the elements of a list. -/
def Spells (q : Links α) (l : List α) : Prop := From q.next q.head l

variable {q : Links α} {next next' : α → Option α} {start : Option α} {l : List α} {a b : α}

theorem From.congr (h : From next start l) (hnext : ∀ a ∈ l, next' a = next a) :
    From next' start l := by
  induction l generalizing start with
  | nil => exact h
  | cons a l ih =>
    refine ⟨h.1, ?_⟩
    rw [hnext a mem_cons_self]
    exact ih h.2 fun b hb ↦ hnext b (mem_cons_of_mem a hb)

theorem Spells.head_eq (h : q.Spells l) : q.head = l.head? := by
  cases l with
  | nil => exact h
  | cons a l => exact h.1

theorem Spells.pop (h : q.Spells (a :: l)) : ({ q with head := q.next a } : Links α).Spells l :=
  h.2

theorem lastLink_eq {k : ℕ} (link : Option α) (h : From q.next (q.read link) l)
    (hk : l.length < k) : q.lastLink k link = some (l.getLast?.or link) := by
  induction l generalizing link k with
  | nil =>
    obtain ⟨k, rfl⟩ := Nat.exists_eq_succ_of_ne_zero (Nat.ne_of_gt hk)
    rw [lastLink, h]
    rfl
  | cons a l ih =>
    obtain ⟨k, rfl⟩ := Nat.exists_eq_succ_of_ne_zero (Nat.ne_of_gt (Nat.zero_lt_of_lt hk))
    have hlast := ih (some a) h.2 (Nat.lt_of_succ_lt_succ hk)
    rw [lastLink, h.1]
    dsimp only
    rw [hlast]
    cases l with
    | nil => rfl
    | cons b l => simp [List.getLast?_cons]

variable [DecidableEq α]

/-- Write an element into the null link of the last one. -/
theorem From.append (h : From next start (l ++ [a])) (hnodup : (l ++ [a]).Nodup)
    (hb : b ∉ l ++ [a]) (hnull : next b = none) :
    From (update next a (some b)) start (l ++ [a] ++ [b]) := by
  induction l generalizing start with
  | nil =>
    have hne : b ≠ a := fun heq ↦ hb (heq ▸ mem_singleton_self a)
    refine ⟨h.1, ?_, ?_⟩
    · rw [update_self]
    · rw [update_of_ne hne]
      exact hnull
  | cons c l ih =>
    rw [cons_append] at hnodup hb
    have hne : c ≠ a := by grind
    refine ⟨h.1, ?_⟩
    rw [update_of_ne hne]
    exact ih h.2 (nodup_cons.mp hnodup).2 fun hmem ↦ hb (mem_cons_of_mem c hmem)

theorem Spells.append (h : q.Spells l) (hnodup : l.Nodup) (hb : b ∉ l) (hnull : q.next b = none) :
    (q.write (some b) l.getLast?).Spells (l ++ [b]) := by
  induction l using List.reverseRecOn with
  | nil => exact ⟨rfl, hnull⟩
  | append_singleton l a _ =>
    rw [List.getLast?_append, List.getLast?_singleton]
    exact From.append h hnodup hb hnull

end Links

end Xv6Mmap.Library
