import Mathlib.Data.List.Basic
import Mathlib.Data.List.Nodup
import Mathlib.Logic.Function.Basic

/-!
# Circular doubly linked lists

Every node has a link to the next node and a link to the previous one.  The nodes are a head, which
is no element (`none`), and the elements, so that no link is null.
-/

namespace Xv6Mmap.Library

open Function List

variable {α : Type*}

/-- The links of the head and of the elements. -/
structure RingLinks (α : Type*) where
  next : Option α → Option α
  prev : Option α → Option α

namespace RingLinks

/-- The head is linked to itself. -/
def empty : RingLinks α := ⟨fun _ ↦ none, fun _ ↦ none⟩

section Operations

variable [DecidableEq α]

/-- Link the neighbours of `a` to each other. -/
def unlink (r : RingLinks α) (a : α) : RingLinks α :=
  let r := { r with prev := update r.prev (r.next (some a)) (r.prev (some a)) }
  { r with next := update r.next (r.prev (some a)) (r.next (some a)) }

/-- Link `a` in between the head and the first element. -/
def pushFront (r : RingLinks α) (a : α) : RingLinks α :=
  let r := { r with next := update r.next (some a) (r.next none) }
  let r := { r with prev := update r.prev (some a) none }
  let r := { r with prev := update r.prev (r.next none) (some a) }
  { r with next := update r.next none (some a) }

end Operations

/-- Follow at most `k` links from a node to an element that passes a test, or to the head. -/
def find (link : Option α → Option α) (test : α → Bool) : ℕ → Option α → Option α
  | 0, _ => none
  | _ + 1, none => none
  | k + 1, some a => if test a then some a else find link test k (link (some a))

/-- The elements of a list lie between two nodes, linked in both directions. -/
def Path (r : RingLinks α) : Option α → List α → Option α → Prop
  | x, [], y => r.next x = y ∧ r.prev y = x
  | x, a :: l, y => r.next x = some a ∧ r.prev (some a) = x ∧ Path r (some a) l y

/-- The ring holds the elements of a list, each once. -/
def Holds (r : RingLinks α) (l : List α) : Prop := r.Path none l none ∧ l.Nodup

variable {r r' : RingLinks α} {x y : Option α} {l m : List α} {a : α} {test : α → Bool}

/-! ## Paths -/

theorem Path.congr (h : r.Path x l y) (hx : r'.next x = r.next x) (hy : r'.prev y = r.prev y)
    (hl : ∀ a ∈ l, r'.next (some a) = r.next (some a) ∧ r'.prev (some a) = r.prev (some a)) :
    r'.Path x l y := by
  induction l generalizing x with
  | nil => exact ⟨hx.trans h.1, hy.trans h.2⟩
  | cons a l ih =>
    have ha := hl a mem_cons_self
    exact ⟨hx.trans h.1, ha.2.trans h.2.1,
      ih h.2.2 ha.1 fun b hb ↦ hl b (mem_cons_of_mem a hb)⟩

theorem path_append : r.Path x (l ++ a :: m) y ↔ r.Path x l (some a) ∧ r.Path (some a) m y := by
  induction l generalizing x with
  | nil => exact and_assoc.symm
  | cons b l ih =>
    simp only [cons_append, Path, ih]
    tauto

/-- The path in the other direction. -/
theorem Path.reverse (h : r.Path x l y) : (RingLinks.mk r.prev r.next).Path y l.reverse x := by
  induction l generalizing x with
  | nil => exact ⟨h.2, h.1⟩
  | cons a l ih =>
    rw [reverse_cons, path_append]
    exact ⟨ih h.2.2, h.2.1, h.1⟩

/-- The node before the end of a path. -/
theorem Path.prev_end (h : r.Path x l y) : r.prev y = x ∨ ∃ a ∈ l, r.prev y = some a := by
  induction l generalizing x with
  | nil => exact Or.inl h.2
  | cons a l ih =>
    right
    rcases ih h.2.2 with hprev | ⟨b, hb, hprev⟩
    · exact ⟨a, mem_cons_self, hprev⟩
    · exact ⟨b, mem_cons_of_mem a hb, hprev⟩

theorem find_eq {k : ℕ} (h : r.Path x l none) (hk : l.length < k) :
    find r.next test k (r.next x) = l.find? test := by
  induction l generalizing x k with
  | nil =>
    obtain ⟨k, rfl⟩ := Nat.exists_eq_succ_of_ne_zero (Nat.ne_of_gt hk)
    rw [h.1]
    rfl
  | cons a l ih =>
    obtain ⟨k, rfl⟩ := Nat.exists_eq_succ_of_ne_zero (Nat.ne_of_gt (Nat.zero_lt_of_lt hk))
    have htail := ih h.2.2 (Nat.lt_of_succ_lt_succ hk)
    rw [h.1, find, List.find?_cons, htail]
    cases test a with
    | true | false => rfl

/-! ## The operations on a ring -/

theorem holds_empty : (empty : RingLinks α).Holds [] := ⟨⟨rfl, rfl⟩, nodup_nil⟩

theorem Holds.find_next {k : ℕ} (h : r.Holds l) (hk : l.length < k) :
    find r.next test k (r.next none) = l.find? test :=
  find_eq h.1 hk

theorem Holds.find_prev {k : ℕ} (h : r.Holds l) (hk : l.length < k) :
    find r.prev test k (r.prev none) = l.reverse.find? test := by
  apply find_eq h.1.reverse
  rw [length_reverse]
  exact hk

variable [DecidableEq α]

/-- A path that ended at `a` ends at the node after `a`. -/
theorem Path.unlink_left (h : r.Path x l (some a)) (hx : x ∉ l.map some)
    (hnext : r.next (some a) ∉ l.map some) (hne : r.next (some a) ≠ some a) (hl : l.Nodup) :
    (r.unlink a).Path x l (r.next (some a)) := by
  have hprev : update r.prev (r.next (some a)) (r.prev (some a)) (some a) =
      r.prev (some a) := update_of_ne hne.symm _ _
  induction l generalizing x with
  | nil =>
    constructor
    · simp only [unlink, hprev]
      rw [h.2, update_self]
    · simp only [unlink, h.2, update_self]
  | cons b l ih =>
    rw [map_cons, mem_cons, not_or] at hx hnext
    have htail := ih h.2.2 (fun hb ↦ (nodup_cons.mp hl).1 (by simpa using hb)) hnext.2
      (nodup_cons.mp hl).2
    refine ⟨?_, ?_, htail⟩
    · have hfar : x ≠ r.prev (some a) := by
        rcases h.2.2.prev_end with hend | ⟨c, hc, hend⟩
        · rw [hend]
          exact hx.1
        · rw [hend]
          exact fun heq ↦ hx.2 (heq ▸ mem_map_of_mem hc)
      simp only [unlink, hprev, update_of_ne hfar, h.1]
    · simp only [unlink, update_of_ne (.symm hnext.1), h.2.1]

theorem Holds.unlink (h : r.Holds (l ++ a :: m)) : (r.unlink a).Holds (l ++ m) := by
  obtain ⟨hpath, hnodup⟩ := h
  obtain ⟨hleft, hright⟩ := path_append.mp hpath
  have hdistinct := nodup_middle.mp hnodup
  obtain ⟨ha, hrest⟩ := nodup_cons.mp hdistinct
  rw [mem_append, not_or] at ha
  have hl := (nodup_append'.mp hrest).1
  have hdisjoint := (nodup_append'.mp hrest).2.2
  refine ⟨?_, hrest⟩
  cases m with
  | nil =>
    rw [append_nil]
    have hend := hleft.unlink_left (by simp) (by simp [hright.1]) (by simp [hright.1]) hl
    rwa [hright.1] at hend
  | cons b m =>
    have hb : b ∉ l := fun hb ↦ hdisjoint hb mem_cons_self
    have hab : a ≠ b := fun hab ↦ ha.2 (hab ▸ mem_cons_self)
    have hend := hleft.unlink_left (by simp) (by simpa [hright.1] using hb)
      (by simpa [hright.1] using Ne.symm hab) hl
    rw [hright.1] at hend
    rw [path_append]
    refine ⟨hend, ?_⟩
    -- The nodes from `b` on keep their links: `b` is the node after `a`, the node before is not
    -- among them.
    have hprev : update r.prev (some b) (r.prev (some a)) (some a) = r.prev (some a) :=
      update_of_ne (by simpa using hab) _ _
    have hfar : ∀ c ∈ b :: m, some c ≠ r.prev (some a) := by grind [hleft.prev_end]
    have hb' := (nodup_cons.mp (nodup_append'.mp hrest).2.1).1
    apply hright.2.2.congr
    · simp only [RingLinks.unlink, hright.1, hprev,
        update_of_ne (hfar b mem_cons_self)]
    · simp only [RingLinks.unlink, hright.1]
      exact update_of_ne (by simp) _ _
    · intro c hc
      have hcb : some c ≠ some b := fun heq ↦ hb' (Option.some.inj heq ▸ hc)
      simp only [RingLinks.unlink, hright.1, hprev, update_of_ne hcb,
        update_of_ne (hfar c (mem_cons_of_mem b hc)), and_self]

theorem Holds.pushFront (h : r.Holds l) (ha : a ∉ l) : (r.pushFront a).Holds (a :: l) := by
  obtain ⟨hpath, hnodup⟩ := h
  refine ⟨?_, nodup_cons.mpr ⟨ha, hnodup⟩⟩
  cases l with
  | nil =>
    refine ⟨?_, ?_, ?_, ?_⟩
    · simp [RingLinks.pushFront]
    · simp [RingLinks.pushFront, hpath.1]
    · simp [RingLinks.pushFront, hpath.1]
    · simp [RingLinks.pushFront, hpath.1]
  | cons b l =>
    have hab : a ≠ b := fun hab ↦ ha (hab ▸ mem_cons_self)
    refine ⟨?_, ?_, ?_, ?_, ?_⟩
    · simp [RingLinks.pushFront]
    · simp [RingLinks.pushFront, hpath.1, update_of_ne, hab]
    · simp [RingLinks.pushFront, hpath.1]
    · simp [RingLinks.pushFront, hpath.1]
    · apply hpath.2.2.congr
      · simp [RingLinks.pushFront, update_of_ne, Ne.symm hab]
      · simp [RingLinks.pushFront, hpath.1, update_of_ne]
      · intro c hc
        have hca : c ≠ a := fun heq ↦ ha (heq ▸ mem_cons_of_mem b hc)
        have hcb : c ≠ b := fun heq ↦ (nodup_cons.mp hnodup).1 (heq ▸ hc)
        simp [RingLinks.pushFront, hpath.1, update_of_ne, hca, hcb]

/-- Move an element to the front. -/
theorem Holds.moveFront (h : r.Holds l) (ha : a ∈ l) :
    ((r.unlink a).pushFront a).Holds (a :: l.erase a) := by
  obtain ⟨before, after, -, hl, herase⟩ := exists_erase_eq ha
  have hnot : a ∉ l.erase a := h.2.not_mem_erase
  rw [herase] at hnot ⊢
  rw [hl] at h
  exact h.unlink.pushFront hnot

/-- Elements are put in front one after the other. -/
theorem Holds.foldl_pushFront (h : r.Holds l) (hm : (m.reverse ++ l).Nodup) :
    (m.foldl .pushFront r).Holds (m.reverse ++ l) := by
  induction m generalizing r l with
  | nil => exact h
  | cons a m ih =>
    have hsplit : (a :: m).reverse ++ l = m.reverse ++ a :: l := by simp
    rw [hsplit] at hm ⊢
    have ha : a ∉ l := (nodup_cons.mp (nodup_append'.mp hm).2.1).1
    exact ih (h.pushFront ha) hm

end RingLinks

end Xv6Mmap.Library
