import Xv6Mmap.Cache.Interleaving
import Xv6Mmap.Library.Runs

/-!
# The victim index of the page cache

`getPage` takes its victim index from `totalCount`, which it increments under `pagecache.lock` and
sets back to zero only later, when it has the lock of the victim.  If no victim is chosen between the
choice of the last page and that test, the victims are 0, 1, ..., 29, 0, 1, ... in turn.
-/

namespace Xv6Mmap.Cache

open Function Library List

/-- The victim of a process that has chosen it and has not yet come to the wrap test. -/
def Phase.beforeWrap : Phase → Option (Fin nPageCache)
  | .waits (.miss _) i _ => some i
  | .locked _ i => some i
  | _ => none

namespace State

variable {ι : Type} {s t : State ι}

/-- A process has chosen the last page and has not yet come to the wrap test. -/
def LastChosen (s : State ι) : Prop :=
  ∃ p i, (s.phases p).beforeWrap = some i ∧ i.val + 1 = nPageCache

/-- The `k`-th victim has index `k` modulo `NPAGECACHE`. -/
def VictimsInTurn (s : State ι) : Prop :=
  ∀ k v, s.victims[k]? = some v → v < nPageCache ∧ v = k % nPageCache

/-- What `totalCount` says about the victims chosen so far. -/
structure Counted (s : State ι) : Prop where
  inTurn : s.VictimsInTurn
  count : s.totalCount % nPageCache = s.victims.length % nPageCache
  le : s.totalCount ≤ nPageCache
  last : s.totalCount = nPageCache → s.LastChosen

theorem Boot.counted (h : s.Boot) : s.Counted where
  inTurn k v hv := by
    rw [h.victims] at hv
    cases hv
  count := by
    rw [h.totalCount, h.victims]
    rfl
  le := by
    rw [h.totalCount]
    exact Nat.zero_le _
  last hfull := by
    rw [h.totalCount] at hfull
    cases hfull

/-- Steps that have nothing to do with victims. -/
theorem Counted.congr (h : s.Counted) (hcount : t.totalCount = s.totalCount)
    (hvictims : t.victims = s.victims)
    (hphases : ∀ q, (t.phases q).beforeWrap = (s.phases q).beforeWrap) : t.Counted where
  inTurn k v hv := h.inTurn k v (hvictims ▸ hv)
  count := by
    rw [hcount, hvictims]
    exact h.count
  le := by
    rw [hcount]
    exact h.le
  last hfull := by
    obtain ⟨p, i, hp, hi⟩ := h.last (hcount ▸ hfull)
    exact ⟨p, i, (hphases p).trans hp, hi⟩

/-- The condition on the next step: no victim is chosen while the last page is, and the wrap test of
that choice is still to come. -/
def VictimFree (s : State ι) : Act ι → Prop
  | .lookup _ (.copy c) => s.findPage c.key = none → ¬ s.LastChosen
  | _ => True

instance [Fintype ι] (s : State ι) : Decidable s.LastChosen :=
  inferInstanceAs (Decidable (∃ _ _, _ ∧ _))

instance [Fintype ι] (s : State ι) (a : Act ι) : Decidable (s.VictimFree a) :=
  match a with
  | .lookup _ (.copy _) => inferInstanceAs (Decidable (_ → ¬ _))
  | .lookup _ (.update _) | .acquiresleep _ | .wrap _ | .fill _ _ | .setKey _ | .copy _ | .patch _
  | .releasesleep _ => isTrue trivial

variable [DecidableEq ι] {p : ι}

theorem beforeWrap_update {phases : ι → Phase} {next : Phase}
    (h : next.beforeWrap = (phases p).beforeWrap) (q : ι) :
    (update phases p next q).beforeWrap = (phases q).beforeWrap := by
  by_cases hq : q = p
  · rw [hq, update_self, h]
  · rw [update_of_ne hq]

theorem beforeWrap_wake (i : Fin nPageCache) (phase : Phase) :
    (wake i phase).beforeWrap = phase.beforeWrap := by
  cases phase with
  | waits job j asleep =>
    cases asleep with
    | true => cases job <;> rfl
    | false => rfl
  | _ => rfl

theorem beforeWrap_granted (job : Job) (i : Fin nPageCache) (asleep : Bool) :
    (job.granted i).beforeWrap = (Phase.waits job i asleep).beforeWrap := by
  cases job <;> rfl

theorem Counted.miss (h : s.Counted) {c : CopyCall} (hcount : s.totalCount < nPageCache) :
    ({ s with
      phases := update s.phases p (.waits (.miss c) ⟨s.totalCount, hcount⟩ false)
      totalCount := s.totalCount + 1
      victims := s.victims ++ [s.totalCount] } : State ι).Counted := by
  have hlength : s.totalCount = s.victims.length % nPageCache := by
    rw [← h.count, Nat.mod_eq_of_lt hcount]
  constructor
  case inTurn =>
    intro k v hv
    dsimp only at hv
    rcases Nat.lt_trichotomy k s.victims.length with hlt | heq | hgt
    · rw [List.getElem?_append_left hlt] at hv
      exact h.inTurn k v hv
    · rw [heq, List.getElem?_concat_length] at hv
      cases hv
      rw [heq]
      exact ⟨hcount, hlength⟩
    · rw [List.getElem?_eq_none (by rw [length_append, length_singleton]; omega)] at hv
      cases hv
  case count =>
    change (s.totalCount + 1) % nPageCache = (s.victims ++ [s.totalCount]).length % nPageCache
    rw [length_append, length_singleton, Nat.add_mod, h.count, ← Nat.add_mod]
  case le => exact hcount
  case last =>
    intro hfull
    refine ⟨p, ⟨s.totalCount, hcount⟩, ?_, hfull⟩
    dsimp only
    rw [update_self]
    rfl

theorem Counted.wraps (h : s.Counted) {next : Phase} :
    ({ s with
      phases := update s.phases p next
      totalCount := if s.totalCount = nPageCache then 0 else s.totalCount } : State ι).Counted := by
  by_cases hfull : s.totalCount = nPageCache
  · have hcount := h.count
    rw [hfull, Nat.mod_self] at hcount
    rw [if_pos hfull]
    exact ⟨h.inTurn, hcount, Nat.zero_le _, fun hzero ↦ absurd hzero (show 0 ≠ nPageCache by decide)⟩
  · rw [if_neg hfull]
    exact ⟨h.inTurn, h.count, h.le, fun hlast ↦ absurd hlast hfull⟩

theorem Counted.step (h : s.Counted) {a : Act ι} (hfree : s.VictimFree a)
    (hstep : s.step a = some t) : t.Counted := by
  cases (step_cases hstep).2 with
  | hit _ hphase _ | found _ hphase _ | fails hphase | fills hphase | keyed hphase
  | copies hphase _ | patches hphase => exact h.congr rfl rfl (beforeWrap_update (by rw [hphase]; rfl))
  | miss _ _ _ hcount => exact h.miss hcount
  | wild _ _ hfind hcount => exact absurd (h.last (le_antisymm h.le hcount)) (hfree hfind)
  | absent => exact h
  | granted hphase _ =>
    refine h.congr rfl rfl (beforeWrap_update ?_)
    rw [hphase]
    exact beforeWrap_granted _ _ _
  | sleeps hphase _ _ | schedLocks hphase _ _ =>
    refine h.congr rfl rfl (beforeWrap_update ?_)
    rw [hphase, ← beforeWrap_granted, ← beforeWrap_granted]
  | wraps _ => exact h.wraps
  | notHolding _ _ => exact h.congr rfl rfl fun _ ↦ rfl
  | releases hphase =>
    refine h.congr rfl rfl fun q ↦ ?_
    dsimp only
    rw [beforeWrap_update (by rw [hphase]; rfl), beforeWrap_wake]

end State

/-- **Victims are chosen in turn.**  In every interleaving of `copyPage` and `updatePage` calls in
which no victim is chosen between the choice of the last page and its wrap test, the index of every
victim is in range, and each choice advances it by one modulo `NPAGECACHE`. -/
theorem victims_in_turn {ι : Type} [DecidableEq ι] {s₀ s : State ι} (hboot : s₀.Boot)
    (hrun : Runs.Reaches State.step State.VictimFree s₀ s) : s.VictimsInTurn := by
  have hcounted : s.Counted :=
    hrun.invariant hboot.counted fun _ _ _ h hfree hstep ↦ h.step hfree hstep
  exact hcounted.inTurn

/-- Two processes miss on different pages, and the first one completes its call. -/
theorem victims_in_turn_two_misses :
    ∃ s, Runs.runIf State.step State.VictimFree
        [.lookup 0 (.copy (filePage 0)), .lookup 1 (.copy (filePage 4096)), .acquiresleep 0, .wrap 0,
          .fill 0 (some [7]), .setKey 0, .copy 0, .releasesleep 0] (cold (Fin 2)) = some s ∧
      s.VictimsInTurn := by
  refine Runs.exists_runIf (F := fun _ ↦ True) (by decide +kernel) fun s hs _ ↦ ?_
  exact victims_in_turn cold_boot hs

/-- Thirty-one processes miss on different pages before the first of them has its victim: the last
one chooses `pages[30]`. -/
theorem victims_out_of_range :
    ∃ s₀ s : State (Fin 31), s₀.Boot ∧ Runs.Reaches State.step Runs.unguarded s₀ s ∧
      ¬ s.VictimsInTurn := by
  obtain ⟨s, hs, hlast⟩ : ∃ s ∈ Runs.run State.step ((List.finRange 31).map fun p ↦
      .lookup p (.copy (filePage (BitVec.ofNat 32 (4096 * p.val))))) (cold (Fin 31)),
      s.victims[30]? = some 30 := by
    decide +kernel
  refine ⟨cold (Fin 31), s, cold_boot, Runs.reaches_of_run hs, ?_⟩
  intro h
  exact absurd (h 30 30 hlast).1 (by decide)

end Xv6Mmap.Cache
