import Xv6Mmap.Cache.SleepLocks

/-!
# The keys of cached pages

Between the lookup that misses and the assignment of the key, `getPage` holds no lock that another
lookup of the same key would wait for, so two processes can read one page into two entries.  Between
its lookup and its copy `updatePage` holds no lock that an eviction would wait for.  If such calls do
not overlap, no two entries have the same key, and `updatePage` changes only pages with its key.
-/

namespace Xv6Mmap.Cache

open Function Library Memory Phase BitVec

/-- The bytes of an update stay inside the page. -/
def UpdateCall.Fits (c : UpdateCall) : Prop := c.startAddr.toNat + c.size.toNat ≤ 4096

namespace Phase

/-- The call and the victim of a process that is about to assign a key. -/
def pending : Phase → Option (CopyCall × Fin nPageCache)
  | .waits (.miss c) i _ | .locked c i | .wrapped c i | .filled c i => some (c, i)
  | _ => none

/-- The call and the page of a process that is about to update a page. -/
def updates : Phase → Option (UpdateCall × Fin nPageCache)
  | .waits (.update c) i _ | .patches c i => some (c, i)
  | _ => none

end Phase

namespace State

variable {ι : Type} {s t : State ι} {i : Fin nPageCache}

/-- No two entries have the same key on a device. -/
def UniqueKeys (s : State ι) : Prop :=
  ∀ i j, (s.entries i).key.dev ≠ 0 → (s.entries i).key = (s.entries j).key → i = j

/-- The content of page `j` differs between two states. -/
def Changes (s t : State ι) (j : Fin nPageCache) : Prop :=
  ∃ k < 4096, t.mem ((s.entries j).page + BitVec.ofNat 32 k) ≠
    s.mem ((s.entries j).page + BitVec.ofNat 32 k)

/-- A copy of `updatePage` changes only pages that have, at that moment, the key of its call. -/
def UpdatesOwnKey [DecidableEq ι] (s : State ι) : Prop :=
  ∀ p c i, s.phases p = .patches c i → ∀ t, s.step (.patch p) = some t →
    ∀ j, s.Changes t j → (s.entries j).key = c.key

/-- The condition on the next step: a victim is chosen as `VictimFree` says; a call that misses does
not overlap with another one that is about to assign the same key or to update the victim; an update
stays inside its page and does not overlap with a call that has chosen that page as its victim. -/
def NoOverlap (s : State ι) (a : Act ι) : Prop :=
  s.VictimFree a ∧
    match a with
    | .lookup _ (.copy c) => s.findPage c.key = none →
        (∀ q, ∀ x ∈ (s.phases q).pending, x.1.key ≠ c.key) ∧
          ∀ q, ∀ x ∈ (s.phases q).updates, x.2.val ≠ s.totalCount
    | .lookup _ (.update c) => ∀ i, s.findPage c.key = some i →
        c.Fits ∧ ∀ q, ∀ x ∈ (s.phases q).pending, x.2 ≠ i
    | _ => True

instance (c : UpdateCall) : Decidable c.Fits := inferInstanceAs (Decidable (_ ≤ _))

instance [Fintype ι] (s : State ι) (a : Act ι) : Decidable (s.NoOverlap a) :=
  match a with
  | .lookup _ (.copy _) => inferInstanceAs (Decidable (_ ∧ (_ → _ ∧ _)))
  | .lookup _ (.update _) => inferInstanceAs (Decidable (_ ∧ ∀ _, _ → _ ∧ _))
  | .acquiresleep _ | .wrap _ | .fill _ _ | .setKey _ | .copy _ | .patch _ | .releasesleep _ =>
    inferInstanceAs (Decidable (_ ∧ True))

/-- The frames of the pages do not overlap. -/
structure Framed (s : State ι) : Prop where
  aligned : ∀ i, (s.entries i).page.toNat % 4096 = 0
  distinct : ∀ i j, (s.entries i).page = (s.entries j).page → i = j

/-- What holds in every run of calls that do not overlap. -/
structure Keyed (s : State ι) : Prop extends s.Counted, s.Framed where
  unique : s.UniqueKeys
  fresh : ∀ p c i, (s.phases p).pending = some (c, i) → c.key.dev ≠ 0 →
    ∀ j, (s.entries j).key ≠ c.key
  separate : ∀ p q c c' i i', (s.phases p).pending = some (c, i) →
    (s.phases q).pending = some (c', i') → c.key.dev ≠ 0 → c.key = c'.key → p = q
  updating : ∀ p c i, (s.phases p).updates = some (c, i) →
    (s.entries i).key = c.key ∧ c.Fits ∧ ∀ q c', (s.phases q).pending ≠ some (c', i)

theorem Boot.keyed (h : s.Boot) : s.Keyed := by
  refine { h.counted with
    aligned := h.aligned
    distinct := h.distinct
    unique := ?unique
    fresh := ?fresh
    separate := ?separate
    updating := ?updating }
  case unique =>
    intro i j hdev
    rw [h.keys] at hdev
    exact absurd rfl hdev
  case fresh =>
    intro p c i hp
    rw [h.idle] at hp
    cases hp
  case separate =>
    intro p q c c' i i' hp
    rw [h.idle] at hp
    cases hp
  case updating =>
    intro p c i hp
    rw [h.idle] at hp
    cases hp

theorem key_of_findPage {key : Key} (h : s.findPage key = some i) :
    (s.entries i).key = key := by
  have hfound := List.find?_some h
  simpa using hfound

theorem key_ne_of_findPage {key : Key} (h : s.findPage key = none) (j : Fin nPageCache) :
    (s.entries j).key ≠ key := by
  have hnone := List.find?_eq_none.mp h j (List.mem_finRange j)
  simpa using hnone

theorem Framed.congr (h : s.Framed) (hpages : ∀ i, (t.entries i).page = (s.entries i).page) :
    t.Framed where
  aligned i := by
    rw [hpages]
    exact h.aligned i
  distinct i j hequal := by
    rw [hpages, hpages] at hequal
    exact h.distinct i j hequal

/-- Steps that assign no key, choose no victim and find no page to update. -/
theorem Keyed.congr (h : s.Keyed) (hcounted : t.Counted)
    (hkeys : ∀ i, (t.entries i).key = (s.entries i).key)
    (hpages : ∀ i, (t.entries i).page = (s.entries i).page)
    (hpending : ∀ q, (t.phases q).pending = none ∨ (t.phases q).pending = (s.phases q).pending)
    (hupdates : ∀ q, (t.phases q).updates = none ∨ (t.phases q).updates = (s.phases q).updates) :
    t.Keyed := by
  have hpend {q : ι} {x : CopyCall × Fin nPageCache} (hq : (t.phases q).pending = some x) :
      (s.phases q).pending = some x := by grind
  refine {
    toCounted := hcounted
    toFramed := h.toFramed.congr hpages
    unique := ?unique
    fresh := ?fresh
    separate := ?separate
    updating := ?updating }
  case unique =>
    intro i j hdev hequal
    rw [hkeys] at hdev
    rw [hkeys, hkeys] at hequal
    exact h.unique i j hdev hequal
  case fresh =>
    intro p c i hp hdev j
    rw [hkeys]
    exact h.fresh p c i (hpend hp) hdev j
  case separate =>
    intro p q c c' i i' hp hq
    exact h.separate p q c c' i i' (hpend hp) (hpend hq)
  case updating => grind [h.updating]

theorem pending_wake (i : Fin nPageCache) (phase : Phase) :
    (wake i phase).pending = phase.pending := by
  cases phase with
  | waits job j asleep => cases job <;> cases asleep <;> rfl
  | _ => rfl

theorem updates_wake (i : Fin nPageCache) (phase : Phase) :
    (wake i phase).updates = phase.updates := by
  cases phase with
  | waits job j asleep => cases job <;> cases asleep <;> rfl
  | _ => rfl

section Steps

variable [DecidableEq ι] {p : ι} {next : Phase}

/-- What can be observed of a phase, after a move that lets it stand or ends it. -/
theorem observe_update {α : Type} (f : Phase → Option α)
    (hnext : f next = none ∨ f next = f (s.phases p)) (q : ι) :
    f (update s.phases p next q) = none ∨
      f (update s.phases p next q) = f (s.phases q) := by grind

section

variable (h : s.Keyed) (hcounted : t.Counted)
include h hcounted

/-- A call misses and chooses its victim. -/
theorem Keyed.miss {c : CopyCall} (hentries : t.entries = s.entries)
    (hphases : t.phases = update s.phases p (.waits (.miss c) i false))
    (hfind : s.findPage c.key = none)
    (hkey : ∀ q c' j, (s.phases q).pending = some (c', j) → c'.key ≠ c.key)
    (hvictim : ∀ q c' j, (s.phases q).updates = some (c', j) → j ≠ i) : t.Keyed := by
  have hpend {q : ι} {c' : CopyCall} {j : Fin nPageCache}
      (hq : (t.phases q).pending = some (c', j)) :
      (q = p ∧ c' = c ∧ j = i) ∨ (s.phases q).pending = some (c', j) := by
    rw [hphases] at hq
    rcases update_cases s.phases p (.waits (.miss c) i false) q with ⟨hqp, hsame⟩ | ⟨_, hsame⟩
    · rw [hsame] at hq
      cases hq
      exact .inl ⟨hqp, rfl, rfl⟩
    · exact .inr (hsame ▸ hq)
  refine {
    toCounted := hcounted
    toFramed := h.toFramed.congr fun j ↦ by rw [hentries]
    unique := ?unique
    fresh := ?fresh
    separate := ?separate
    updating := ?updating }
  case unique =>
    rw [UniqueKeys, hentries]
    exact h.unique
  case fresh =>
    intro q c' j hq hdev k
    rw [hentries]
    rcases hpend hq with ⟨_, rfl, _⟩ | hold
    · exact key_ne_of_findPage hfind k
    · exact h.fresh q c' j hold hdev k
  case separate => grind [h.separate]
  case updating =>
    intro q c' j hq
    have hold : (s.phases q).updates = some (c', j) := by
      rw [hphases] at hq
      rcases update_cases s.phases p (.waits (.miss c) i false) q with ⟨_, hsame⟩ | ⟨_, hsame⟩
      · rw [hsame] at hq
        cases hq
      · exact hsame ▸ hq
    obtain ⟨hsame, hfits, hnone⟩ := h.updating q c' j hold
    rw [hentries]
    refine ⟨hsame, hfits, fun r c'' hr ↦ ?_⟩
    rcases hpend hr with ⟨_, _, rfl⟩ | hr'
    · exact hvictim q c' j hold rfl
    · exact hnone r c'' hr'

/-- `updatePage` finds its page. -/
theorem Keyed.found {c : UpdateCall} (hentries : t.entries = s.entries)
    (hphases : t.phases = update s.phases p (.waits (.update c) i false))
    (hfind : s.findPage c.key = some i) (hfits : c.Fits)
    (hnone : ∀ q c', (s.phases q).pending ≠ some (c', i)) : t.Keyed := by
  have hpend (q : ι) : (t.phases q).pending = none ∨
      (t.phases q).pending = (s.phases q).pending := by
    rw [hphases]
    exact observe_update pending (.inl rfl) q
  have hold {q : ι} {c' : CopyCall} {j : Fin nPageCache}
      (hq : (t.phases q).pending = some (c', j)) : (s.phases q).pending = some (c', j) := by grind
  refine {
    toCounted := hcounted
    toFramed := h.toFramed.congr fun j ↦ by rw [hentries]
    unique := ?unique
    fresh := ?fresh
    separate := ?separate
    updating := ?updating }
  case unique =>
    rw [UniqueKeys, hentries]
    exact h.unique
  case fresh =>
    intro q c' j hq hdev k
    rw [hentries]
    exact h.fresh q c' j (hold hq) hdev k
  case separate =>
    intro q r c₁ c₂ i₁ i₂ hq hr
    exact h.separate q r c₁ c₂ i₁ i₂ (hold hq) (hold hr)
  case updating =>
    intro q c' j hq
    rw [hentries]
    rw [hphases] at hq
    rcases update_cases s.phases p (.waits (.update c) i false) q with ⟨_, hsame⟩ | ⟨_, hsame⟩
    · rw [hsame] at hq
      cases hq
      exact ⟨key_of_findPage hfind, hfits, fun r c'' hr ↦ hnone r c'' (hold hr)⟩
    · obtain ⟨hkey, hfits', hnone'⟩ := h.updating q c' j (hsame ▸ hq)
      exact ⟨hkey, hfits', fun r c'' hr ↦ hnone' r c'' (hold hr)⟩

/-- `getPage` assigns the key. -/
theorem Keyed.keyed {c : CopyCall} (hphase : s.phases p = .filled c i)
    (hentries : t.entries = update s.entries i { s.entries i with key := c.key })
    (hphases : t.phases = update s.phases p (.holds c i)) : t.Keyed := by
  have hmine : (s.phases p).pending = some (c, i) := by
    rw [hphase]
    rfl
  have hold {q : ι} {c' : CopyCall} {j : Fin nPageCache}
      (hq : (t.phases q).pending = some (c', j)) :
      q ≠ p ∧ (s.phases q).pending = some (c', j) := by
    rw [hphases] at hq
    rcases update_cases s.phases p (.holds c i) q with ⟨_, hsame⟩ | ⟨hqp, hsame⟩
    · rw [hsame] at hq
      cases hq
    · exact ⟨hqp, hsame ▸ hq⟩
  have hkey (j : Fin nPageCache) : (t.entries j).key = if j = i then c.key else (s.entries j).key := by
    rw [hentries]
    by_cases hj : j = i
    · rw [hj, update_self, if_pos rfl]
    · rw [update_of_ne hj, if_neg hj]
  refine {
    toCounted := hcounted
    toFramed := h.toFramed.congr fun j ↦ ?pages
    unique := ?unique
    fresh := ?fresh
    separate := ?separate
    updating := ?updating }
  case pages =>
    rw [hentries]
    by_cases hj : j = i
    · rw [hj, update_self]
    · rw [update_of_ne hj]
  case unique =>
    -- an entry that had the new key before would have been found
    intro j k hdev hequal
    rw [hkey] at hdev
    rw [hkey, hkey] at hequal
    by_cases hj : j = i
    · grind [h.fresh]
    · rw [if_neg hj] at hdev hequal
      by_cases hk : k = i
      · grind [h.fresh]
      · rw [if_neg hk] at hequal
        exact h.unique j k hdev hequal
  case fresh => grind [h.fresh, h.separate]
  case separate =>
    intro q r c₁ c₂ i₁ i₂ hq hr
    exact h.separate q r c₁ c₂ i₁ i₂ (hold hq).2 (hold hr).2
  case updating =>
    intro q c' j hq
    have hupd : (s.phases q).updates = some (c', j) := by
      rw [hphases] at hq
      rcases update_cases s.phases p (.holds c i) q with ⟨_, hsame⟩ | ⟨_, hsame⟩
      · rw [hsame] at hq
        cases hq
      · exact hsame ▸ hq
    obtain ⟨hsame, hfits, hnone⟩ := h.updating q c' j hupd
    have hji : j ≠ i := by
      rintro rfl
      exact hnone p c hmine
    rw [hkey, if_neg hji]
    exact ⟨hsame, hfits, fun r c'' hr ↦ hnone r c'' (hold hr).2⟩

/-- A move that has nothing to do with keys. -/
theorem Keyed.move (hkeys : ∀ i, (t.entries i).key = (s.entries i).key)
    (hpages : ∀ i, (t.entries i).page = (s.entries i).page)
    (hphases : t.phases = update s.phases p next)
    (hpending : next.pending = none ∨ next.pending = (s.phases p).pending)
    (hupdates : next.updates = none ∨ next.updates = (s.phases p).updates) : t.Keyed := by
  apply h.congr hcounted hkeys hpages
  · rw [hphases]
    exact observe_update pending hpending
  · rw [hphases]
    exact observe_update updates hupdates

end

theorem Keyed.step (h : s.Keyed) {a : Act ι} (hfree : s.NoOverlap a) (hstep : s.step a = some t) :
    t.Keyed := by
  have hcounted : t.Counted := h.toCounted.step hfree.1 hstep
  cases (step_cases hstep).2 with
  | hit =>
    exact h.move hcounted (fun _ ↦ rfl) (fun _ ↦ rfl) rfl (.inl rfl) (.inl rfl)
  | miss _ _ hfind hcount =>
    obtain ⟨hkey, hvictim⟩ := hfree.2 hfind
    refine h.miss hcounted rfl rfl hfind (fun q c' j hq ↦ hkey q (c', j) hq) ?_
    intro q c' j hq hequal
    apply hvictim q (c', j) hq
    rw [hequal]
  | wild => exact h.congr hcounted (fun _ ↦ rfl) (fun _ ↦ rfl) (fun _ ↦ .inr rfl) fun _ ↦ .inr rfl
  | found _ _ hfind =>
    obtain ⟨hfits, hnone⟩ := hfree.2 _ hfind
    exact h.found hcounted rfl rfl hfind hfits fun q c' hq ↦ hnone q (c', _) hq rfl
  | absent => exact h
  | @granted p job i hphase _ =>
    refine h.move hcounted (entry_update Entry.key rfl) (entry_update Entry.page rfl) rfl ?_ ?_
    · rw [hphase]
      cases job with
      | miss c => exact .inr rfl
      | _ => exact .inl rfl
    · rw [hphase]
      cases job with
      | update c => exact .inr rfl
      | _ => exact .inl rfl
  | @sleeps p job i q hphase _ _ | @schedLocks p job i q hphase _ _ =>
    refine h.move hcounted (fun _ ↦ rfl) (fun _ ↦ rfl) rfl (.inr ?_) (.inr ?_)
    · rw [hphase]
      cases job <;> rfl
    · rw [hphase]
      cases job <;> rfl
  | wraps hphase | fills hphase =>
    refine h.move hcounted (fun _ ↦ rfl) (fun _ ↦ rfl) rfl (.inr ?_) (.inl rfl)
    rw [hphase]
    rfl
  | fails | copies | patches =>
    exact h.move hcounted (fun _ ↦ rfl) (fun _ ↦ rfl) rfl (.inl rfl) (.inl rfl)
  | keyed hphase => exact h.keyed hcounted hphase rfl rfl
  | notHolding =>
    exact h.congr hcounted (fun _ ↦ rfl) (fun _ ↦ rfl) (fun _ ↦ .inr rfl) fun _ ↦ .inr rfl
  | @releases p i hphase =>
    have hwake {α : Type} (f : Phase → Option α) (hf : ∀ phase, f (wake i phase) = f phase)
        (hidle : f .idle = none) (q : ι) :
        f (update (fun q ↦ wake i (s.phases q)) p .idle q) = none ∨
          f (update (fun q ↦ wake i (s.phases q)) p .idle q) = f (s.phases q) := by grind
    apply h.congr hcounted (entry_update Entry.key rfl) (entry_update Entry.page rfl)
    · exact hwake pending (pending_wake i) rfl
    · exact hwake updates (updates_wake i) rfl

/-- The copy of `updatePage` stays inside the frame of its page. -/
theorem Keyed.updatesOwnKey (h : s.Keyed) : s.UpdatesOwnKey := by
  intro p c i hphase t hstep j hchanges
  obtain ⟨hkey, hfits, _⟩ := h.updating p c i (by rw [hphase]; rfl)
  have hmem : t.mem = blit s.mem ((s.entries i).page + c.startAddr) c.size.toNat c.data := by
    cases (step_cases hstep).2 with
    | patches hphase' =>
      rw [hphase] at hphase'
      cases hphase'
      rfl
  obtain ⟨k, hk, hdiff⟩ := hchanges
  by_cases hji : j = i
  · rw [hji]
    exact hkey
  · have hapart : (s.entries i).page ≠ (s.entries j).page := fun hequal ↦
      hji (h.distinct i j hequal).symm
    have hfar := frame_apart (h.aligned i) (h.aligned j) hapart hk
    exfalso
    apply hdiff
    rw [hmem]
    apply blit_of_le
    rw [UpdateCall.Fits] at hfits
    rw [← BitVec.sub_sub, toNat_sub_of_le (by rw [le_def]; omega)]
    omega

end Steps

end State

/-- **Keys under concurrency.**  In every interleaving of `copyPage` and `updatePage` calls that meets
the condition, no two entries have the same key on a device, and every copy of `updatePage` changes
only pages that have the key of its call. -/
theorem keys_unique_and_updated {ι : Type} [DecidableEq ι] {s₀ s : State ι} (hboot : s₀.Boot)
    (hrun : Runs.Reaches State.step State.NoOverlap s₀ s) : s.UniqueKeys ∧ s.UpdatesOwnKey := by
  have hkeyed : s.Keyed :=
    hrun.invariant hboot.keyed fun _ _ _ h hfree hstep ↦ h.step hfree hstep
  exact ⟨hkeyed.unique, hkeyed.updatesOwnKey⟩

/-- An update of one byte of the first page of inode 2 on device 1. -/
def firstByte : UpdateCall where
  offset := 0
  inum := 2
  dev := 1
  data _ := 9
  size := 1

/-- A process reads a page, and another one updates it afterwards. -/
theorem keys_unique_and_updated_one_page :
    ∃ s, Runs.runIf State.step State.NoOverlap
        [.lookup 0 (.copy (filePage 0)), .acquiresleep 0, .wrap 0, .fill 0 (some [7]), .setKey 0,
          .copy 0, .releasesleep 0, .lookup 1 (.update firstByte), .acquiresleep 1]
        (cold (Fin 2)) = some s ∧ s.UniqueKeys ∧ s.UpdatesOwnKey := by
  refine Runs.exists_runIf (F := fun _ ↦ True) (by decide +kernel) fun s hs _ ↦ ?_
  exact keys_unique_and_updated cold_boot hs

/-- Two processes miss on the same page: both read it, into two entries. -/
theorem keys_duplicated :
    ∃ s₀ s : State (Fin 2), s₀.Boot ∧ Runs.Reaches State.step Runs.unguarded s₀ s ∧
      ¬ (s.UniqueKeys ∧ s.UpdatesOwnKey) := by
  obtain ⟨s, hs, hused, hequal⟩ : ∃ s ∈ Runs.run State.step
      [.lookup 0 (.copy (filePage 0)), .lookup 1 (.copy (filePage 0)), .acquiresleep 0, .wrap 0,
        .fill 0 (some [7]), .setKey 0, .acquiresleep 1, .wrap 1, .fill 1 (some [7]), .setKey 1]
      (cold (Fin 2)), (s.entries ⟨0, by decide⟩).key.dev ≠ 0 ∧
        (s.entries ⟨0, by decide⟩).key = (s.entries ⟨1, by decide⟩).key := by
    decide +kernel
  refine ⟨cold (Fin 2), s, cold_boot, Runs.reaches_of_run hs, ?_⟩
  intro h
  exact absurd (h.1 _ _ hused hequal) (by decide)

end Xv6Mmap.Cache
