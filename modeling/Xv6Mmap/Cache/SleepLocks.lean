import Xv6Mmap.Cache.Victims

/-!
# Sleeping on the lock of a cached page

A page lock belongs to the process that works on the page.  `getPage` calls `acquiresleep` with
`pagecache.lock` held if it finds the page in the cache.  If nobody has that page locked or is about
to lock it when it is looked up, nobody can lock it before `getPage` does, since every way to a page
lock begins with a lookup; so nobody goes to sleep with a spin lock held.
-/

namespace Xv6Mmap.Cache

open Function Library Option

namespace Phase

/-- The page whose lock the process holds. -/
def owns : Phase → Option (Fin nPageCache)
  | .locked _ i | .wrapped _ i | .filled _ i | .holds _ i | .patches _ i | .done i => some i
  | _ => none

/-- The page whose lock the process is about to take. -/
def waitsFor : Phase → Option (Fin nPageCache)
  | .waits _ i _ => some i
  | _ => none

/-- The spin locks of a process that sleeps. -/
def asleepWith : Phase → List SpinLock
  | .waits job _ true => job.held
  | _ => []

end Phase

namespace State

variable {ι : Type} {s t : State ι} {i : Fin nPageCache}

/-- A process that works on a page holds its lock. -/
def Owned (s : State ι) : Prop := ∀ p i, (s.phases p).owns = some i → (s.entries i).lock = some p

/-- Nobody holds the lock of page `i` or is about to take it. -/
def Unclaimed (s : State ι) (i : Fin nPageCache) : Prop :=
  (s.entries i).lock = none ∧ ∀ q, (s.phases q).waitsFor ≠ some i

/-- Nobody sleeps with a spin lock held. -/
def SleepsFree (s : State ι) : Prop := ∀ p job i, s.phases p = .waits job i true → job.held = []

/-- A process in the middle of a hit holds `pagecache.lock`, and only it can take the page lock. -/
structure HitSafe (s : State ι) : Prop where
  spins : ∀ p c i, s.phases p = .waits (.hit c) i false → s.spin = some p
  free : ∀ p c i, s.phases p = .waits (.hit c) i false → (s.entries i).lock = none
  alone : ∀ p c i, s.phases p = .waits (.hit c) i false →
    ∀ q, q ≠ p → (s.phases q).waitsFor ≠ some i

/-- What holds in every state of a run without a panic. -/
structure Quiet (s : State ι) : Prop extends s.Counted, s.HitSafe where
  calm : s.panicked = none
  owned : s.Owned
  sleepsFree : s.SleepsFree

theorem Boot.quiet (h : s.Boot) : s.Quiet := by
  have hidle {p : ι} {phase : Phase} (hphase : s.phases p = phase) : phase = .idle :=
    hphase.symm.trans (h.idle p)
  refine { h.counted with
    spins := ?spins
    free := ?free
    alone := ?alone
    calm := h.panicked
    owned := ?owned
    sleepsFree := ?sleepsFree }
  case spins | free | alone =>
    intro p c i hphase
    cases hidle hphase
  case owned =>
    intro p i howns
    rw [h.idle] at howns
    cases howns
  case sleepsFree =>
    intro p job i hphase
    cases hidle hphase

/-- The condition on the next step: a victim is chosen as `VictimFree` says, and a page that
`getPage` finds in the cache is unclaimed. -/
def HitFree (s : State ι) (a : Act ι) : Prop :=
  s.VictimFree a ∧
    match a with
    | .lookup _ (.copy c) => ∀ i, s.findPage c.key = some i → s.Unclaimed i
    | _ => True

/-- As long as nobody holds `pagecache.lock`, nobody is in the middle of a hit. -/
theorem HitSafe.not_hit (h : s.HitSafe) (hspin : s.spin = none) (q : ι) (c : CopyCall)
    (i : Fin nPageCache) : s.phases q ≠ .waits (.hit c) i false := by
  intro hq
  have htaken := h.spins q c i hq
  rw [hspin] at htaken
  cases htaken

theorem entry_update {α : Type} (f : Entry ι → α) {entries : Fin nPageCache → Entry ι}
    {entry : Entry ι} (h : f entry = f (entries i)) (j : Fin nPageCache) :
    f (update entries i entry j) = f (entries j) := by
  by_cases hj : j = i
  · rw [hj, update_self, h]
  · rw [update_of_ne hj]

instance [Fintype ι] (s : State ι) (i : Fin nPageCache) : Decidable (s.Unclaimed i) :=
  inferInstanceAs (Decidable (_ ∧ ∀ _, _ ≠ _))

instance [Fintype ι] (s : State ι) (a : Act ι) : Decidable (s.HitFree a) :=
  match a with
  | .lookup _ (.copy _) => inferInstanceAs (Decidable (_ ∧ ∀ _, _ → _))
  | .lookup _ (.update _) | .acquiresleep _ | .wrap _ | .fill _ _ | .setKey _ | .copy _ | .patch _
  | .releasesleep _ => inferInstanceAs (Decidable (_ ∧ True))

variable [DecidableEq ι] {p : ι} {next : Phase} {job : Job}

/-- The phase of a process after a move of `p`. -/
theorem update_cases (phases : ι → Phase) (p : ι) (next : Phase) (q : ι) :
    q = p ∧ update phases p next q = next ∨
      q ≠ p ∧ update phases p next q = phases q := by
  by_cases hq : q = p
  · exact .inl ⟨hq, by rw [hq, update_self]⟩
  · exact .inr ⟨hq, update_of_ne hq next phases⟩

/-! ## Page locks -/

/-- A move that takes no page lock. -/
theorem Owned.move (h : s.Owned) (hlocks : ∀ i, (t.entries i).lock = (s.entries i).lock)
    (hphases : t.phases = update s.phases p next)
    (hnext : next.owns = none ∨ next.owns = (s.phases p).owns) : t.Owned := by
  intro q i howns
  rw [hlocks]
  rw [hphases] at howns
  rcases update_cases s.phases p next q with ⟨rfl, hq⟩ | ⟨_, hq⟩
  · rw [hq] at howns
    apply h
    rcases hnext with hnone | hsame
    · rw [hnone] at howns
      cases howns
    · rw [← hsame]
      exact howns
  · rw [hq] at howns
    exact h q i howns

theorem owns_granted (job : Job) (i : Fin nPageCache) : (job.granted i).owns = some i := by
  cases job <;> rfl

theorem Owned.granted (h : s.Owned) (hlock : (s.entries i).lock = none)
    (hentries : t.entries = update s.entries i { s.entries i with lock := some p })
    (hphases : t.phases = update s.phases p (job.granted i)) : t.Owned := by
  intro q j howns
  rw [hphases] at howns
  rw [hentries]
  rcases update_cases s.phases p (job.granted i) q with ⟨rfl, hq⟩ | ⟨_, hq⟩
  · rw [hq, owns_granted] at howns
    cases howns
    rw [update_self]
  · rw [hq] at howns
    have hheld := h q j howns
    have hji : j ≠ i := by
      rintro rfl
      rw [hlock] at hheld
      cases hheld
    rw [update_of_ne hji]
    exact hheld

theorem owns_wake (i : Fin nPageCache) (phase : Phase) : (wake i phase).owns = phase.owns := by
  cases phase with
  | waits job j asleep => cases asleep <;> rfl
  | _ => rfl

theorem Owned.releases (h : s.Owned) (hphase : s.phases p = .done i)
    (hentries : t.entries = update s.entries i { s.entries i with lock := none })
    (hphases : t.phases = update (fun q ↦ wake i (s.phases q)) p .idle) : t.Owned := by
  intro q j howns
  rw [hphases] at howns
  rw [hentries]
  rcases update_cases (fun q ↦ wake i (s.phases q)) p .idle q with ⟨rfl, hq⟩ | ⟨hne, hq⟩
  · rw [hq] at howns
    cases howns
  · rw [hq, owns_wake] at howns
    have hheld := h q j howns
    have hji : j ≠ i := by
      rintro rfl
      have hmine := h p j (by rw [hphase]; rfl)
      rw [hheld] at hmine
      exact hne (Option.some.inj hmine)
    rw [update_of_ne hji]
    exact hheld

/-! ## Hits -/

/-- A move that starts no hit, claims no page and changes no lock. -/
theorem HitSafe.move (h : s.HitSafe) (hspin : t.spin = s.spin)
    (hlocks : ∀ i, (t.entries i).lock = (s.entries i).lock)
    (hphases : t.phases = update s.phases p next) (hnext : ∀ c i, next ≠ .waits (.hit c) i false)
    (hwaits : next.waitsFor = none ∨ next.waitsFor = (s.phases p).waitsFor) : t.HitSafe := by
  have hold {q : ι} {c : CopyCall} {i : Fin nPageCache}
      (hq : t.phases q = .waits (.hit c) i false) : s.phases q = .waits (.hit c) i false := by
    rw [hphases] at hq
    rcases update_cases s.phases p next q with ⟨_, hsame⟩ | ⟨_, hsame⟩
    · exact absurd (hsame.symm.trans hq) (hnext c i)
    · exact hsame.symm.trans hq
  constructor
  case spins =>
    intro q c i hq
    rw [hspin]
    exact h.spins q c i (hold hq)
  case free =>
    intro q c i hq
    rw [hlocks]
    exact h.free q c i (hold hq)
  case alone =>
    intro q c i hq r hr
    have hapart := h.alone q c i (hold hq) r hr
    rw [hphases]
    rcases update_cases s.phases p next r with ⟨rfl, hsame⟩ | ⟨_, hsame⟩
    · grind
    · rw [hsame]
      exact hapart

/-- A lookup that does not find its page, or that `updatePage` makes. -/
theorem HitSafe.start (h : s.HitSafe) (hspin : s.spin = none)
    (hphases : t.phases = update s.phases p next)
    (hnext : ∀ c i, next ≠ .waits (.hit c) i false) : t.HitSafe := by
  have hnone (q : ι) (c : CopyCall) (i : Fin nPageCache) :
      t.phases q ≠ .waits (.hit c) i false := by
    rw [hphases]
    rcases update_cases s.phases p next q with ⟨_, hsame⟩ | ⟨_, hsame⟩
    · rw [hsame]
      exact hnext c i
    · rw [hsame]
      exact h.not_hit hspin q c i
  exact ⟨fun q c i hq ↦ absurd hq (hnone q c i), fun q c i hq ↦ absurd hq (hnone q c i),
    fun q c i hq ↦ absurd hq (hnone q c i)⟩

/-- A lookup that finds its page unclaimed. -/
theorem HitSafe.hit (h : s.HitSafe) (hspin : s.spin = none) {c : CopyCall}
    (hunclaimed : s.Unclaimed i) (hentries : t.entries = s.entries) (hnow : t.spin = some p)
    (hphases : t.phases = update s.phases p (.waits (.hit c) i false)) : t.HitSafe := by
  have honly {q : ι} {c' : CopyCall} {j : Fin nPageCache}
      (hq : t.phases q = .waits (.hit c') j false) : q = p ∧ j = i := by
    rw [hphases] at hq
    rcases update_cases s.phases p (.waits (.hit c) i false) q with ⟨hqp, hsame⟩ | ⟨_, hsame⟩
    · rw [hsame] at hq
      cases hq
      exact ⟨hqp, rfl⟩
    · exact absurd (hsame.symm.trans hq) (h.not_hit hspin q c' j)
  constructor
  case spins =>
    intro q c' j hq
    rw [hnow, (honly hq).1]
  case free =>
    intro q c' j hq
    rw [hentries, (honly hq).2]
    exact hunclaimed.1
  case alone =>
    intro q c' j hq r hr
    rw [(honly hq).1] at hr
    rw [(honly hq).2, hphases, update_of_ne hr]
    exact hunclaimed.2 r

theorem waitsFor_granted (job : Job) (i : Fin nPageCache) : (job.granted i).waitsFor = none := by
  cases job <;> rfl

/-- A process takes a page lock. -/
theorem HitSafe.granted (h : s.HitSafe) (hphase : s.phases p = .waits job i false)
    (hentries : t.entries = update s.entries i { s.entries i with lock := some p })
    (hphases : t.phases = update s.phases p (job.granted i))
    (hspin : t.spin = if .pagecache ∈ job.held then none else s.spin) : t.HitSafe := by
  have hold {q : ι} {c : CopyCall} {j : Fin nPageCache}
      (hq : t.phases q = .waits (.hit c) j false) :
      q ≠ p ∧ s.phases q = .waits (.hit c) j false := by
    rw [hphases] at hq
    rcases update_cases s.phases p (job.granted i) q with ⟨_, hsame⟩ | ⟨hqp, hsame⟩
    · rw [hsame] at hq
      have hnone := waitsFor_granted job i
      rw [hq] at hnone
      cases hnone
    · exact ⟨hqp, hsame.symm.trans hq⟩
  have hother {q : ι} {c : CopyCall} {j : Fin nPageCache}
      (hq : t.phases q = .waits (.hit c) j false) : j ≠ i := by
    rintro rfl
    obtain ⟨hqp, hhit⟩ := hold hq
    apply h.alone q c j hhit p hqp.symm
    rw [hphase]
    rfl
  constructor
  case spins =>
    intro q c j hq
    obtain ⟨hqp, hhit⟩ := hold hq
    have htaken := h.spins q c j hhit
    cases job with
    | hit c' => grind [h.spins]
    | miss c' | update c' =>
      rw [hspin]
      exact htaken
  case free =>
    intro q c j hq
    rw [hentries, update_of_ne (hother hq)]
    exact h.free q c j (hold hq).2
  case alone =>
    intro q c j hq r hr
    rw [hphases]
    rcases update_cases s.phases p (job.granted i) r with ⟨_, hsame⟩ | ⟨_, hsame⟩
    · rw [hsame, waitsFor_granted]
      exact (some_ne_none j).symm
    · rw [hsame]
      exact h.alone q c j (hold hq).2 r hr

theorem waitsFor_wake (i : Fin nPageCache) (phase : Phase) :
    (wake i phase).waitsFor = phase.waitsFor := by
  cases phase with
  | waits job j asleep => cases asleep <;> rfl
  | _ => rfl

/-- A phase after a wakeup that leaves a process waiting. -/
theorem waits_of_wake {j : Fin nPageCache} {phase : Phase} {asleep : Bool}
    (h : wake i phase = .waits job j asleep) : ∃ before, phase = .waits job j before ∧
      (asleep = true → before = true) := by
  cases phase with
  | waits job' j' before =>
    cases before with
    | true =>
      cases h
      exact ⟨true, rfl, fun _ ↦ rfl⟩
    | false =>
      cases h
      exact ⟨false, rfl, id⟩
  | _ => cases h

theorem HitSafe.releases (h : s.HitSafe) (hsleeps : s.SleepsFree) (hspin : t.spin = s.spin)
    (hentries : t.entries = update s.entries i { s.entries i with lock := none })
    (hphases : t.phases = update (fun q ↦ wake i (s.phases q)) p .idle) : t.HitSafe := by
  have hold {q : ι} {c : CopyCall} {j : Fin nPageCache}
      (hq : t.phases q = .waits (.hit c) j false) : s.phases q = .waits (.hit c) j false := by
    rw [hphases] at hq
    rcases update_cases (fun q ↦ wake i (s.phases q)) p .idle q with ⟨_, hsame⟩ | ⟨_, hsame⟩
    · rw [hsame] at hq
      cases hq
    · obtain ⟨before, hwait, _⟩ := waits_of_wake (hsame.symm.trans hq)
      cases before with
      | false => exact hwait
      | true => cases hsleeps q _ j hwait
  constructor
  case spins =>
    intro q c j hq
    rw [hspin]
    exact h.spins q c j (hold hq)
  case free =>
    intro q c j hq
    rw [hentries]
    by_cases hji : j = i
    · rw [hji, update_self]
    · rw [update_of_ne hji]
      exact h.free q c j (hold hq)
  case alone =>
    intro q c j hq r hr
    rw [hphases]
    rcases update_cases (fun q ↦ wake i (s.phases q)) p .idle r with ⟨_, hsame⟩ | ⟨_, hsame⟩
    · rw [hsame]
      exact (some_ne_none j).symm
    · rw [hsame, waitsFor_wake]
      exact h.alone q c j (hold hq) r hr

theorem SleepsFree.move (h : s.SleepsFree) (hphases : t.phases = update s.phases p next)
    (hnext : ∀ job i, next = .waits job i true → job.held = []) : t.SleepsFree := by
  intro q job i hq
  rw [hphases] at hq
  rcases update_cases s.phases p next q with ⟨_, hsame⟩ | ⟨_, hsame⟩
  · exact hnext job i (hsame.symm.trans hq)
  · exact h q job i (hsame.symm.trans hq)

theorem SleepsFree.releases (h : s.SleepsFree)
    (hphases : t.phases = update (fun q ↦ wake i (s.phases q)) p .idle) :
    t.SleepsFree := by
  intro q job j hq
  rw [hphases] at hq
  rcases update_cases (fun q ↦ wake i (s.phases q)) p .idle q with ⟨_, hsame⟩ | ⟨_, hsame⟩
  · cases hsame.symm.trans hq
  · obtain ⟨before, hwait, hasleep⟩ := waits_of_wake (hsame.symm.trans hq)
    rw [hasleep rfl] at hwait
    exact h q job j hwait

/-! ## Runs -/

/-- Work under a page lock. -/
theorem Quiet.work (h : s.Quiet) (hcounted : t.Counted) (hcalm : t.panicked = s.panicked)
    (hspin : t.spin = s.spin) (hlocks : ∀ i, (t.entries i).lock = (s.entries i).lock)
    (hphases : t.phases = update s.phases p next)
    (howns : next.owns = none ∨ next.owns = (s.phases p).owns) (hwaits : next.waitsFor = none) :
    t.Quiet := by
  have hnot (job : Job) (i : Fin nPageCache) (asleep : Bool) : next ≠ .waits job i asleep := by
    rintro rfl
    cases hwaits
  exact { hcounted with
    toHitSafe := h.toHitSafe.move hspin hlocks hphases (fun c i ↦ hnot _ i _) (.inl hwaits)
    calm := hcalm.trans h.calm
    owned := h.owned.move hlocks hphases howns
    sleepsFree := h.sleepsFree.move hphases fun job i hequal ↦ absurd hequal (hnot job i true) }

theorem Quiet.step (h : s.Quiet) {a : Act ι} (hfree : s.HitFree a) (hstep : s.step a = some t) :
    t.Quiet := by
  have hcounted : t.Counted := h.toCounted.step hfree.1 hstep
  cases (step_cases hstep).2 with
  | hit hspin hphase hfind =>
    exact { hcounted with
      toHitSafe := h.toHitSafe.hit hspin (hfree.2 _ hfind) rfl rfl rfl
      calm := h.calm
      owned := h.owned.move (fun _ ↦ rfl) rfl (.inl rfl)
      sleepsFree := h.sleepsFree.move rfl nofun }
  | miss hspin hphase _ _ | found hspin hphase _ =>
    exact { hcounted with
      toHitSafe := h.toHitSafe.start hspin rfl nofun
      calm := h.calm
      owned := h.owned.move (fun _ ↦ rfl) rfl (.inl rfl)
      sleepsFree := h.sleepsFree.move rfl nofun }
  | wild _ _ hfind hcount => exact absurd (h.last (le_antisymm h.le hcount)) (hfree.1 hfind)
  | absent => exact h
  | @granted p job i hphase hlock =>
    exact { hcounted with
      toHitSafe := h.toHitSafe.granted hphase rfl rfl rfl
      calm := h.calm
      owned := h.owned.granted hlock rfl rfl
      sleepsFree := h.sleepsFree.move rfl fun job' j hequal ↦ by
        have hnone := waitsFor_granted job i
        rw [hequal] at hnone
        cases hnone }
  | @sleeps p job i q hphase _ hheld =>
    have hwaits : (Phase.waits job i true).waitsFor = (s.phases p).waitsFor := by
      rw [hphase]
      rfl
    exact { hcounted with
      toHitSafe := h.toHitSafe.move rfl (fun _ ↦ rfl) rfl (nofun)
        (.inr hwaits)
      calm := h.calm
      owned := h.owned.move (fun _ ↦ rfl) rfl (.inl rfl)
      sleepsFree := h.sleepsFree.move rfl fun _ _ hequal ↦ by
        cases hequal
        exact hheld }
  | @schedLocks p job i q hphase hlock hheld =>
    -- only a hit calls `acquiresleep` with a spin lock held, and then the page is free
    cases job with
    | hit c =>
      have hnone := h.free p c i hphase
      rw [hlock] at hnone
      cases hnone
    | miss c | update c => exact absurd rfl hheld
  | wraps hphase | fills hphase | copies hphase _ | patches hphase =>
    exact h.work hcounted rfl rfl (fun _ ↦ rfl) rfl (.inr (by rw [hphase]; rfl)) rfl
  | fails hphase => exact h.work hcounted rfl rfl (fun _ ↦ rfl) rfl (.inl rfl) rfl
  | keyed hphase =>
    exact h.work hcounted rfl rfl (entry_update Entry.lock rfl) rfl (.inr (by rw [hphase]; rfl)) rfl
  | notHolding hphase hlock => exact absurd (h.owned _ _ (by rw [hphase]; rfl)) hlock
  | releases hphase =>
    exact { hcounted with
      toHitSafe := h.toHitSafe.releases h.sleepsFree rfl rfl rfl
      calm := h.calm
      owned := h.owned.releases hphase rfl rfl
      sleepsFree := h.sleepsFree.releases rfl }

end State

/-- **Nobody sleeps under the spin lock of the page cache.**  In every interleaving of `copyPage` and
`updatePage` calls that meets the condition, a process that sleeps on a page lock holds no spin lock,
and no panic is reached. -/
theorem sleeps_without_spin_lock {ι : Type} [DecidableEq ι] {s₀ s : State ι} (hboot : s₀.Boot)
    (hrun : Runs.Reaches State.step State.HitFree s₀ s) : s.SleepsFree ∧ s.panicked = none := by
  have hquiet : s.Quiet :=
    hrun.invariant hboot.quiet fun _ _ _ h hfree hstep ↦ h.step hfree hstep
  exact ⟨hquiet.sleepsFree, hquiet.calm⟩

/-- A process reads a page, and another one finds it in the cache afterwards. -/
theorem sleeps_without_spin_lock_hit :
    ∃ s, Runs.runIf State.step State.HitFree
        [.lookup 0 (.copy (filePage 0)), .acquiresleep 0, .wrap 0, .fill 0 (some [7]), .setKey 0,
          .copy 0, .releasesleep 0, .lookup 1 (.copy (filePage 0)), .acquiresleep 1]
        (cold (Fin 2)) = some s ∧ s.SleepsFree ∧ s.panicked = none := by
  refine Runs.exists_runIf (F := fun _ ↦ True) (by decide +kernel) fun s hs _ ↦ ?_
  exact sleeps_without_spin_lock cold_boot hs

/-- A process finds a page in the cache that another one is still reading from: it goes to sleep with
`pagecache.lock` held. -/
theorem sleeps_with_spin_lock :
    ∃ s₀ s : State (Fin 2), s₀.Boot ∧ Runs.Reaches State.step Runs.unguarded s₀ s ∧
      ¬ s.SleepsFree ∧ s.panicked = some .schedLocks := by
  obtain ⟨s, hs, hpanic, hheld⟩ : ∃ s ∈ Runs.run State.step
      [.lookup 0 (.copy (filePage 0)), .acquiresleep 0, .wrap 0, .fill 0 (some [7]), .setKey 0,
        .lookup 1 (.copy (filePage 0)), .acquiresleep 1] (cold (Fin 2)),
      s.panicked = some .schedLocks ∧ (s.phases 1).asleepWith = [.pagecache] := by
    decide +kernel
  refine ⟨cold (Fin 2), s, cold_boot, Runs.reaches_of_run hs, ?_, hpanic⟩
  intro h
  unfold Phase.asleepWith at hheld
  split at hheld
  · rename_i job i hphase
    rw [h 1 job i hphase] at hheld
    cases hheld
  · cases hheld

end Xv6Mmap.Cache
