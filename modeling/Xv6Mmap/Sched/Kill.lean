import Xv6Mmap.Sched.ProcTable

/-!
# Whom `kill` hits

`kill` looks for a pid in all slots of the process table, and a slot that nobody uses has one too:
`wait` leaves `0` behind, an `allocproc` or `fork` that fails the pid it had given out.  The flag it
sets there stays until the slot is used again, since `allocproc` does not clear it.  As long as no
call is aimed at such a slot, and no process is killed whose creation then fails, a process is killed
only if `kill` or a fault was aimed at it.
-/

namespace Xv6Mmap.Sched

open Function Library Option

namespace ProcTable

variable {t u : ProcTable} {p i : Fin nProc}

/-- A killed slot is in use, and `kill` or a fault was aimed at its process. -/
def Clean (t : ProcTable) : Prop :=
  ∀ i, (t.slots i).killed = true → (t.slots i).state ≠ .unused ∧ t.targeted i = true

/-- The condition on the next step: `kill` is not called with the pid of an unused slot, and a
process whose creation fails has not been killed. -/
def Aimed (t : ProcTable) : ProcAct → Prop
  | .kill pid => ∀ i, (t.slots i).pid = pid → (t.slots i).state ≠ .unused
  | .forkFail p => ∀ np, t.phases p = .forking np → (t.slots np).killed = false
  | _ => True

theorem clean_boot : boot.Clean := by
  intro i hkilled
  have hall : ∀ i, (boot.slots i).killed = false := by decide
  rw [hall i] at hkilled
  cases hkilled

section

variable (h : t.Clean)
include h

theorem Clean.setSlot {slot : Slot}
    (hslot : slot.killed = true → slot.state ≠ .unused ∧ t.targeted i = true) :
    (t.setSlot i slot).Clean := by
  intro j hkilled
  change (update t.slots i slot j).killed = true at hkilled
  change (update t.slots i slot j).state ≠ .unused ∧ t.targeted j = true
  by_cases hji : j = i
  · subst hji
    rw [update_self] at hkilled ⊢
    exact hslot hkilled
  · rw [update_of_ne hji] at hkilled ⊢
    exact h j hkilled

/-- The flag of the slot stays, and the slot stays in use. -/
theorem Clean.setState {state : ProcState} (hstate : state ≠ .unused) :
    (t.setState i state).Clean :=
  h.setSlot fun hkilled ↦ ⟨hstate, (h i hkilled).2⟩

/-- Wakeups neither kill nor free. -/
theorem Clean.stirs {slots : Slots} (hstirs : ∀ i, (t.slots i).Stirs (slots i)) :
    ({ t with slots := slots }).Clean := by
  intro i hkilled
  change (slots i).killed = true at hkilled
  rw [(hstirs i).killed] at hkilled
  obtain ⟨hused, htargeted⟩ := h i hkilled
  refine ⟨?_, htargeted⟩
  intro hunused
  exact hused (((hstirs i).state_iff (by decide) (by decide)).mp hunused)

theorem Clean.allocproc (p : Fin nProc) : (t.allocproc p).Clean := by
  unfold ProcTable.allocproc
  split
  · exact h
  · rename_i np hfind
    have hunused : (t.slots np).state = .unused := beq_iff_eq.mp (find_some hfind)
    have hspared : (t.slots np).killed = false := by
      rw [← Bool.not_eq_true]
      intro hkilled
      exact (h np hkilled).1 hunused
    intro j hkilled
    change (update t.slots np _ j).killed = true at hkilled
    by_cases hjnp : j = np
    · subst hjnp
      rw [update_self] at hkilled
      rw [hspared] at hkilled
      cases hkilled
    · rw [update_of_ne hjnp] at hkilled
      change (update t.slots np _ j).state ≠ _ ∧ update t.targeted np false j = _
      rw [update_of_ne hjnp, update_of_ne hjnp]
      exact h j hkilled

theorem Clean.exit (p : Fin nProc) : (t.exit p).Clean := by
  rw [ProcTable.exit]
  exact (h.stirs (t.stirs_abandon p)).setState (by decide)

theorem Clean.wait (p : Fin nProc) : (t.wait p).Clean := by
  unfold ProcTable.wait
  split
  · exact h.setSlot nofun
  · split
    · exact h
    · exact h.setSlot fun hkilled ↦ ⟨nofun, (h p hkilled).2⟩

theorem Clean.kill {pid : Word} (haimed : t.Aimed (.kill pid)) :
    ({ (t.kill pid).1 with
      targeted := fun i ↦ t.targeted i || (t.slots i).pid == pid }).Clean := by
  have hmore : ({ t with targeted := fun i ↦ t.targeted i || (t.slots i).pid == pid }).Clean := by
    intro i hkilled
    obtain ⟨hused, htargeted⟩ := h i hkilled
    exact ⟨hused, by simp [htargeted]⟩
  unfold ProcTable.kill
  split
  · exact hmore
  · rename_i i hfind
    have hpid : (t.slots i).pid = pid := beq_iff_eq.mp (find_some hfind)
    refine hmore.setSlot fun _ ↦ ⟨?_, ?_⟩
    · dsimp only
      split
      · decide
      · exact haimed i hpid
    · simp [hpid]

theorem Clean.fault (hp : (t.slots p).state = .running) :
    ({ t.setSlot p { t.slots p with killed := true } with
      targeted := update t.targeted p true }).Clean := by
  have hmore : ({ t with targeted := update t.targeted p true }).Clean := by
    intro i hkilled
    obtain ⟨hused, htargeted⟩ := h i hkilled
    refine ⟨hused, ?_⟩
    change update t.targeted p true i = true
    by_cases hip : i = p
    · rw [hip, update_self]
    · rw [update_of_ne hip]
      exact htargeted
  refine hmore.setSlot fun _ ↦ ⟨?_, update_self ..⟩
  dsimp only
  rw [hp]
  decide

theorem Clean.step {a : ProcAct} (haimed : t.Aimed a) (hstep : t.step a = some u) :
    u.Clean := by
  unfold ProcTable.step at hstep
  cases a with
  | fork p =>
    cases (ite_none_right_eq_some.mp hstep).2
    exact h.allocproc p
  | forkFail p =>
    dsimp only at hstep
    split at hstep
    · rename_i np hphase
      cases (ite_none_right_eq_some.mp hstep).2
      refine .setSlot h fun hkilled ↦ ?_
      rw [haimed np hphase] at hkilled
      cases hkilled
    · cases hstep
  | forkParent p =>
    dsimp only at hstep
    split at hstep
    · rename_i np hphase
      cases (ite_none_right_eq_some.mp hstep).2
      exact .setSlot h (h np)
    · cases hstep
  | forkRun p =>
    dsimp only at hstep
    split at hstep
    · rename_i np hphase
      cases (ite_none_right_eq_some.mp hstep).2
      exact .setState h (by decide)
    · cases hstep
  | exit p =>
    cases (ite_none_right_eq_some.mp hstep).2
    exact h.exit p
  | wait p =>
    cases (ite_none_right_eq_some.mp hstep).2
    exact h.wait p
  | sleep p chan | schedule p =>
    cases (ite_none_right_eq_some.mp hstep).2
    exact h.setSlot fun hkilled ↦ ⟨nofun, (h p hkilled).2⟩
  | wakeup chan =>
    cases hstep
    exact h.stirs fun i ↦ .wake (t.slots i) (some chan)
  | kill pid =>
    cases hstep
    exact h.kill haimed
  | fault p => grind [h.fault]
  | yield p =>
    cases (ite_none_right_eq_some.mp hstep).2
    exact h.setState (by decide)

end

theorem clean_of_reaches (h : Runs.Reaches ProcTable.step Aimed boot t) : t.Clean :=
  h.invariant clean_boot fun _ _ _ hclean haimed hstep ↦ hclean.step haimed hstep

/-- `kill` returns 0 only if it has found a slot with that pid. -/
theorem exists_of_kill {pid : Word} (h : (t.kill pid).2 = true) :
    ∃ i, (t.slots i).pid = pid := by grind [kill, find_some]

end ProcTable

open ProcTable

/-- `kill(0)` finds the slot that the next child gets, and returns 0: no process has the pid 0, and
the child starts out killed. -/
theorem kill_hits_unused_slot :
    (boot.kill 0).2 = true ∧ (∀ i, (boot.slots i).pid = 0 → (boot.slots i).state = .unused) ∧
    ∃ t, Runs.run step [.kill 0, .schedule 0, .fork 0, .forkParent 0, .forkRun 0] boot = some t ∧
      (t.slots 1).state = .runnable ∧ (t.slots 1).killed = true ∧ t.targeted 1 = false := by
  refine ⟨by decide, by decide, _, rfl, by decide, by decide, by decide⟩

/-- In every run in which `kill` is not called with the pid of an unused slot and no process is
killed whose creation then fails, a process that is sleeping, runnable or running is killed only if
`kill` or a fault was aimed at it since it has its pid, and `kill` returns 0 only if there is a
process with that pid. -/
theorem kill_hits_target {t : ProcTable} (h : Runs.Reaches step Aimed boot t) :
    (∀ i, (t.slots i).state.alive = true → (t.slots i).killed = true → t.targeted i = true) ∧
    ∀ pid, t.Aimed (.kill pid) → (t.kill pid).2 = true →
      ∃ i, (t.slots i).pid = pid ∧ (t.slots i).state ≠ .unused := by
  constructor
  · intro i _ hkilled
    exact (clean_of_reaches h i hkilled).2
  · intro pid haimed hkill
    obtain ⟨i, hpid⟩ := exists_of_kill hkill
    exact ⟨i, hpid, haimed i hpid⟩

instance (t : ProcTable) (a : ProcAct) : Decidable (t.Aimed a) :=
  match a with
  | .kill _ | .forkFail _ => inferInstanceAs (Decidable (∀ _, _ → _))
  | .fork _ | .forkParent _ | .forkRun _ | .exit _ | .wait _ | .sleep _ _ | .wakeup _ | .fault _
  | .yield _ | .schedule _ => inferInstanceAs (Decidable True)

theorem kill_hits_target_child :
    let acts := [.schedule 0, .fork 0, .forkParent 0, .forkRun 0, .kill 2]
    let t := (Runs.runIf step Aimed acts boot).get (by decide)
    (t.slots 1).killed = true ∧ t.targeted 1 = true :=
  ⟨by decide, (kill_hits_target (Runs.reaches_of_runIf (Option.some_get _).symm)).1 1
    (by decide) (by decide)⟩

end Xv6Mmap.Sched
