import Xv6Mmap.Sched.ProcTable

/-!
# Zombies are reaped, and once

The pids of the processes are distinct and never given out again, every process has a parent that is
alive, and a process that sleeps in `wait` has no zombie child: `exit` wakes the parent in the
critical section in which the process becomes a zombie, and init in the one in which a zombie becomes
a child of init.
-/

namespace Xv6Mmap.Sched

open Library Function Slot Option

namespace ProcTable

variable {t u : ProcTable} {p q i j c np : Fin nProc} {slot : Slot}

/-! ## Pids -/

/-- No pid is in two slots, in a slot and among those returned by `wait`, or returned twice; all of
them have been given out by `nextpid`, which counts the forks. -/
@[grind cases]
structure Registered (t : ProcTable) : Prop where
  distinct : ∀ i j, (t.slots i).pid = (t.slots j).pid → (t.slots i).pid ≠ 0 → i = j
  used : ∀ i, (t.slots i).state ≠ .unused → (t.slots i).pid ≠ 0
  below : ∀ i, (t.slots i).pid.toNat < t.nextpid.toNat
  bound : t.nextpid.toNat ≤ t.forks + 2
  returned : ∀ r ∈ t.reaped, r ≠ 0 ∧ r.toNat < t.nextpid.toNat ∧ ∀ i, (t.slots i).pid ≠ r
  once : t.reaped.Nodup

/-- Fewer than `2 ^ 31 - 1` calls of `fork`. -/
def FewForks (t : ProcTable) : ProcAct → Prop
  | .fork _ => t.forks + 1 < 2 ^ 31 - 1
  | _ => True

instance (t : ProcTable) (a : ProcAct) : Decidable (t.FewForks a) :=
  match a with
  | .fork _ => inferInstanceAs (Decidable (_ < _))
  | .forkFail _ | .forkParent _ | .forkRun _ | .exit _ | .wait _ | .sleep _ _ | .wakeup _ | .kill _
  | .fault _ | .yield _ | .schedule _ => inferInstanceAs (Decidable True)

@[grind =] theorem slots_boot (i : Fin nProc) : boot.slots i =
    if i = 0 then { blank with state := .runnable, pid := 1 } else blank := by
  simp only [boot, update_apply]

theorem registered_boot : boot.Registered where
  distinct := by grind [blank]
  used := by grind [blank]
  below i := by
    rw [slots_boot]
    split <;> decide
  bound := by decide
  returned r hr := by cases hr
  once := List.nodup_nil

/-- Neither the pids nor the histories change, and no slot is taken. -/
theorem Registered.congr {slots : Slots} (h : t.Registered)
    (hpid : ∀ i, (slots i).pid = (t.slots i).pid)
    (hused : ∀ i, (slots i).state ≠ .unused → (t.slots i).state ≠ .unused) :
    { t with slots := slots }.Registered :=
  { h with
    distinct := by grind
    used := by grind
    below := by grind
    returned := by grind }

/-- One slot changes, but not its pid. -/
theorem Registered.setSlot (h : t.Registered) (hpid : slot.pid = (t.slots i).pid)
    (hused : slot.state ≠ .unused → (t.slots i).state ≠ .unused) :
    (t.setSlot i slot).Registered :=
  h.congr (by grind) (by grind)

/-- `nextpid` does not wrap. -/
theorem Registered.toNat_nextpid (h : t.Registered) (hfew : t.forks + 1 < 2 ^ 31 - 1) :
    (t.nextpid + 1).toNat = t.nextpid.toNat + 1 := by
  have hbound := h.bound
  rw [BitVec.toNat_add]
  exact Nat.mod_eq_of_lt (by simp; omega)

/-- The new slot gets a pid that nobody has had. -/
theorem Registered.allocproc (h : t.Registered) (hfew : t.forks + 1 < 2 ^ 31 - 1)
    (p : Fin nProc) : ({ t.allocproc p with forks := t.forks + 1 }).Registered := by
  have hbound := h.bound
  unfold ProcTable.allocproc
  split
  · exact { h with bound := by dsimp only; omega }
  rename_i np hfind
  have hnext := h.toNat_nextpid hfew
  have hfresh : ∀ i, (t.slots i).pid ≠ t.nextpid := by
    intro i heq
    exact absurd (congrArg BitVec.toNat heq) (Nat.ne_of_lt (h.below i))
  have hnonzero : t.nextpid ≠ 0 := by
    intro heq
    have hbelow := h.below np
    rw [heq] at hbelow
    exact Nat.not_lt_zero _ hbelow
  exact {
    distinct := by grind
    used := by grind
    below := by grind
    bound := by grind
    returned := by grind
    once := h.once }

/-- The pid of a slot is taken out and returned. -/
theorem Registered.reap (h : t.Registered) (hused : (t.slots c).state ≠ .unused)
    (hslot : slot.pid = 0) (hstate : slot.state = .unused) {phases : Fin nProc → ProcPhase} :
    ({ t.setSlot c slot with
      phases := phases
      reaped := t.reaped ++ [(t.slots c).pid] }).Registered := by
  have hpid := h.used c hused
  exact {
    distinct := by grind
    used := by grind
    below := by grind
    bound := h.bound
    returned := by grind
    once := by grind }

/-! ## Parents and children -/

/-- Init is alive, a process in `fork` has an embryo of its own, every other process has a parent
that is alive, and a process that sleeps in `wait` has no zombie child. -/
@[grind cases]
structure Families (t : ProcTable) : Prop where
  init : (t.slots t.initproc).state.alive = true
  root : (t.slots t.initproc).parent = none
  busy : ∀ p, t.phases p ≠ .user → (t.slots p).state.alive = true
  embryo : ∀ p np, (t.phases p).child = some np → (t.slots np).state = .embryo
  claimed : ∀ p q np, (t.phases p).child = some np → (t.phases q).child = some np → p = q
  forked : ∀ p np, t.phases p = .forked np → (t.slots np).parent = some p
  self : ∀ i, (t.slots i).parent ≠ some i
  parent : ∀ i, i ≠ t.initproc → (t.slots i).state.alive = true ∨ (t.slots i).state = .zombie →
    ∃ q, (t.slots i).parent = some q ∧ (t.slots q).state.alive = true
  onSelf : ∀ p, t.phases p = .waiting → (t.slots p).state = .sleeping →
    (t.slots p).chan = some (.proc p)
  patient : ∀ p c, t.phases p = .waiting → (t.slots p).state = .sleeping →
    (t.slots c).parent = some p → (t.slots c).state ≠ .zombie

theorem families_boot : boot.Families where
  init := by decide
  root := by decide
  busy p h := absurd rfl h
  embryo p np h := by cases h
  claimed p q np h := by cases h
  forked p np h := by cases h
  self := by grind [blank]
  parent i hi h := by
    rw [slots_boot, if_neg (show i ≠ 0 from hi)] at h
    rcases h with halive | hzombie
    · cases halive
    · cases hzombie
  onSelf p h := by cases h
  patient p c h := by cases h

section

variable (h : t.Families)
include h

/-- A process that is not alive is outside `fork` and `wait`. -/
theorem Families.user (hp : (t.slots p).state.alive = false) : t.phases p = .user := by
  by_contra hphase
  rw [h.busy p hphase] at hp
  cases hp

/-- States change among those of living processes, and nobody goes to sleep in `wait`. -/
theorem Families.calm {slots : Slots} (hparent : ∀ i, (slots i).parent = (t.slots i).parent)
    (hstate : ∀ i, (slots i).state = (t.slots i).state ∨
      (t.slots i).state.alive = true ∧ (slots i).state.alive = true)
    (hsleep : ∀ p, t.phases p = .waiting → (slots p).state = .sleeping →
      (t.slots p).state = .sleeping ∧ (slots p).chan = (t.slots p).chan) :
    { t with slots := slots }.Families := by
  have halive : ∀ i, (slots i).state.alive = (t.slots i).state.alive := by grind
  have hother : ∀ i state, state.alive = false →
      ((slots i).state = state ↔ (t.slots i).state = state) := by grind
  exact { h with
    init := by grind
    root := by grind
    busy := by grind
    embryo := fun p np hp ↦ (hother np .embryo rfl).mpr (h.embryo p np hp)
    forked := by grind
    self := by grind
    parent := by grind
    onSelf := by grind
    patient := by
      intro p c hp hsleeps hc hzombie
      exact h.patient p c hp (hsleep p hp hsleeps).1 ((hparent c).symm.trans hc)
        ((hother c .zombie rfl).mp hzombie) }

theorem Families.stirs {slots : Slots} (hstirs : ∀ i, (t.slots i).Stirs (slots i))
    (hparent : ∀ i, (slots i).parent = (t.slots i).parent) : { t with slots := slots }.Families := by
  apply h.calm hparent
  · intro i
    rcases (hstirs i).state with hsame | ⟨hsleeps, hruns⟩
    · exact .inl hsame
    · rw [hsleeps, hruns]
      exact .inr ⟨rfl, rfl⟩
  · intro p _ hsleeps
    exact ⟨(hstirs p).sleeping hsleeps, (hstirs p).chan⟩

/-- A living process changes its state, but does not go to sleep in `wait`. -/
theorem Families.setSlot (hparent : slot.parent = (t.slots i).parent)
    (hstate : slot.state = (t.slots i).state ∨
      (t.slots i).state.alive = true ∧ slot.state.alive = true)
    (hsleep : t.phases i = .waiting → slot.state = .sleeping →
      (t.slots i).state = .sleeping ∧ slot.chan = (t.slots i).chan) :
    (t.setSlot i slot).Families :=
  h.calm (by grind) (by grind) (by grind)

theorem Families.kill (pid : Word) : (t.kill pid).1.Families := by
  unfold ProcTable.kill
  split
  · exact h
  · rename_i i _
    dsimp only
    split
    · rename_i hsleeps
      exact h.setSlot rfl (.inr ⟨by rw [hsleeps]; rfl, rfl⟩) nofun
    · exact h.setSlot rfl (.inl rfl) fun _ hsleeps ↦ ⟨hsleeps, rfl⟩

/-- A process leaves `fork` or `wait`. -/
theorem Families.rest (p : Fin nProc) : (t.setPhase p .user).Families :=
  { h with
    busy := by grind
    embryo := by grind [ProcPhase.child]
    claimed := by grind [ProcPhase.child]
    forked := by grind
    onSelf := by grind
    patient := by grind }

/-- A process in `fork` changes the slot of its child, which nobody else is about to fill. -/
theorem Families.fresh (hdead : (t.slots np).state.alive = false)
    (hp : (t.slots p).state.alive = true) (hothers : ∀ q, q ≠ p → (t.phases q).child ≠ some np)
    {phase : ProcPhase} (hzombie : slot.state ≠ .zombie) (hself : slot.parent ≠ some np)
    (hparent : slot.state.alive = true →
      ∃ q, slot.parent = some q ∧ (t.slots q).state.alive = true) (hwaiting : phase ≠ .waiting)
    (hchild : ∀ c, phase.child = some c → c = np ∧ slot.state = .embryo)
    (hforked : ∀ c, phase = .forked c → slot.parent = some p) :
    ((t.setSlot np slot).setPhase p phase).Families := by
  have hkeeps : ∀ q, (t.slots q).state.alive = true →
      (((t.setSlot np slot).setPhase p phase).slots q).state.alive = true := by grind
  exact {
    init := hkeeps _ h.init
    root := by grind
    busy := by grind
    embryo := by grind
    claimed := by grind
    forked := by grind [ProcPhase.child]
    self := by grind
    parent := by
      intro i hi hlives
      have hcases : ∃ q, (((t.setSlot np slot).setPhase p phase).slots i).parent = some q ∧
          (t.slots q).state.alive = true := by
        by_cases hinp : i = np
        · grind
        · have hbefore := h.parent i hi
          grind
      obtain ⟨q, hq, halive⟩ := hcases
      exact ⟨q, hq, hkeeps q halive⟩
    onSelf := by grind
    patient := by grind }

/-! ### The steps of `fork` -/

theorem Families.allocproc (hp : (t.slots p).state = .running) :
    ({ t.allocproc p with forks := t.forks + 1 }).Families := by
  have halive : (t.slots p).state.alive = true := by rw [hp]; rfl
  unfold ProcTable.allocproc
  split
  · exact { h with }
  rename_i np hfind
  have hunused : (t.slots np).state = .unused := beq_iff_eq.mp (find_some hfind)
  have hdead : (t.slots np).state.alive = false := by rw [hunused]; rfl
  have huser : update t.phases np .user = t.phases := by
    rw [← h.user hdead]
    exact update_eq_self np t.phases
  have hfresh : ((t.setSlot np { t.slots np with state := .embryo, pid := t.nextpid }).setPhase p
      (.forking np)).Families := by
    refine h.fresh hdead halive ?_ nofun (h.self np) nofun nofun ?_ nofun
    · intro q _ hq
      have hembryo := h.embryo q np hq
      rw [hunused] at hembryo
      cases hembryo
    · intro c hc
      exact ⟨(some.inj hc).symm, rfl⟩
  dsimp only
  rw [huser]
  exact { hfresh with }

/-- The slot of a process in `fork`. -/
theorem Families.child_eq (hp : (t.phases p).child = some np) :
    (t.slots np).state.alive = false ∧ ∀ q, q ≠ p → (t.phases q).child ≠ some np := by
  constructor
  · rw [h.embryo p np hp]
    rfl
  · intro q hqp hq
    exact hqp (h.claimed q p np hq hp)

theorem Families.forkFail (hp : (t.slots p).state = .running) (hphase : t.phases p = .forking np) :
    ((t.setState np .unused).setPhase p .user).Families := by
  have hchild : (t.phases p).child = some np := by rw [hphase]; rfl
  obtain ⟨hdead, hothers⟩ := h.child_eq hchild
  exact h.fresh hdead (by rw [hp]; rfl) hothers nofun (h.self np) nofun nofun nofun nofun

theorem Families.forkParent (hp : (t.slots p).state = .running) (hphase : t.phases p = .forking np)
    : ((t.setSlot np { t.slots np with parent := some p }).setPhase p (.forked np)).Families := by
  have hchild : (t.phases p).child = some np := by rw [hphase]; rfl
  have hembryo := h.embryo p np hchild
  obtain ⟨hdead, hothers⟩ := h.child_eq hchild
  refine h.fresh hdead (by rw [hp]; rfl) hothers ?_ ?_ ?_ nofun ?_ (fun _ _ ↦ rfl)
  · dsimp only
    rw [hembryo]
    decide
  · intro heq
    rw [some.inj heq, hembryo] at hp
    cases hp
  · dsimp only
    rw [hembryo]
    exact nofun
  · intro c hc
    exact ⟨(some.inj hc).symm, hembryo⟩

theorem Families.forkRun (hp : (t.slots p).state = .running) (hphase : t.phases p = .forked np) :
    ((t.setState np .runnable).setPhase p .user).Families := by
  have halive : (t.slots p).state.alive = true := by rw [hp]; rfl
  have hchild : (t.phases p).child = some np := by rw [hphase]; rfl
  obtain ⟨hdead, hothers⟩ := h.child_eq hchild
  have hparent := h.forked p np hphase
  exact h.fresh hdead halive hothers nofun (h.self np) (fun _ ↦ ⟨p, hparent, halive⟩) nofun nofun
    nofun

/-! ### `exit` -/

omit h in
/-- The parent of the process that exits has been woken. -/
theorem awake_abandon_parent (hparent : (t.slots p).parent = some q) :
    Awake (.proc q) (t.abandon p) := by
  have hwoken := awake_wakeup1 (.proc q) t.slots
  have hstirs := stirs_reparent p t.initproc (wakeup1 (some (.proc q)) t.slots)
  unfold abandon
  rw [hparent, map_some]
  exact hwoken.stirs hstirs

omit h in
/-- Init has been woken if it has got a zombie. -/
theorem awake_abandon_init (hparent : (t.slots c).parent = some p)
    (hzombie : (t.slots c).state = .zombie) : Awake (.proc t.initproc) (t.abandon p) := by
  have hwoken := Stirs.wake (t.slots c) ((t.slots p).parent.map .proc)
  refine awake_reparent (i := c) ?_ ?_
  · rw [wakeup1, parent_wake]
    exact hparent
  · exact (hwoken.state_iff (by decide) (by decide)).mpr hzombie

omit h in
theorem stirs_exit (hi : i ≠ p) : (t.slots i).Stirs ((t.exit p).slots i) := by
  rw [slots_exit_of_ne hi]
  exact t.stirs_abandon p i

omit h in
theorem parent_exit (hinit : p ≠ t.initproc) (i : Fin nProc) : ((t.exit p).slots i).parent =
    if (t.slots i).parent = some p then some t.initproc else (t.slots i).parent := by
  grind [slots_exit_self, parent_abandon, slots_exit_of_ne]

omit h in
theorem alive_exit (hi : i ≠ p) : ((t.exit p).slots i).state.alive = (t.slots i).state.alive :=
  (stirs_exit hi).alive

omit h in
theorem zombie_exit (hi : i ≠ p) :
    ((t.exit p).slots i).state = .zombie ↔ (t.slots i).state = .zombie :=
  (stirs_exit hi).state_iff (by decide) (by decide)

/-- The children of the process that exits go to init, and the others keep their parents. -/
theorem Families.parent_exit (hp : (t.slots p).state = .running) (hinit : p ≠ t.initproc)
    (hi : i ≠ t.initproc) (hlives : ((t.exit p).slots i).state.alive = true ∨
      ((t.exit p).slots i).state = .zombie) :
    ∃ q, ((t.exit p).slots i).parent = some q ∧ ((t.exit p).slots q).state.alive = true := by
  have hbefore : (t.slots i).state.alive = true ∨ (t.slots i).state = .zombie := by
    by_cases hip : i = p
    · rw [hip, hp]
      exact .inl rfl
    · rwa [alive_exit hip, zombie_exit hip] at hlives
  obtain ⟨q, hq, hqalive⟩ := h.parent i hi hbefore
  rw [ProcTable.parent_exit hinit, hq]
  by_cases hqp : q = p
  · rw [if_pos (by rw [hqp])]
    exact ⟨t.initproc, rfl, (alive_exit hinit.symm).trans h.init⟩
  · rw [if_neg fun heq ↦ hqp (some.inj heq)]
    exact ⟨q, rfl, (alive_exit hqp).trans hqalive⟩

/-- Whoever still sleeps in `wait` has got no zombie. -/
theorem Families.patient_exit (hinit : p ≠ t.initproc) (hq : t.phases q = .waiting) (hqp : q ≠ p)
    (hsleeps : ((t.exit p).slots q).state = .sleeping)
    (hc : ((t.exit p).slots c).parent = some q) : ((t.exit p).slots c).state ≠ .zombie := by
  intro hzombie
  have hbefore := (stirs_exit hqp).sleeping hsleeps
  have hchan : (t.abandon p q).chan = some (.proc q) := by
    rw [(t.stirs_abandon p q).chan]
    exact h.onSelf q hq hbefore
  rw [slots_exit_of_ne hqp] at hsleeps
  rw [ProcTable.parent_exit hinit] at hc
  by_cases hadopted : (t.slots c).parent = some p
  · -- the child was a zombie before, and init has been woken
    rw [if_pos hadopted] at hc
    have hcp : c ≠ p := fun heq ↦ h.self p (heq ▸ hadopted)
    rw [← some.inj hc] at hsleeps hchan
    exact awake_abandon_init hadopted ((zombie_exit hcp).mp hzombie) _ hsleeps hchan
  · rw [if_neg hadopted] at hc
    by_cases hcp : c = p
    · exact awake_abandon_parent (hcp ▸ hc) q hsleeps hchan
    · exact h.patient q c hq hbefore hc ((zombie_exit hcp).mp hzombie)

theorem Families.exit (hp : (t.slots p).state = .running) (huser : t.phases p = .user)
    (hinit : p ≠ t.initproc) : (t.exit p).Families := by
  have hne : ∀ {i}, t.phases i ≠ .user → i ≠ p := by
    rintro i hi rfl
    exact hi huser
  have hwaits : ∀ q, t.phases q = .waiting → q ≠ p := fun q hq ↦ hne (by rw [hq]; decide)
  refine {
    init := (alive_exit hinit.symm).trans h.init
    root := ?root
    busy := fun q hq ↦ (alive_exit (hne hq)).trans (h.busy q hq)
    embryo := ?embryo
    claimed := h.claimed
    forked := ?forked
    self := ?self
    parent := fun i ↦ h.parent_exit hp hinit
    onSelf := ?onSelf
    patient := fun q c hq ↦ h.patient_exit hinit hq (hwaits q hq) }
  case root =>
    change ((t.exit p).slots t.initproc).parent = none
    rw [ProcTable.parent_exit hinit, h.root]
    exact if_neg nofun
  case embryo =>
    intro q np hq
    have hembryo := h.embryo q np hq
    have hnp : np ≠ p := by
      intro heq
      rw [heq, hp] at hembryo
      cases hembryo
    exact ((stirs_exit hnp).state_iff (by decide) (by decide)).mpr hembryo
  case forked =>
    intro q np hq
    have hphase : t.phases q = .forked np := hq
    have hqp : q ≠ p := hne (by rw [hphase]; exact nofun)
    rw [ProcTable.parent_exit hinit, h.forked q np hq]
    exact if_neg fun heq ↦ hqp (some.inj heq)
  case self => grind [ProcTable.parent_exit]
  case onSelf =>
    intro q hq hsleeps
    rw [(stirs_exit (hwaits q hq)).chan]
    exact h.onSelf q hq ((stirs_exit (hwaits q hq)).sleeping hsleeps)

/-! ### `wait` -/

/-- A zombie is reaped: it has no children and nobody waits for it. -/
theorem Families.reap (hc : (t.slots c).state = .zombie)
    (hstate : slot.state = .unused) (hparent : slot.parent = none) :
    (t.setSlot c slot).Families := by
  have hne : ∀ q, (t.slots q).state.alive = true → q ≠ c := by grind [ProcState.alive]
  have hkeeps : ∀ q, (t.slots q).state.alive = true →
      ((t.setSlot c slot).slots q).state.alive = true := by grind
  exact {
    init := hkeeps _ h.init
    root := by grind
    busy := fun q hq ↦ hkeeps q (h.busy q hq)
    embryo := by grind
    claimed := h.claimed
    forked := by grind [ProcPhase.child]
    self := by grind
    parent := by
      intro i hi hlives
      have hbefore := h.parent i hi
      grind [ProcState.alive]
    onSelf := by grind
    patient := by grind }

/-- A process enters the loop of `wait`. -/
theorem Families.enter (hp : (t.slots p).state.alive = true)
    (hchan : (t.slots p).chan = some (.proc p))
    (hnone : ∀ c, (t.slots c).parent = some p → (t.slots c).state ≠ .zombie) :
    (t.setPhase p .waiting).Families := by
  exact { h with
    busy := by grind
    embryo := by grind [ProcPhase.child]
    claimed := by grind [ProcPhase.child]
    forked := by grind
    onSelf := by grind
    patient := by grind }

/-- A process that has found no zombie among its children goes to sleep on itself. -/
theorem Families.doze (hp : (t.slots p).state = .running)
    (hnone : ∀ c, (t.slots c).parent = some p → (t.slots c).state ≠ .zombie) :
    ((t.setSlot p { t.slots p with state := .sleeping, chan := some (.proc p) }).setPhase p
      .waiting).Families := by
  have hsleeps : ((t.setPhase p .user).setSlot p
      { t.slots p with state := .sleeping, chan := some (.proc p) }).Families := by
    refine (h.rest p).setSlot rfl (.inr ⟨?_, rfl⟩) ?_
    · change (t.slots p).state.alive = true
      rw [hp]
      rfl
    · intro hphase
      rw [phases_setPhase_self] at hphase
      cases hphase
  have hslot := (t.setPhase p .user).slots_setSlot_self p
    { t.slots p with state := .sleeping, chan := some (.proc p) }
  have henter := hsleeps.enter (p := p) (by rw [hslot]; rfl) (by rw [hslot]) (by
    intro c hc
    by_cases hcp : c = p
    · rw [hcp, hslot]
      exact nofun
    · rw [slots_setSlot_of_ne hcp] at hc ⊢
      exact hnone c hc)
  change ({ t.setSlot p _ with phases := update t.phases p .waiting }).Families
  rw [← update_idem .user]
  exact { henter with }

theorem Families.wait (hp : (t.slots p).state = .running) : (t.wait p).Families := by
  unfold ProcTable.wait
  split
  · rename_i c hfind
    have hc := find_some hfind
    rw [Bool.and_eq_true, beq_iff_eq, beq_iff_eq] at hc
    exact { (h.rest p).reap hc.2 rfl rfl with }
  · grind [h.rest, h.doze, find_none]

/-! ## Runs -/

theorem Families.step {a : ProcAct} (hstep : t.step a = some u) : u.Families := by
  unfold ProcTable.step at hstep
  cases a with
  | fork p =>
    obtain ⟨⟨hp, -⟩, rfl⟩ := ite_some_none_eq_some.mp hstep
    exact h.allocproc hp
  | forkFail p => grind [h.forkFail]
  | forkParent p => grind [h.forkParent]
  | forkRun p => grind [h.forkRun]
  | exit p => grind [h.exit]
  | wait p => grind [h.wait]
  | sleep p chan =>
    obtain ⟨⟨hp, hphase⟩, rfl⟩ := ite_some_none_eq_some.mp hstep
    exact h.setSlot rfl (.inr ⟨by rw [hp]; rfl, rfl⟩) fun hwaits ↦ absurd hwaits hphase
  | wakeup chan =>
    cases hstep
    exact h.stirs (fun i ↦ .wake (t.slots i) (some chan)) fun i ↦
      parent_wake (t.slots i) (some chan)
  | kill pid =>
    cases hstep
    exact { h.kill pid with }
  | fault p =>
    cases (ite_none_right_eq_some.mp hstep).2
    have hkilled : (t.setSlot p { t.slots p with killed := true }).Families :=
      h.setSlot rfl (.inl rfl) fun _ hsleeps ↦ ⟨hsleeps, rfl⟩
    exact { hkilled with }
  | yield p | schedule p =>
    obtain ⟨hp, rfl⟩ := ite_some_none_eq_some.mp hstep
    exact h.setSlot rfl (.inr ⟨by rw [hp]; rfl, rfl⟩) nofun

end

section

variable (h : t.Registered)
include h

theorem Registered.stirs {slots : Slots}
    (hstirs : ∀ i, (t.slots i).Stirs (slots i)) : ({ t with slots := slots }).Registered := by
  refine h.congr (fun i ↦ (hstirs i).pid) ?_
  intro i hi hunused
  exact hi (((hstirs i).state_iff (by decide) (by decide)).mpr hunused)

theorem Registered.exit (hp : (t.slots p).state = .running) :
    (t.exit p).Registered := by
  have hstirs := t.stirs_abandon p p
  have hrunning : (t.abandon p p).state = .running :=
    (hstirs.state_iff (by decide) (by decide)).mpr hp
  unfold ProcTable.exit ProcTable.setState
  refine (h.stirs (t.stirs_abandon p)).setSlot rfl fun _ ↦ ?_
  change (t.abandon p p).state ≠ .unused
  rw [hrunning]
  decide

theorem Registered.wait (hp : (t.slots p).state = .running) :
    (t.wait p).Registered := by
  have hused : (t.slots p).state ≠ .unused := by rw [hp]; decide
  unfold ProcTable.wait
  split
  · grind [find_some, h.reap]
  · split
    · exact { h with }
    · have hsleeps : (t.setSlot p
          { t.slots p with state := .sleeping, chan := some (.proc p) }).Registered :=
        h.setSlot rfl fun _ ↦ hused
      exact { hsleeps with }

theorem Registered.kill (pid : Word) : (t.kill pid).1.Registered := by
  unfold ProcTable.kill
  split
  · exact h
  · grind [h.setSlot]

theorem Registered.step {a : ProcAct} (hfamilies : t.Families)
    (hfew : t.FewForks a) (hstep : t.step a = some u) : u.Registered := by
  have hrunning : ∀ {p}, (t.slots p).state = .running → (t.slots p).state ≠ .unused := by
    intro p hp
    rw [hp]
    decide
  unfold ProcTable.step at hstep
  cases a with
  | fork p =>
    cases (ite_none_right_eq_some.mp hstep).2
    exact h.allocproc hfew p
  | forkFail p =>
    dsimp only at hstep
    split at hstep
    · rename_i np hphase
      cases (ite_none_right_eq_some.mp hstep).2
      have hfreed : (t.setState np .unused).Registered := h.setSlot rfl fun hne ↦ absurd rfl hne
      exact { hfreed with }
    · cases hstep
  | forkParent p =>
    dsimp only at hstep
    split at hstep
    · rename_i np hphase
      cases (ite_none_right_eq_some.mp hstep).2
      have hset : (t.setSlot np { t.slots np with parent := some p }).Registered :=
        h.setSlot rfl id
      exact { hset with }
    · cases hstep
  | forkRun p =>
    dsimp only at hstep
    split at hstep
    · rename_i np hphase
      cases (ite_none_right_eq_some.mp hstep).2
      have hembryo := hfamilies.embryo p np (by rw [hphase]; rfl)
      have hruns : (t.setState np .runnable).Registered :=
        h.setSlot rfl fun _ ↦ by rw [hembryo]; decide
      exact { hruns with }
    · cases hstep
  | exit p => grind [h.exit]
  | wait p => grind [h.wait]
  | sleep p chan | schedule p => grind [h.setSlot]
  | wakeup chan =>
    cases hstep
    exact h.stirs fun i ↦ .wake (t.slots i) (some chan)
  | kill pid =>
    cases hstep
    exact { h.kill pid with }
  | fault p =>
    cases (ite_none_right_eq_some.mp hstep).2
    have hkilled : (t.setSlot p { t.slots p with killed := true }).Registered := h.setSlot rfl id
    exact { hkilled with }
  | yield p =>
    obtain ⟨hp, rfl⟩ := ite_some_none_eq_some.mp hstep
    exact h.setSlot rfl fun _ ↦ hrunning hp

end

theorem orderly_of_reaches (h : Runs.Reaches ProcTable.step FewForks boot t) :
    t.Registered ∧ t.Families := by
  apply h.invariant (I := fun t ↦ t.Registered ∧ t.Families)
  · exact ⟨registered_boot, families_boot⟩
  · intro t a u hinv hfew hstep
    exact ⟨hinv.1.step hinv.2 hfew hstep, hinv.2.step hstep⟩

end ProcTable

open ProcTable

/-- Every zombie can be reaped, and once: in every run with fewer than `2 ^ 31 - 1` forks the pids of
the processes are distinct, every process but init has a parent that is neither unused nor a zombie,
nobody sleeps in `wait` with a zombie child, and no pid is returned twice. -/
theorem zombies_reaped_once {t : ProcTable} (h : Runs.Reaches step FewForks boot t) :
    (∀ i j, (t.slots i).state ≠ .unused → (t.slots j).state ≠ .unused →
      (t.slots i).pid = (t.slots j).pid → i = j) ∧
    (∀ i, i ≠ t.initproc → (t.slots i).state.alive = true ∨ (t.slots i).state = .zombie →
      ∃ q, (t.slots i).parent = some q ∧ (t.slots q).state ≠ .unused ∧
        (t.slots q).state ≠ .zombie) ∧
    (∀ p c, t.phases p = .waiting → (t.slots p).state = .sleeping →
      (t.slots p).chan = some (.proc p) → (t.slots c).parent = some p →
        (t.slots c).state ≠ .zombie) ∧
    t.reaped.Nodup := by
  obtain ⟨hregistered, hfamilies⟩ := orderly_of_reaches h
  refine ⟨?_, ?_, ?_, hregistered.once⟩
  · intro i j hi _ hpid
    exact hregistered.distinct i j hpid (hregistered.used i hi)
  · intro i hi hlives
    obtain ⟨q, hq, halive⟩ := hfamilies.parent i hi hlives
    refine ⟨q, hq, ?_, ?_⟩
    · intro hunused
      rw [hunused] at halive
      cases halive
    · intro hzombie
      rw [hzombie] at halive
      cases halive
  · intro p c hphase hsleeps _ hc
    exact hfamilies.patient p c hphase hsleeps hc

/-- The first process forks and waits, the child exits and is reaped. -/
theorem zombies_reaped_once_child :
    let acts := [.schedule 0, .fork 0, .forkParent 0, .forkRun 0, .wait 0, .schedule 1, .exit 1,
      .schedule 0, .wait 0]
    let t := (Runs.runIf step FewForks acts boot).get (by decide +kernel)
    t.reaped = [2] ∧ t.reaped.Nodup :=
  ⟨by decide +kernel, (zombies_reaped_once
    (Runs.reaches_of_runIf (Option.some_get _).symm)).2.2.2⟩

end Xv6Mmap.Sched
