import Xv6Mmap.Machine.Slots

/-!
# The regions of all processes

A ledger records, for each process, the regions that its successful `mmap` calls have created, or
that it has inherited by `fork`, and that have not been unmapped.  In every run that keeps frames
safe, the live entries in the table of a process that can run are exactly the regions of its ledger.
-/

namespace Xv6Mmap

open Function Library Prog RegionTable Set Proc

variable {N : ℕ} {op : Op N}

/-- The regions of each process. -/
abbrev Ledger (N : ℕ) := Fin N → List Region

namespace Op

/-- The ledger after an operation in state `s`. -/
def record (s : Machine N) (ledger : Ledger N) : Op N → Ledger N
  | mmap p call =>
    match Kernel.myMmap p call s with
    | (.ok r, _) => update ledger p ((RegionCall.mmap call).record r (ledger p))
    | (.error _, _) => ledger
  | munmap p addr size =>
    match Kernel.myMunmap p addr size s with
    | (.ok r, _) => update ledger p ((RegionCall.munmap addr size).record r (ledger p))
    | (.error _, _) => ledger
  | fork p =>
    match Kernel.fork p s with
    | (.ok (some np), _) => update ledger np (ledger p)
    | _ => ledger
  | exec p image =>
    match Kernel.exec p image s with
    | (.ok true, _) => update ledger p []
    | _ => ledger
  | exit p => update ledger p []
  | load _ _ => ledger
  | store _ _ _ => ledger
  | wait _ => ledger

end Op

namespace Machine

/-- One step of the system with its ledger. -/
def stepLedger (x : Machine N × Ledger N) (op : Op N) : Option (Machine N × Ledger N) :=
  (x.1.step op).map fun t ↦ (t, op.record x.1 x.2)

/-- The live regions of every process that can run are those of the ledger. -/
def Recorded (s : Machine N) (ledger : Ledger N) : Prop :=
  ∀ p, (s.procs p).state = .runnable → (s.procs p).mmaps.live.Perm (ledger p)

variable {s t : Machine N} {ledger : Ledger N} {p : Fin N}

section

variable (h : s.Recorded ledger)
include h

/-- Slots that have not changed keep their regions. -/
theorem Recorded.of_kept {A : Set (Fin N)} (hkept : s.SlotsKept A t)
    (hA : ∀ q ∈ A, (t.procs q).state = .runnable → (t.procs q).mmaps.live.Perm (ledger q)) :
    t.Recorded ledger := by
  intro q hq
  by_cases hmem : q ∈ A
  · exact hA q hmem hq
  · have hslot := hkept q hmem
    rw [live_of_slot hslot]
    exact h q ((state_of_slot hslot).symm.trans hq)

/-- One slot has changed, and so has its ledger. -/
theorem Recorded.of_slot (hkept : s.SlotsKept {p} t) {regions : List Region}
    (hp : (t.procs p).state = .runnable → (t.procs p).mmaps.live.Perm regions) :
    t.Recorded (update ledger p regions) := by
  intro q hq
  by_cases hqp : q = p
  · subst hqp
    rw [update_self]
    exact hp hq
  · have hslot := hkept q hqp
    rw [update_of_ne hqp, live_of_slot hslot]
    exact h q ((state_of_slot hslot).symm.trans hq)

/-- A process that has gone to sleep does not run any more. -/
theorem Recorded.asleep (hkept : s.SlotsKept {p} t) : (t.asleep p).Recorded ledger := by
  have hother (q : Fin N) (hq : q ≠ p) : (t.asleep p).procs q = t.procs q :=
    update_of_ne hq _ _
  refine h.of_kept (A := {p}) ?_ ?_
  · intro q hq
    rw [hother q hq]
    exact hkept q hq
  · rintro q rfl hrun
    have hself : ((t.asleep q).procs q).state = .sleeping := by
      simp only [Machine.asleep, update_self]
    rw [hself] at hrun
    cases hrun

end

end Machine

namespace RegionTable

/-- A child that has inherited all live entries of its parent has the same live regions. -/
theorem live_inherit (child : RegionTable) {parent : RegionTable} (h : parent.total ≤ 30) :
    ((child.inherit parent parent.total.toNat).setTotal parent.totalMmaps).live = parent.live := by
  have htotal : ((child.inherit parent parent.total.toNat).setTotal parent.totalMmaps).total =
      parent.total := total_setTotal _ _
  rw [live, live, htotal]
  apply firstRegions_congr
  intro i hi
  rw [setTotal, set_of_ne _ _ (by omega)]
  exact region_inherit child parent hi

end RegionTable

namespace Machine

open Kernel

variable {s t : Machine N} {ledger : Ledger N} {p : Fin N}

section

variable (h : s.Recorded ledger)
include h

/-- Operations that change no slot. -/
theorem Recorded.of_procFrame (op : Op N) (hbody : Respects procFrame op.body)
    (hstep : s.step op = some t) : t.Recorded ledger := by
  have hrel := hbody s
  obtain ⟨_, hrun | ⟨u, e, hrun, _, rfl⟩⟩ := step_cases hstep
  · rw [hrun] at hrel
    exact h.of_kept (.of_procFrame hrel ∅) fun q hq ↦ absurd hq (notMem_empty q)
  · rw [hrun] at hrel
    exact h.asleep (.of_procFrame hrel _)

theorem Recorded.mmap {call : MmapCall} (hsafe : s.FrameSafe) (hkeeps : MmapSafe p call s)
    (hstep : s.step (.mmap p call) = some t) : t.Recorded ((Op.mmap p call).record s ledger) := by
  obtain ⟨hp, hrun⟩ := call_cases (c := myMmap p call) rfl hstep
  have hrel : (tableFrame p).rel s (myMmap p call s).2 := tableFrame_setMmaps s p _
  rw [Op.record]
  rcases hrun with ⟨r, hcall⟩ | ⟨u, e, hcall, _⟩
  · rw [hcall] at hrel ⊢
    have htracked : RegionCall.Tracked p (s, ledger p) := ⟨(hsafe.fit p hp).1.1, h p hp⟩
    refine h.of_slot (.of_tableFrame hrel) fun _ ↦ ?_
    have hcalled : RegionCall.step p (s, ledger p) (.mmap call) =
        some (t, (RegionCall.mmap call).record r (ledger p)) := by
      rw [RegionCall.step, RegionCall.body, hcall]
    exact (htracked.mmap (fun hvalid hroom ↦ (hkeeps hvalid hroom).1) hcalled).2
  · rw [myMmap_apply] at hcall
    cases hcall

theorem Recorded.munmap {addr size : Word} (hsafe : s.FrameSafe) (hkeeps : MunmapSafe p addr size s)
    (hstep : s.step (.munmap p addr size) = some t) :
    t.Recorded ((Op.munmap p addr size).record s ledger) := by
  have hrel := (unmapFrame_tableFrame p).respects_myMunmap addr size s
  obtain ⟨hp, hrun⟩ := call_cases (c := myMunmap p addr size) rfl hstep
  rw [Op.record]
  rcases hrun with ⟨r, hcall⟩ | ⟨u, e, hcall, _, rfl⟩
  · rw [hcall] at hrel ⊢
    have htracked : RegionCall.Tracked p (s, ledger p) := ⟨(hsafe.fit p hp).1.1, h p hp⟩
    refine h.of_slot (.of_tableFrame hrel) fun _ ↦ ?_
    have hcalled : RegionCall.step p (s, ledger p) (.munmap addr size) =
        some (t, (RegionCall.munmap addr size).record r (ledger p)) := by
      rw [RegionCall.step, RegionCall.body, hcall]
    exact (htracked.munmap (fun i hfound hsize ↦ (hkeeps i hfound hsize).1) hcalled).2
  · rw [hcall] at hrel ⊢
    exact h.asleep (.of_tableFrame hrel)

theorem Recorded.fork (hsafe : s.FrameSafe) (hstep : s.step (.fork p) = some t) :
    t.Recorded ((Op.fork p).record s ledger) := by
  obtain ⟨hp, hrun⟩ := call_cases (c := Kernel.fork p) rfl hstep
  change (s.procs p).state = .runnable at hp
  have hslots := fork_slots hp (hsafe.fit p hp).1.1.total_le s rfl
  rw [Op.record]
  -- A slot that is not runnable needs no record.
  have hforget {np : Fin N} {u : Machine N} (hkept : s.SlotsKept {np} u)
      (hstate : (u.procs np).state ≠ .runnable) : u.Recorded ledger := by
    refine h.of_kept hkept ?_
    rintro q rfl hrun
    exact absurd hrun hstate
  rcases hrun with ⟨r, hcall⟩ | ⟨u, e, hcall, hsleeps, rfl⟩
  · rw [hcall] at hslots ⊢
    cases r with
    | some np =>
      obtain ⟨hborn, htable⟩ := hslots
      refine h.of_slot hborn.others fun _ ↦ ?_
      rw [htable, inherited, live_inherit _ (hsafe.fit p hp).1.1.total_le]
      exact h p hp
    | none =>
      rcases hslots with hkept | ⟨np, hborn, _⟩
      · exact h.of_kept hkept fun q hq ↦ absurd hq (notMem_empty q)
      · exact hforget hborn.others (by rw [hborn.state]; decide)
  · rw [hcall] at hslots ⊢
    obtain ⟨np, hborn, _⟩ := hslots hsleeps
    exact (hforget hborn.others (by rw [hborn.state]; decide)).asleep (.refl u _)

theorem Recorded.exec {image : ExecImage} (hstep : s.step (.exec p image) = some t) :
    t.Recorded ((Op.exec p image).record s ledger) := by
  obtain ⟨_, hrun⟩ := call_cases (c := Kernel.exec p image) rfl hstep
  have hslots := exec_slots s p image s rfl
  rw [Op.record]
  rcases hrun with ⟨r, hcall⟩ | ⟨u, e, hcall, hsleeps, rfl⟩
  · rw [hcall] at hslots ⊢
    cases r with
    | true =>
      obtain ⟨hkept, _, htotal⟩ := hslots
      refine h.of_slot hkept fun _ ↦ ?_
      rw [total_eq_zero_iff] at htotal
      rw [(wellFormed_of_total_eq_zero htotal).2]
    | false => exact h.of_kept hslots fun q hq ↦ absurd hq (notMem_empty q)
  · rw [hcall] at hslots ⊢
    exact h.asleep (hslots hsleeps)

theorem Recorded.exit (hstep : s.step (.exit p) = some t) :
    t.Recorded ((Op.exit p).record s ledger) := by
  obtain ⟨hp, hrun⟩ := step_cases hstep
  have hslots := exit_slots s p s rfl
  rw [Op.body] at hrun
  rw [Op.record]
  have hforget {u : Machine N} (hu : u.Recorded ledger) (hstate : (u.procs p).state ≠ .runnable) :
      u.Recorded (update ledger p []) :=
    hu.of_slot (.refl u {p}) fun hrun ↦ absurd hrun hstate
  rcases hrun with hrun | ⟨u, e, hrun, _, rfl⟩
  · grind [h.of_slot]
  · rw [hrun] at hslots
    refine hforget (h.asleep hslots) ?_
    simp [Machine.asleep, Op.actor]

theorem Recorded.wait (hstep : s.step (.wait p) = some t) :
    t.Recorded ((Op.wait p).record s ledger) := by
  obtain ⟨_, hrun⟩ := call_cases (c := Kernel.wait p) rfl hstep
  have hslots := wait_slots s p s rfl
  rw [Op.record]
  rcases hrun with ⟨r, hcall⟩ | ⟨u, e, hcall, _, rfl⟩
  · rw [hcall] at hslots
    cases r with
    | none =>
      cases hslots
      exact h
    | some q => grind [h.of_kept]
  · rw [hcall] at hslots
    exact h.asleep fun q _ ↦ hslots q (notMem_empty q)

/-- **Every step keeps the ledger in step with the region tables.** -/
theorem Recorded.step (hsafe : s.FrameSafe) (hkeeps : s.KeepsFrames op)
    (hstep : s.step op = some t) : t.Recorded (op.record s ledger) := by
  cases op with
  | load p addr =>
    exact h.of_procFrame (.load p addr) (respects_load (pagingFrame_procFrame p) addr) hstep
  | store p addr b =>
    exact h.of_procFrame (.store p addr b) (respects_store (pagingFrame_procFrame p) addr b) hstep
  | mmap p call => exact h.mmap hsafe hkeeps hstep
  | munmap p addr size => exact h.munmap hsafe hkeeps hstep
  | fork p => exact h.fork hsafe hstep
  | exec p image => exact h.exec hstep
  | exit p => exact h.exit hstep
  | wait p => exact h.wait hstep

end

end Machine

end Xv6Mmap
