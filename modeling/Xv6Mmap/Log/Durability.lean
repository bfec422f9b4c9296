import Xv6Mmap.Log.CrashAtomicity

/-!
# Histories of commits and crashes

The machine may crash behind any disk write of a commit or of a recovery.  Over every history the
disk refines a store on which a group of operations takes effect at once and whole, or not at all if
the crash came before its header write.
-/

namespace Xv6Mmap.Log

open Library BlockWrites List

/-- What the operations of a group leave in the buffer cache and in `log.lh`. -/
structure Group where
  cache : Word → BlockData
  lh : LogHeader

/-- The commit of a group returns, or the machine crashes behind its first `k` disk writes and then
inside recoveries, until one of them returns. -/
inductive Event where
  | commit (g : Group)
  | crash (g : Group) (k : ℕ) (recoveries : List ℕ)

def Event.group : Event → Group
  | commit g | crash g _ _ => g

/-- The group, if its header write reached the disk. -/
def Event.kept : Event → Option Group
  | commit g => g
  | crash g k _ => if g.lh.n.count < k then g else none

/-- The group on the abstract store: all its blocks change at once. -/
def Group.apply (store : Word → BlockData) (g : Group) (b : Word) : BlockData :=
  if (range g.lh.n.count).any (g.lh.block · = b) then g.cache b else store b

namespace State

variable {s area : State} {disk : Word → BlockData} {k : ℕ}

/-- The log area of `area`, with a group ready to be committed to `disk`. -/
def fill (area : State) (disk : Word → BlockData) (g : Group) : State :=
  { area with disk := disk, cache := g.cache, lh := g.lh, writes := [] }

def happen (area : State) (disk : Word → BlockData) : Event → Word → BlockData
  | .commit g => (area.fill disk g).commit.disk
  | .crash g k recoveries =>
    let s := area.fill disk g
    s.recovered (s.crashedRecoveries (s.crashDisk commit k) recoveries)

/-! ## A commit that returns -/

/-- Only `bwrite` has changed the disk. -/
def Traced (disk : Word → BlockData) (s : State) : Prop := s.disk = perform disk s.writes

theorem Traced.bwrite (h : s.Traced disk) (b : Word) (data : BlockData) :
    (s.bwrite b data).Traced disk := by
  rw [Traced, State.bwrite, perform_append, ← h]
  rfl

theorem Traced.clearHead (h : s.Traced disk) : s.clearHead.Traced disk := h

theorem Traced.foldl (h : s.Traced disk) (address : State → ℕ → Word)
    (value : State → ℕ → BlockData) (l : List ℕ) :
    (l.foldl (fun s i ↦ s.bwrite (address s i) (value s i)) s).Traced disk := by
  induction l generalizing s with
  | nil => exact h
  | cons i l ih => exact ih (h.bwrite _ _)

theorem disk_commit (hwrites : s.writes = []) : s.commit.disk = perform s.disk s.commit.writes := by
  have h : s.Traced s.disk := by rw [Traced, hwrites, perform_nil]
  unfold commit
  split
  · have hlog : s.writeLog.Traced s.disk := h.foldl _ _ _
    have hhead : s.writeLog.writeHead.Traced s.disk := hlog.bwrite _ _
    have hinstall : s.writeLog.writeHead.installTrans.Traced s.disk := hhead.foldl _ _ _
    exact hinstall.clearHead.bwrite _ _
  · exact h

theorem commit_of_count (hn : s.lh.n.count = 0) : s.commit = s := by
  rw [commit, if_neg]
  rw [toInt_pos_iff]
  omega

section

variable (hempty : (s.disk s.start).word 0 = 0)
include hempty

theorem installed_of_count (hn : s.lh.n.count = 0) : s.Installed s.disk :=
  ⟨hempty, fun b _ ↦ (transactionDisk_other s (by simp [hn])).symm⟩

theorem installed_commit (h : s.Loggable) (hwrites : s.writes = []) :
    s.Installed s.commit.disk := by
  rcases Nat.eq_zero_or_pos s.lh.n.count with hzero | hpos
  · rw [commit_of_count hzero]
    exact installed_of_count hempty hzero
  · rw [disk_commit hwrites, writes_commit h hpos, hwrites, nil_append, commitWrites]
    have hinstalled := (committed_head h).installed h (emptyHead_zero s.lh s.headBlock)
    rwa [← perform_append, append_assoc] at hinstalled

theorem durable_crash (h : s.Loggable) (hk : s.lh.n.count < k) :
    s.Committed (s.crashDisk commit k) ∨ s.Installed (s.crashDisk commit k) := by
  rcases Nat.eq_zero_or_pos s.lh.n.count with hzero | hpos
  · have hnone := commit_of_count (s := { s with writes := [] }) hzero
    rw [crashDisk, issued, hnone, take_nil]
    exact .inr (installed_of_count hempty hzero)
  · exact crash_commit_committed h hpos hk

end

/-! ## Histories -/

theorem Installed.apply {g : Group} {t : Word → BlockData} (ht : (area.fill disk g).Installed t)
    (h : (area.fill disk g).Loggable) : area.HomeEq t (g.apply disk) := by
  intro b hb
  refine (ht.home b hb).trans ?_
  unfold Group.apply
  split
  next hmem =>
    simp only [any_eq_true, mem_range, decide_eq_true_eq] at hmem
    obtain ⟨i, hi, rfl⟩ := hmem
    exact transactionDisk_logged h hi
  next hmem => exact transactionDisk_other _ (by simpa [fill] using hmem)

/-- One event does to the home blocks what it does to the atomic store. -/
theorem happen_home {e : Event} (hempty : (disk area.start).word 0 = 0)
    (h : (area.fill disk e.group).Loggable) :
    (area.happen disk e area.start).word 0 = 0 ∧
      area.HomeEq (area.happen disk e) (e.kept.elim disk (Group.apply disk)) := by
  cases e with
  | commit g =>
    have hdisk := installed_commit hempty h rfl
    exact ⟨hdisk.empty, hdisk.apply h⟩
  | crash g k recoveries =>
    by_cases hk : g.lh.n.count < k
    · have hdisk := durable_recovered h
        (durable_crashedRecoveries h recoveries (durable_crash hempty h hk))
      rw [Event.kept, if_pos hk]
      exact ⟨hdisk.empty, hdisk.apply h⟩
    · have hdisk := (pending_crashedRecoveries h recoveries
        (crash_commit_pending h hempty (not_lt.mp hk))).recovered h
      rw [Event.kept, if_neg hk]
      exact ⟨hdisk.empty, hdisk.home⟩

/-- **Durability.** After any history the header is empty and the home blocks are those of the atomic
store to which, in order, exactly the groups were applied whose header write reached the disk. -/
theorem history_refines (area : State) (disk store : Word → BlockData) (events : List Event)
    (hempty : (disk area.start).word 0 = 0) (hstore : area.HomeEq disk store)
    (h : ∀ e ∈ events, ∀ disk, (area.fill disk e.group).Loggable) :
    (events.foldl area.happen disk area.start).word 0 = 0 ∧
      area.HomeEq (events.foldl area.happen disk)
        ((events.filterMap Event.kept).foldl Group.apply store) := by
  -- the disks of the two sides need only agree on the home blocks, so both are generalised
  induction events generalizing disk store with
  | nil => exact ⟨hempty, hstore⟩
  | cons e events ih =>
    obtain ⟨hhead, hhome⟩ := happen_home hempty (h e mem_cons_self disk)
    rw [foldl_cons, filterMap_cons]
    have hlater := fun e he ↦ h e (mem_cons_of_mem _ he)
    cases hkept : e.kept with
    | none =>
      rw [hkept] at hhome
      exact ih _ _ hhead (fun b hb ↦ (hhome b hb).trans (hstore b hb)) hlater
    | some g =>
      rw [hkept] at hhome
      refine ih _ _ hhead (fun b hb ↦ (hhome b hb).trans ?_) hlater
      change g.apply disk b = g.apply store b
      rw [Group.apply, Group.apply, hstore b hb]

def twoBlockGroup : Group := ⟨twoBlocks.cache, twoBlocks.lh⟩

/-- The group is lost before its header is written, and kept when the crash is in `install_trans`. -/
theorem history_refines_twoBlocks :
    twoBlocks.HomeEq
      ([.crash twoBlockGroup 2 [0], .crash twoBlockGroup 4 [1, 0]].foldl twoBlocks.happen
        twoBlocks.disk) (twoBlockGroup.apply twoBlocks.disk) := by
  refine (history_refines twoBlocks _ twoBlocks.disk _ (by decide) (fun _ _ ↦ rfl) ?_).2
  obtain ⟨hfits, hroom, hdistinct, houtside⟩ := twoBlocks_loggable
  intro e he _
  simp only [mem_cons, not_mem_nil, or_false] at he
  obtain rfl | rfl := he <;> exact ⟨hfits, hroom, hdistinct, houtside⟩

end State

end Xv6Mmap.Log
