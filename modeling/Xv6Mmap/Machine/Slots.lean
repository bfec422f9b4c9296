import Xv6Mmap.Machine.FrameSafety
import Xv6Mmap.Machine.NewSpaces

/-!
# The process table

What the operations do to the slots of the process table: to their states and, up to stored sizes,
to their region tables.  A child inherits the entries of its parent in the slot that it gets; the
entries behind them, the stored sizes and the reference counts of private regions are what the
previous owner of the slot has left there.
-/

namespace Xv6Mmap

open Function Library Prog RegionTable Proc

variable {N : ℕ}

/-- The state of a slot and its region table up to stored sizes. -/
def Proc.slot (proc : Proc N) : ProcState × (ℤ → MmapRegion) :=
  (proc.state, fun k ↦ (proc.mmaps k).settled)

section Slot

variable {proc proc' : Proc N}

theorem Proc.slot_of_settled (h : proc'.settled = proc.settled) : proc'.slot = proc.slot := by
  have hslot := congrArg Proc.slot h
  exact hslot

variable (h : proc'.slot = proc.slot)
include h

theorem Proc.state_of_slot : proc'.state = proc.state := congrArg Prod.fst h

theorem Proc.entry_of_slot (k : ℤ) : (proc'.mmaps k).settled = (proc.mmaps k).settled :=
  congrFun (congrArg Prod.snd h) k

theorem Proc.region_of_slot (k : ℤ) : (proc'.mmaps k).region = (proc.mmaps k).region := by
  have hregion := congrArg MmapRegion.region (entry_of_slot h k)
  exact hregion

theorem Proc.live_of_slot : proc'.mmaps.live = proc.mmaps.live :=
  (live_congr fun k ↦ region_of_slot h k).2

end Slot

/-- The slots outside `A` are as they were. -/
def Machine.SlotsKept (s : Machine N) (A : Set (Fin N)) (t : Machine N) : Prop :=
  ∀ q, q ∉ A → (t.procs q).slot = (s.procs q).slot

namespace Machine.SlotsKept

variable {s t u : Machine N} {A : Set (Fin N)}

theorem refl (s : Machine N) (A : Set (Fin N)) : s.SlotsKept A s := fun _ _ ↦ rfl

theorem trans (hst : s.SlotsKept A t) (htu : t.SlotsKept A u) : s.SlotsKept A u :=
  fun q hq ↦ (htu q hq).trans (hst q hq)

theorem of_procFrame (h : procFrame.rel s t) (A : Set (Fin N)) : s.SlotsKept A t :=
  fun q _ ↦ slot_of_settled (settled_of_procFrame h q)

theorem of_tableFrame {p : Fin N} (h : (tableFrame p).rel s t) : s.SlotsKept {p} t :=
  fun q hq ↦ slot_of_settled (h.1 q hq)

theorem of_filesFrame (h : Kernel.filesFrame.rel s t) (A : Set (Fin N)) : s.SlotsKept A t := by
  intro q _
  have hslot := congrArg Proc.slot (Kernel.closed_of_filesFrame h q)
  exact hslot

theorem setProc (s : Machine N) (p : Fin N) (proc : Proc N) :
    s.SlotsKept {p} { s with procs := update s.procs p proc } := by
  intro q hq
  have hne : q ≠ p := hq
  simp only [update_of_ne hne]

end Machine.SlotsKept

/-- What is copied of an entry is its region. -/
theorem MmapRegion.copyMmapStruct_congr (mr : MmapRegion) {mr1 mr2 : MmapRegion}
    (h : mr1.region = mr2.region) : mr.copyMmapStruct mr1 = mr.copyMmapStruct mr2 := by
  have hfields := congrArg (fun r : Region ↦
    { mr with virtAddr := r.virtAddr, size := r.size, flags := r.flags,
              protection := r.protection, f := r.f, offset := r.offset }) h
  exact hfields

namespace RegionTable

/-- The table of a child after `copy_maps` has copied the first `n` entries of its parent. -/
def inherit (child parent : RegionTable) (n : ℕ) : RegionTable := fun k ↦
  if 0 ≤ k ∧ k < n then
    { (child k).copyMmapStruct (parent k) with
      refCount := if (parent k).flags.has mapShared then 1 else (child k).refCount }
  else child k

theorem inherit_zero (child parent : RegionTable) : child.inherit parent 0 = child := by
  funext k
  rw [inherit, if_neg (by omega)]

theorem inherit_of_le (child parent : RegionTable) {n : ℕ} {k : ℤ} (h : (n : ℤ) ≤ k) :
    child.inherit parent n k = child k := by
  rw [inherit, if_neg (by omega)]

theorem inherit_of_lt (child parent : RegionTable) {n k : ℕ} (h : k < n) :
    child.inherit parent n k =
      { (child k).copyMmapStruct (parent k) with
        refCount := if (parent k).flags.has mapShared then 1 else (child k).refCount } := by
  rw [inherit, if_pos (by omega)]

variable {parent parent' : RegionTable}

theorem inherit_congr (child : RegionTable)
    (h : ∀ k, (parent' k).region = (parent k).region) (n : ℕ) :
    child.inherit parent' n = child.inherit parent n := by
  funext k
  have hflags : (parent' k).flags = (parent k).flags := congrArg Region.flags (h k)
  rw [inherit, inherit, MmapRegion.copyMmapStruct_congr _ (h k), hflags]

theorem region_inherit (child parent : RegionTable) {n k : ℕ} (h : k < n) :
    (child.inherit parent n k).region = (parent k).region := by
  rw [inherit_of_lt child parent h]
  rfl

theorem inheritEntry_inherit (child : RegionTable) {i : ℕ}
    (hregion : (parent' i).region = (parent i).region) :
    (child.inherit parent i).inheritEntry parent' i ((parent i).flags.has mapShared) =
      child.inherit parent (i + 1) := by
  rw [inheritEntry, MmapRegion.copyMmapStruct_congr _ hregion]
  dsimp only
  funext k
  by_cases hk : k = i
  · subst hk
    rw [inherit_of_lt child parent (Nat.lt_succ_self i), inherit_of_le child parent le_rfl]
    split
    · rw [set_self, set_self]
    · rw [set_self]
      rfl
  · have hother : child.inherit parent (i + 1) k = child.inherit parent i k := by
      rw [inherit, inherit]
      exact if_congr (by omega) rfl rfl
    rw [hother]
    split
    · rw [set_of_ne _ _ hk, set_of_ne _ _ hk]
    · rw [set_of_ne _ _ hk]

end RegionTable

namespace Kernel

open Machine

variable {p np : Fin N} {s t u : Machine N}

/-- Page faults of `p` do not touch another process at all. -/
theorem pagingFrame_otherProc (hne : np ≠ p) :
    PagingFrame (.ofEq fun s : Machine N ↦ s.procs np) p where
  mem _ _ := rfl
  pagecache _ _ _ := rfl
  freelist _ _ := rfl
  reset _ _ := rfl
  table _ _ _ _ := rfl
  entry _ _ _ _ _ := rfl
  killed _ := update_of_ne hne _ _
  storedSize _ _ _ := update_of_ne hne _ _

/-! ## `copy_maps` -/

/-- Since `u`, `copy_maps` has copied `n` entries to the table of the child. -/
structure Inheriting (p np : Fin N) (u : Machine N) (n : ℕ) (s : Machine N) : Prop where
  table : (tableFrame np).rel u s
  child : s.procs np = { u.procs np with mmaps := (u.procs np).mmaps.inherit (u.procs p).mmaps n }

theorem Inheriting.region (h : Inheriting p np u n s) (hne : p ≠ np) (k : ℤ) :
    ((s.procs p).mmaps k).region = ((u.procs p).mmaps k).region :=
  region_of_settled (h.table.1 p hne) k

theorem Inheriting.totalMmaps_eq {n : ℕ} (h : Inheriting p np u n s) (hn : n ≤ 30) :
    (s.procs np).mmaps.totalMmaps = (u.procs np).mmaps.totalMmaps := by
  rw [h.child, totalMmaps, totalMmaps]
  dsimp only
  rw [inherit_of_le _ _ (by omega)]

theorem copyRegions_inherit (hne : p ≠ np) {n i : ℕ} (hn : i + n ≤ 30) :
    Triple (Inheriting p np u i) (copyRegions p np i n)
      (fun copied s ↦ bif copied then Inheriting p np u (i + n) s
        else (tableFrame np).rel u s ∧ (s.procs np).mmaps.totalMmaps =
          (u.procs np).mmaps.totalMmaps)
      fun _ s ↦ (tableFrame np).rel u s ∧ (s.procs np).mmaps.totalMmaps =
          (u.procs np).mmaps.totalMmaps := by
  refine copyRegions_rule (K := Inheriting p np u) ?_ ?_
  · intro j hij hj s hs
    have hkept {t : Machine N} (ht : procFrame.rel s t ∧ t.procs np = s.procs np) :
        Inheriting p np u j t :=
      ⟨(tableFrame np).trans hs.table (tableFrame_of_procFrame ht.1 np), ht.2.trans hs.child⟩
    have hframes (isshared : Bool) (stop : Word) (fuel : ℕ) (start : Word) :=
      (Triple.of_frame (respects_copyRegionPages (pagingFrame_procFrame p) np j isshared stop fuel
        start) s).both (.of_frame (respects_copyRegionPages (pagingFrame_otherProc hne.symm)
          np j isshared stop fuel start) s)
    refine (hframes _ _ _ _).post (fun copied t ht ↦ ?_) fun _ t ht ↦
      ⟨(hkept ht).table, (hkept ht).totalMmaps_eq (by omega)⟩
    cases copied with
    | true => exact hkept ht
    | false => exact ⟨(hkept ht).table, (hkept ht).totalMmaps_eq (by omega)⟩
  · intro j s t hs ht
    have hflags : ((s.procs p).mmaps j).flags = ((u.procs p).mmaps j).flags :=
      congrArg Region.flags (hs.region hne j)
    refine ⟨(tableFrame np).trans ht.table (tableFrame_setMmaps t np _), ?_⟩
    simp only [update_self]
    rw [ht.child, hflags]
    dsimp only
    rw [inheritEntry_inherit _ (ht.region hne j)]

/-- **What `copy_maps` does to the process table**: if it succeeds, the child has inherited the
entries of its parent; otherwise its `total_mmaps` is as it was. -/
theorem copyMaps_inherit (hne : p ≠ np) {u : Machine N} (hle : (u.procs p).mmaps.total ≤ 30) :
    Triple (· = u) (copyMaps p np)
      (fun copied s ↦ (tableFrame np).rel u s ∧ if copied then s.procs np = { u.procs np with
          mmaps := ((u.procs np).mmaps.inherit (u.procs p).mmaps
            (u.procs p).mmaps.total.toNat).setTotal (u.procs p).mmaps.totalMmaps }
        else (s.procs np).mmaps.totalMmaps = (u.procs np).mmaps.totalMmaps)
      fun _ s ↦ (tableFrame np).rel u s ∧ (s.procs np).mmaps.totalMmaps =
          (u.procs np).mmaps.totalMmaps := by
  refine .get_bind fun v hv ↦ ?_
  subst hv
  have hstart : Inheriting p np v 0 v :=
    ⟨(tableFrame np).refl v, by rw [inherit_zero]⟩
  have hcopy := copyRegions_inherit (u := v) hne (n := (v.procs p).mmaps.total.toNat) (i := 0)
    (by omega)
  rw [Nat.zero_add] at hcopy
  refine .bind (hcopy.at_state hstart) fun copied ↦ ?_
  cases copied with
  | false => exact .pure fun s hs ↦ hs
  | true =>
    rw [if_pos rfl]
    refine .modify_bind fun w hw ↦ .pure_at ?_
    refine ⟨(tableFrame np).trans hw.table (tableFrame_setMmaps w np _), ?_⟩
    simp only [update_self, if_true]
    rw [hw.child]

/-! ## `fork` -/

theorem Unclaimed.slotsKept (h : Unclaimed s t) : s.SlotsKept ∅ t := by
  intro q _
  rcases h.procs with hsame | ⟨np, pid, _, hslot⟩
  · rw [hsame]
  · rw [hslot]
    by_cases hq : q = np
    · subst hq
      simp only [update_self, slot]
    · rw [update_of_ne hq]

/-- Only the slot of the child `np` has changed. -/
structure Newborn (s : Machine N) (np : Fin N) (state : ProcState) (t : Machine N) : Prop where
  slot : findUnused s = some np
  others : s.SlotsKept {np} t
  state : (t.procs np).state = state

/-- The table of a child of `p` in slot `np`. -/
def inherited (s : Machine N) (p np : Fin N) : RegionTable :=
  (((s.procs np).mmaps.setTotal 0).inherit (s.procs p).mmaps
    (s.procs p).mmaps.total.toNat).setTotal (s.procs p).mmaps.totalMmaps

/-- The slots after a `fork` by `p`: the child has inherited the entries of its parent, or the call
has failed and the slot is free again, with an empty table. -/
def ForkSlots (s : Machine N) (p : Fin N) : Option (Fin N) → Machine N → Prop
  | some np, t => Newborn s np .runnable t ∧ (t.procs np).mmaps = inherited s p np
  | none, t => s.SlotsKept ∅ t ∨
      ∃ np, Newborn s np .unused t ∧ (t.procs np).mmaps.totalMmaps = 0

/-- The slots when `fork` does not return: the child stays an `EMBRYO`. -/
def ForkHalted (s t : Machine N) : Prop :=
  ∃ np, Newborn s np .embryo t ∧ (t.procs np).mmaps.totalMmaps = 0

/-- The slots when `copy_maps` has returned: the child is still an `EMBRYO`. -/
def ForkCopies (s : Machine N) (p np : Fin N) (copied : Bool) (t : Machine N) : Prop :=
  Newborn s np .embryo t ∧ bif copied then (t.procs np).mmaps = inherited s p np
    else (t.procs np).mmaps.totalMmaps = 0

/-- `copyuvm` has run for the child `np`: no other process and no directory in use has changed, and
a directory that it has made has the pages of the parent. -/
structure SpaceCopied (s : Machine N) (sz : Word) (np : Fin N) (r : Option Word) (u : Machine N) :
    Prop where
  slot : findUnused s = some np
  others : ∀ q, q ≠ np → u.procs q = s.procs q
  state : (u.procs np).state = .embryo
  dirs : ∀ d, d ∉ s.freelist → u.pgdirs d = s.pgdirs d
  space : ∀ d, r = some d → d ∈ s.freelist ∧ (∀ d', d' ≠ d → u.pgdirs d' = s.pgdirs d') ∧
    (u.pgdirs d).Tabled ∧ Filled noEntries 0 (pages sz) (u.pgdirs d).pte

theorem Claimed.copyuvm {np : Fin N} {t : Machine N} {sz : Word} (ht : Claimed s np t) (pgdir : Word)
    (hsz : sz.toNat ≤ 0x60000000) :
    Triple (· = t) (copyuvm pgdir sz) (SpaceCopied s sz np) fun _ _ ↦ True := by
  refine (copyuvm_new pgdir hsz t).post (fun r u hu ↦ ?_) fun _ _ ↦ id
  have hkept (hu : Untouched t u) (hspace : ∀ d, r = some d → d ∈ s.freelist ∧
      (∀ d', d' ≠ d → u.pgdirs d' = s.pgdirs d') ∧ (u.pgdirs d).Tabled ∧
        Filled noEntries 0 (pages sz) (u.pgdirs d).pte) : SpaceCopied s sz np r u := by
    refine ⟨ht.slot, fun q hq ↦ ?_, ?_, fun d hd ↦ ?_, hspace⟩
    · rw [hu.procs, ht.others q hq]
    · rw [hu.procs, ht.child]
    · rw [hu.dirs d (ht.not_free hd), ht.dirs]
  cases r with
  | none => exact hkept hu nofun
  | some d =>
    obtain ⟨hd, hu⟩ := hu
    refine hkept (hu.untouched hd) ?_
    rintro _ ⟨rfl⟩
    refine ⟨?_, fun d' hd' ↦ ?_, hu.tabled, hu.entries⟩
    · rw [ht.freelist]
      exact List.mem_cons_of_mem _ hd
    · rw [hu.others d' hd', ht.dirs]

/-- The slots when `copyuvm` has returned. -/
structure ForkStarts (s : Machine N) (p np : Fin N) (u : Machine N) : Prop where
  newborn : Newborn s np .embryo u
  table : (u.procs np).mmaps = (s.procs np).mmaps.setTotal 0
  region : ∀ k, ((u.procs p).mmaps k).region = ((s.procs p).mmaps k).region

theorem ForkStarts.empty {np : Fin N} {u : Machine N} (h : ForkStarts s p np u) :
    (u.procs np).mmaps.totalMmaps = 0 := by
  rw [h.table]
  exact totalMmaps_setTotal _ 0

theorem ForkStarts.setDir {np : Fin N} {u : Machine N} (hne : p ≠ np) (h : ForkStarts s p np u)
    (d : Word) :
    ForkStarts s p np { u with procs := update u.procs np { u.procs np with pgdir := d } } := by
  refine ⟨⟨h.newborn.slot, h.newborn.others.trans (.setProc u np _), ?_⟩, ?_, fun k ↦ ?_⟩
  · simp only [update_self, h.newborn.state]
  · simp only [update_self, h.table]
  · simp only [update_of_ne hne, h.region k]

theorem ForkStarts.copyMaps {np : Fin N} {v : Machine N} (hne : p ≠ np) (h : ForkStarts s p np v)
    (hle : (s.procs p).mmaps.total ≤ 30) :
    Triple (· = v) (copyMaps p np) (ForkCopies s p np)
      fun e t ↦ e.sleeps = true → ForkHalted s t := by
  have htotal := (live_congr (t := (s.procs p).mmaps) fun k ↦ h.region k).1
  have hborn (w : Machine N) (hw : (tableFrame np).rel v w) : Newborn s np .embryo w :=
    ⟨h.newborn.slot, h.newborn.others.trans (.of_tableFrame hw),
      (state_of_tableFrame hw np).trans h.newborn.state⟩
  refine (copyMaps_inherit hne (htotal.trans_le hle)).post (fun copied w hw ↦ ⟨hborn w hw.1, ?_⟩)
    fun e w hw _ ↦ ⟨np, hborn w hw.1, hw.2.trans h.empty⟩
  cases copied with
  | false => exact hw.2.trans h.empty
  | true =>
    have hslot := congrArg Proc.mmaps hw.2
    dsimp only at hslot
    rw [htotal, h.table, inherit_congr _ h.region,
      show (v.procs p).mmaps.totalMmaps = _ from congrArg Region.virtAddr (h.region 30)] at hslot
    exact hslot

/-- **What `fork` does to the process table.** -/
theorem fork_slots (hp : (s.procs p).state = .runnable) (hle : (s.procs p).mmaps.total ≤ 30) :
    Triple (· = s) (fork p) (ForkSlots s p) fun e t ↦ e.sleeps = true → ForkHalted s t := by
  refine fork_rule (C := fun np _ ↦ ForkStarts s p np) (M := ForkCopies s p) (live_of_runnable hp)
    (fun t ht ↦ .inl ht.slotsKept) ?_ ?_ ?_ ?_ ?_
  · intro np t hne ht
    have hframe := (Triple.of_frame (respects_copyuvm (pagingFrame_procFrame p) (s.procs p).pgdir
      (s.procs p).sz) t).both (.of_frame (respects_copyuvm
        (pagingFrame_otherProc hne.symm) (s.procs p).pgdir (s.procs p).sz) t)
    have hcopy (u : Machine N) (hu : procFrame.rel t u ∧ u.procs np = t.procs np) :
        ForkStarts s p np u := by
      refine ⟨⟨ht.slot, fun q hq ↦ ?_, ?_⟩, ?_, fun k ↦ ?_⟩
      · rw [SlotsKept.of_procFrame hu.1 {np} q hq, ht.others q hq]
      · rw [hu.2, ht.child]
      · rw [hu.2, ht.child]
      · rw [region_of_procFrame hu.1, ht.others p hne]
    exact hframe.post (fun _ ↦ hcopy) fun e u hu _ ↦
      ⟨np, (hcopy u hu).newborn, (hcopy u hu).empty⟩
  · exact fun np u hne hu ↦ ⟨(hu.setDir hne 0).newborn, (hu.setDir hne 0).empty⟩
  · exact fun np d u hne hu ↦ (hu.setDir hne d).copyMaps hne hle
  · rintro np w ⟨hw, htable⟩
    refine (abandon_gives np w).post (fun _ t ht ↦ ?_) fun e _ he hsleeps ↦ ?_
    · refine .inr ⟨np, ⟨hw.slot, fun q hq ↦ ?_, by rw [ht.child]⟩, ?_⟩
      · rw [ht.others q hq, hw.others q hq]
      · rw [ht.child]
        exact htable
    · subst he
      cases hsleeps
  · rintro np w _ ⟨hw, htable⟩
    refine (neverStuck_dupFiles p np _).awake ((Triple.of_frame (respects_dupFiles p np _) _).post
      (fun _ x hx ↦ ?_) fun _ _ ↦ id)
    have hkept := (hw.others.trans (.setProc w np _)).trans (.of_filesFrame hx {np})
    refine ⟨⟨hw.slot, hkept.trans (.setProc x np _), ?_⟩, ?_⟩
    · simp only [update_self]
    · have hmmaps := mmaps_of_filesFrame hx np
      simp only [update_self] at hmmaps ⊢
      rw [hmmaps]
      exact htable

/-! ## `munmap`, `exit`, `wait` and `exec` -/

theorem unmapFrame_tableFrame (p : Fin N) : UnmapFrame (tableFrame p) p :=
  { mem := fun _ _ ↦ (tableFrame p).refl _
    pagecache := fun _ _ _ ↦ (tableFrame p).refl _
    inodes := fun _ _ ↦ (tableFrame p).refl _
    held := fun _ _ ↦ (tableFrame p).refl _
    offset := fun _ _ _ ↦ (tableFrame p).refl _
    freelist := fun _ _ ↦ (tableFrame p).refl _
    reset := fun _ _ ↦ (tableFrame p).refl _
    table := fun _ _ _ _ ↦ (tableFrame p).refl _
    entry := fun _ _ _ _ _ ↦ (tableFrame p).refl _
    killed := fun s ↦ tableFrame_of_procFrame ((pagingFrame_procFrame p).killed s) p
    storedSize := fun s _ _ ↦ tableFrame_setMmaps s p _
    mmaps := fun s table ↦ tableFrame_setMmaps s p table }

/-- After `delete_mmaps` the table has no live entry. -/
theorem deleteMmaps_empties (p : Fin N) (v : Machine N) :
    Triple (· = v) (deleteMmaps p)
      (fun _ u ↦ (tableFrame p).rel v u ∧ (u.procs p).mmaps.totalMmaps = 0)
      fun _ u ↦ (tableFrame p).rel v u := by
  refine (Triple.of_frame (unmapFrame_tableFrame p).respects_deleteMmaps v).and
    (.get_bind fun t _ ↦ .bind .trivial fun _ ↦ .modify fun u _ ↦ ?_) |>.weaken
    (P := (· = v)) (fun _ ht ↦ ⟨ht, ht⟩) (fun _ _ ↦ id) fun _ _ ht ↦ ht.1
  simp only [update_self]
  exact totalMmaps_setTotal _ 0

theorem exit_slots (s : Machine N) (p : Fin N) :
    Triple (· = s) (exit p)
      (fun _ t ↦ s.SlotsKept {p} t ∧ (t.procs p).state = .zombie ∧
        (t.procs p).mmaps.totalMmaps = 0)
      fun _ t ↦ s.SlotsKept {p} t := by
  refine exit_rule (V := filesFrame.rel s)
    (D := fun w ↦ s.SlotsKept {p} w ∧ (w.procs p).mmaps.totalMmaps = 0) (.refl s {p})
    ((Triple.of_frame (respects_closeFiles p _) s).post (fun _ _ ↦ id) fun _ t ht ↦
      .of_filesFrame ht {p}) (fun v hv ↦ ?_) fun w t hw ht ↦ ⟨fun q hq ↦ ?_, ?_, ?_⟩
  · have hclosed := SlotsKept.of_filesFrame hv {p}
    exact (deleteMmaps_empties p v).post
      (fun _ w hw ↦ ⟨hclosed.trans (.of_tableFrame hw.1), hw.2⟩)
      fun _ w hw ↦ hclosed.trans (.of_tableFrame hw)
  · rw [← hw.1 q hq, ht.others q hq]
    rfl
  · rw [ht.self]
  · rw [ht.self]
    exact hw.2

theorem wait_slots (s : Machine N) (p : Fin N) :
    Triple (· = s) (wait p)
      (fun r t ↦ match r with
        | none => t = s
        | some q => (s.procs q).state = .zombie ∧ s.SlotsKept {q} t ∧
            (t.procs q).state = .unused ∧ ∀ k, ((t.procs q).mmaps k).settled =
              ((s.procs q).mmaps k).settled)
      fun _ t ↦ s.SlotsKept ∅ t := by
  refine .get_at ?_
  cases hfind : findZombie s p with
  | none => exact .pure fun t ht ↦ ht
  | some q =>
    have hzombie : (s.procs q).state = .zombie := by
      have hfound := List.find?_some hfind
      rw [Bool.and_eq_true] at hfound
      exact of_decide_eq_true hfound.2
    have hframe := pagingFrame_procFrame p
    have hfree := Triple.of_frame (respects_kfree hframe.toMapFrame (s.procs q).kstack) s
    refine hfree.seq (fun _ t ht ↦ .of_procFrame ht ∅) fun _ ↦ ?_
    refine .modify_bind fun v hv ↦ ?_
    have hkept : s.SlotsKept ∅
        { v with procs := update v.procs q { v.procs q with kstack := 0 } } := by
      intro q' _
      have hslot := slot_of_settled (settled_of_procFrame hv q')
      by_cases hq : q' = q
      · subst hq
        simp only [update_self]
        exact hslot
      · simp only [update_of_ne hq]
        exact hslot
    have hvm := Triple.of_frame (respects_freevm hframe (s.procs q).pgdir)
      { v with procs := update v.procs q { v.procs q with kstack := 0 } }
    refine hvm.seq (fun _ t ht ↦ hkept.trans (.of_procFrame ht ∅)) fun _ ↦ ?_
    refine .modify_bind fun w hw ↦ .pure_at ?_
    have hkept' := hkept.trans (.of_procFrame hw ∅)
    refine ⟨hzombie, ?_, ?_, ?_⟩
    · intro q' hq'
      have hne : q' ≠ q := hq'
      simp only [update_of_ne hne]
      exact hkept' q' (Set.notMem_empty q')
    · simp only [update_self]
    · intro k
      simp only [update_self]
      exact entry_of_slot (hkept' q (Set.notMem_empty q)) k

theorem exec_slots (s : Machine N) (p : Fin N) (image : ExecImage) :
    Triple (· = s) (exec p image)
      (fun r t ↦ if r then s.SlotsKept {p} t ∧ (t.procs p).state = (s.procs p).state ∧
          (t.procs p).mmaps.totalMmaps = 0
        else s.SlotsKept ∅ t)
      fun e t ↦ e.sleeps = true → s.SlotsKept {p} t := by
  refine exec_rule (D := fun _ _ w ↦ (tableFrame p).rel s w ∧ (w.procs p).mmaps.totalMmaps = 0)
    (nofun) (fun t ht q _ ↦ by rw [ht.procs])
    (fun d sz u _ _ hu ↦ ?_) ?_
  · have hstart : (tableFrame p).rel s u := by
      refine ⟨fun q _ ↦ ?_, ?_⟩ <;> rw [hu.procs_eq]
    exact (deleteMmaps_empties p u).post
      (fun _ w hw ↦ ⟨(tableFrame p).trans hstart hw.1, hw.2⟩)
      fun _ w hw _ ↦ .of_tableFrame ((tableFrame p).trans hstart hw)
  · rintro d sz t ⟨ht, htotal⟩
    refine neverStuck_freevm.awake ((Triple.of_frame
      (respects_freevm (pagingFrame_procFrame p) _) _).post (fun _ u hu ↦ ?_) fun _ _ ↦ id)
    have hslot := slot_of_settled (settled_of_procFrame hu p)
    simp only [update_self] at hslot
    refine ⟨((SlotsKept.of_tableFrame ht).trans (SlotsKept.setProc t p _)).trans
      (.of_procFrame hu {p}), ?_, ?_⟩
    · rw [state_of_slot hslot]
      exact state_of_tableFrame ht p
    · rw [totalMmaps]
      exact (congrArg Region.virtAddr (region_of_slot hslot 30)).trans htotal

end Kernel

end Xv6Mmap
