import Xv6Mmap.Machine.Frames
import Xv6Mmap.Region.Remove

/-!
# The region table over sequences of calls

A ledger records the regions that the successful calls of a run have created and not yet unmapped.
As long as every call is admissible, the live entries of the table are exactly the regions of the
ledger, in order and in place.  Without that condition the property fails: the left shift of
`my_munmap` leaves a copy of the last entry behind the live ones, and unmapping its address again
takes `total_mmaps` below zero.
-/

namespace Xv6Mmap

open Library RegionTable Runs Function

variable {nproc : ℕ} {addr size : Word}

namespace Kernel

open Prog

variable {p : Fin nproc} {s s' : Machine nproc}

theorem myMmap_apply (p : Fin nproc) (call : MmapCall) (s : Machine nproc) :
    myMmap p call s =
      (.ok ((s.procs p).mmaps.myMmap (call.args (s.files call.f))).2,
        { s with procs := update s.procs p { s.procs p with
            mmaps := ((s.procs p).mmaps.myMmap (call.args (s.files call.f))).1 } }) := rfl

/-- A `my_munmap` that returns has failed without touching the table, or has taken its region out
of the table of the process. -/
theorem myMunmap_cases {r : Word} (h : myMunmap p addr size s = (.ok r, s')) :
    (r = -1 ∧ procFrame.rel s s') ∨
      ∃ i s₁, r = 0 ∧ (s.procs p).mmaps.findEntry (pgRoundUp addr) = some i ∧
        ((s.procs p).mmaps i).size ≠ 0 ∧ procFrame.rel s s₁ ∧
        s' = { s₁ with procs := update s₁.procs p { s₁.procs p with
          mmaps := (s₁.procs p).mmaps.dropEntry i (pgRoundUp size) } } := by
  have hframe := pagingFrame_procFrame p
  rw [myMunmap, bind_of_ok (get_apply s)] at h
  cases hfound : (s.procs p).mmaps.findEntry (pgRoundUp addr) with
  | none =>
    simp only [hfound] at h
    cases h
    exact .inl ⟨rfl, procFrame.refl s⟩
  | some i =>
    simp only [hfound] at h
    split at h
    · cases h
      exact .inl ⟨rfl, procFrame.refl s⟩
    · rename_i hsize
      obtain ⟨written, s₁, hwrite, hrest⟩ := bind_eq_ok h
      have hrel :=
        (respects_writeBack ioFrame_procFrame.toOffsetFrame (respects_loadKernel hframe) _).of_eq hwrite
      split at hrest
      · obtain ⟨_, s₂, hfree, hdrop⟩ := bind_eq_ok hrest
        have hrel' := (respects_freeRange hframe _ _ _).of_eq hfree
        cases hdrop
        exact .inr ⟨i, s₂, rfl, rfl, hsize, procFrame.trans hrel hrel', rfl⟩
      · cases hrest
        exact .inl ⟨rfl, hrel⟩

/-- A `my_munmap` that finds a region and fails had to write it back. -/
theorem writesBack_of_myMunmap_failed {i : ℕ}
    (hfound : (s.procs p).mmaps.findEntry (pgRoundUp addr) = some i)
    (hsize : ((s.procs p).mmaps i).size ≠ 0) (h : myMunmap p addr size s = (.ok (-1), s')) :
    MmapRegion.writesBack ((s.procs p).mmaps i) = true := by
  by_contra hplain
  rw [myMunmap, bind_of_ok (get_apply s)] at h
  simp only [hfound, if_neg hsize] at h
  obtain ⟨written, s₁, hwrite, hrest⟩ := bind_eq_ok h
  rw [writeBack, if_neg hplain] at hwrite
  cases hwrite
  rw [if_pos rfl] at hrest
  obtain ⟨_, s₂, _, hdrop⟩ := bind_eq_ok hrest
  obtain ⟨_, s₃, _, hreturn⟩ := bind_eq_ok hdrop
  cases hreturn

end Kernel

/-! ## Runs of calls with their ledger -/

/-- A call that changes the region table of one process. -/
inductive RegionCall where
  | mmap (call : Kernel.MmapCall)
  | munmap (addr size : Word)

namespace RegionCall

open Kernel

def body (p : Fin nproc) : RegionCall → Kernel nproc Word
  | mmap call => myMmap p call
  | munmap addr size => myMunmap p addr size

/-- The ledger after a call that returned `r`. -/
def record : RegionCall → Word → List Region → List Region
  | mmap call, r, ledger =>
    if r = -1 then ledger
    else
      { virtAddr := r, size := call.size, flags := call.flags,
        protection := if call.protection = protNone then 0 else pteU ||| call.protection,
        f := call.f, offset := call.offset } :: ledger
  | munmap addr size, r, ledger =>
    if r = -1 then ledger else ledger.filterMap (Region.unmap (pgRoundUp addr) (pgRoundUp size))

/-- One call of process `p` that returns. -/
def step (p : Fin nproc) (x : Machine nproc × List Region) (call : RegionCall) :
    Option (Machine nproc × List Region) :=
  match call.body p x.1 with
  | (.ok r, s) => some (s, call.record r x.2)
  | (.error _, _) => none

/-- The condition on the state before a call under which it keeps the table in order: a mapping is
placed among live regions only, and an unmapping finds no entry or a live one. -/
def Admissible (p : Fin nproc) (x : Machine nproc × List Region) : RegionCall → Prop
  | mmap call =>
    let t := (x.1.procs p).mmaps
    let a := call.args (x.1.files call.f)
    a.valid = true → t.total < 30 → a.Admissible t
  | munmap addr _ =>
    let t := (x.1.procs p).mmaps
    ∀ i, t.findEntry (pgRoundUp addr) = some i → (t i).size ≠ 0 → i < t.total.toNat

instance (p : Fin nproc) (x : Machine nproc × List Region) :
    (call : RegionCall) → Decidable (call.Admissible p x)
  | mmap _ => inferInstanceAs (Decidable (_ → _ → _))
  | munmap addr _ =>
    inferInstanceAs (Decidable (∀ i ∈ (x.1.procs p).mmaps.findEntry (pgRoundUp addr), _))

end RegionCall

namespace RegionTable

/-- The live entries are in place and in order, and are exactly the regions of the ledger. -/
structure Consistent (t : RegionTable) (ledger : List Region) : Prop where
  total_nonneg : 0 ≤ t.total
  total_le : t.total ≤ 30
  aligned : ∀ i : ℕ, i < t.total → (t i).virtAddr.toNat % 4096 = 0
  increasing : ∀ i j : ℕ, i < j → j < t.total → (t i).virtAddr < (t j).virtAddr
  positive : ∀ i : ℕ, i < t.total → 0 < (t i).size.toInt
  disjoint : ∀ i j : ℕ, i < j → j < t.total →
    Disjoint (Set.Ico (t i).region.lo (t i).region.hi) (Set.Ico (t j).region.lo (t j).region.hi)
  created : t.live.Perm ledger
  once : t.live.Nodup

theorem WellFormed.consistent {t : RegionTable} {ledger : List Region} (h : t.WellFormed)
    (hledger : t.live.Perm ledger) : t.Consistent ledger := { h with
  aligned i hi := (h.placed_at (by omega)).aligned
  increasing i j hij hj := h.lo_lt_lo hij (by omega)
  positive i hi := (h.placed_at (by omega)).size_toInt_pos
  disjoint i j hij hj := by
    have hle := h.hi_le_lo hij (by omega)
    rw [Set.disjoint_left]
    intro x hx hy
    exact absurd (hx.2.trans_le hle) (not_lt.mpr hy.1)
  created := hledger
  once := h.laidOut.nodup }

theorem Fresh.total_eq_zero {t : RegionTable} (h : t.Fresh) : t.total = 0 := by
  rw [total, h.2]
  rfl

end RegionTable

/-! ## The table is consistent along admissible runs -/

namespace RegionCall

open Kernel

variable {p : Fin nproc} {x x' : Machine nproc × List Region} {call : RegionCall}
  {s : Machine nproc}

/-- The invariant of a run: the table is well formed and its live regions are those of the
ledger. -/
def Tracked (p : Fin nproc) (x : Machine nproc × List Region) : Prop :=
  (x.1.procs p).mmaps.WellFormed ∧ (x.1.procs p).mmaps.live.Perm x.2

theorem step_eq_some (h : step p x call = some x') :
    ∃ r, call.body p x.1 = (.ok r, x'.1) ∧ x'.2 = call.record r x.2 := by grind [step]

theorem Tracked.congr (h : Tracked p x) (hrel : procFrame.rel x.1 s) :
    (s.procs p).mmaps.WellFormed ∧ (s.procs p).mmaps.live = (x.1.procs p).mmaps.live :=
  wellFormed_congr (fun i ↦ region_of_procFrame hrel p i) h.1

theorem Tracked.mmap {c : MmapCall} (h : Tracked p x)
    (hadmissible : Admissible p x (.mmap c)) (hstep : step p x (.mmap c) = some x') :
    Tracked p x' := by
  obtain ⟨hwell, hledger⟩ := h
  obtain ⟨r, hrun, hrecord⟩ := step_eq_some hstep
  obtain ⟨s', ledger'⟩ := x'
  rw [body, myMmap_apply] at hrun
  cases hrun
  dsimp only at hrecord
  subst hrecord
  rw [Tracked]
  simp only [update_self]
  rcases myMmap_cases hwell hadmissible with
    hfail | ⟨t', va, k, hplace, hvalid, hroom, hfits, hinserted⟩
  · rw [hfail]
    exact ⟨hwell, by rwa [record, if_pos rfl]⟩
  · rw [hplace]
    have hwell' := hinserted.wellFormed hwell hroom hfits (MmapArgs.size_toNat_pos hvalid)
    have hva : va ≠ -1 := by
      rintro rfl
      exact absurd ((le_pageCeil _).trans_lt hfits.end_lt) (by
        rw [show (-1 : Word).toNat = 0xFFFFFFFF from rfl, show kernBase.toNat = 0x80000000 from rfl]
        omega)
    refine ⟨hwell', ?_⟩
    rw [record, if_neg hva, hinserted.live_eq hwell.total_nonneg hroom hfits.index_le]
    refine List.perm_middle.trans (List.Perm.cons _ ?_)
    rw [List.take_append_drop]
    exact hledger

theorem Tracked.munmap (h : Tracked p x) (hadmissible : Admissible p x (.munmap addr size))
    (hstep : step p x (.munmap addr size) = some x') : Tracked p x' := by
  obtain ⟨r, hrun, hrecord⟩ := step_eq_some hstep
  obtain ⟨s', ledger'⟩ := x'
  dsimp only at hrun hrecord
  subst hrecord
  rcases myMunmap_cases hrun with ⟨rfl, hrel⟩ | ⟨i, s₁, rfl, hfound, hsize, hrel, rfl⟩
  · obtain ⟨hwell, hlive⟩ := h.congr hrel
    refine ⟨hwell, ?_⟩
    rw [record, if_pos rfl, hlive]
    exact h.2
  · obtain ⟨hwell, hlive⟩ := h.congr hrel
    have hregion (k : ℤ) := region_of_procFrame hrel p k
    have htotal : (s₁.procs p).mmaps.total = (x.1.procs p).mmaps.total :=
      congrArg (fun r : Region ↦ r.virtAddr.toInt) (hregion 30)
    have hi : i < (s₁.procs p).mmaps.total.toNat := by
      rw [htotal]
      exact hadmissible i hfound hsize
    have hstart : ((s₁.procs p).mmaps i).virtAddr = pgRoundUp addr :=
      (congrArg Region.virtAddr (hregion i)).trans (findEntry_eq_some hfound).2.1
    rw [Tracked]
    simp only [update_self]
    refine ⟨dropEntry_wellFormed hwell hi (pgRoundUp_mod size), ?_⟩
    rw [record, if_neg (by decide), dropEntry_live hwell hi, hstart, hlive]
    exact h.2.filterMap _

theorem tracked_of_reaches (hfresh : (s.procs p).mmaps.Fresh)
    (hrun : Reaches (step p) (Admissible p) (s, []) x) : Tracked p x := by
  obtain ⟨hwell, hlive⟩ := wellFormed_of_total_eq_zero hfresh.total_eq_zero
  have hinit : Tracked p (s, ([] : List Region)) := ⟨hwell, by rw [hlive]⟩
  refine hrun.invariant hinit ?_
  intro y call y' hy hadmissible hstep
  cases call with
  | mmap c => exact hy.mmap hadmissible hstep
  | munmap addr size => exact hy.munmap hadmissible hstep

end RegionCall

/-- **The region table invariant.** From a blank table, along every sequence of `my_mmap` and
`my_munmap` calls that are admissible in the state they are made in, the live entries are in place,
in order and disjoint, and are exactly the regions created and not yet unmapped. -/
theorem regionTable_consistent {p : Fin nproc} {s : Machine nproc}
    (hfresh : (s.procs p).mmaps.Fresh) {x : Machine nproc × List Region}
    (hrun : Runs.Reaches (RegionCall.step p) (RegionCall.Admissible p) (s, []) x) :
    (x.1.procs p).mmaps.Consistent x.2 := by
  obtain ⟨hwell, hledger⟩ := RegionCall.tracked_of_reaches hfresh hrun
  exact hwell.consistent hledger

open BootImage

/-- Two pages are mapped and the first is unmapped: the entry of the second moves down. -/
theorem regionTable_consistent_shifted :
    ∃ x, Runs.Reaches (RegionCall.step 0) (RegionCall.Admissible 0) (idle 0 0, []) x ∧
      x.2.map Region.virtAddr = [0x60001000] ∧ (x.1.procs 0).mmaps.Consistent x.2 ∧
      ((x.1.procs 0).mmaps 0).virtAddr = 0x60001000 := by
  obtain ⟨x, hx, hledger, hfirst⟩ : ∃ x ∈ runIf (RegionCall.step 0) (RegionCall.Admissible 0)
      [.mmap anonymousPage, .mmap anonymousPage, .munmap 0x60000000 pgSize] (idle 0 0, []),
      x.2.map Region.virtAddr = [0x60001000] ∧ ((x.1.procs 0).mmaps 0).virtAddr = 0x60001000 := by
    decide +kernel
  have hreaches := reaches_of_runIf hx
  exact ⟨x, hreaches, hledger, regionTable_consistent ⟨fun _ _ ↦ rfl, rfl⟩ hreaches, hfirst⟩

/-- Two regions are mapped, both are unmapped, and the second is unmapped again: the left shift has
left a copy of it in the second slot, and `total_mmaps` ends at `-1`. -/
theorem regionTable_inconsistent_after_double_munmap :
    ((idle 0 0).procs 0).mmaps.Fresh ∧
      ∃ x, Runs.Reaches (RegionCall.step 0) Runs.unguarded (idle 0 0, []) x ∧
        ¬ (x.1.procs 0).mmaps.Consistent x.2 := by
  obtain ⟨x, hx, htotal⟩ : ∃ x ∈ run (RegionCall.step 0)
      [.mmap anonymousPage, .mmap anonymousPage, .munmap 0x60000000 pgSize,
        .munmap 0x60001000 pgSize, .munmap 0x60001000 pgSize] (idle 0 0, []),
      (x.1.procs 0).mmaps.total = -1 := by
    decide +kernel
  refine ⟨⟨fun _ _ ↦ rfl, rfl⟩, x, reaches_of_run hx, ?_⟩
  intro h
  have hnonneg := h.total_nonneg
  omega

/-! ## Unmapping what is not mapped -/

/-- **`my_munmap` rejects what is not mapped.**  After every admissible sequence of calls, an
admissible `my_munmap` returns 0 only at the start of a region created and not yet unmapped; anywhere
else it returns `-1` and changes nothing. -/
theorem myMunmap_rejects {p : Fin nproc} {s : Machine nproc} (hfresh : (s.procs p).mmaps.Fresh)
    {x : Machine nproc × List Region}
    (hrun : Runs.Reaches (RegionCall.step p) (RegionCall.Admissible p) (s, []) x) {addr size : Word}
    (hadmissible : RegionCall.Admissible p x (.munmap addr size)) :
    ((Kernel.myMunmap p addr size x.1).1 = .ok 0 → ∃ r ∈ x.2, r.virtAddr = pgRoundUp addr) ∧
      ((¬ ∃ r ∈ x.2, r.virtAddr = pgRoundUp addr) →
        Kernel.myMunmap p addr size x.1 = (.ok (-1), x.1)) := by
  have hledger := (RegionCall.tracked_of_reaches hfresh hrun).2
  have hreject (hnone : ¬ ∃ r ∈ x.2, r.virtAddr = pgRoundUp addr) :
      Kernel.myMunmap p addr size x.1 = (.ok (-1), x.1) := by
    rw [Kernel.myMunmap, Prog.bind_of_ok (Prog.get_apply x.1)]
    cases hfound : (x.1.procs p).mmaps.findEntry (pgRoundUp addr) with
    | none => simp only [Prog.pure_apply]
    | some i =>
      have hsize : ((x.1.procs p).mmaps i).size = 0 := by
        by_contra hsize
        have hi := List.mem_range.mpr (hadmissible i hfound hsize)
        exact hnone ⟨_, hledger.subset (List.mem_map_of_mem hi), (findEntry_eq_some hfound).2.1⟩
      simp only [if_pos hsize, Prog.pure_apply]
  refine ⟨fun hok ↦ ?_, hreject⟩
  by_contra hnone
  rw [hreject hnone] at hok
  exact absurd (Except.ok.inj hok) (by decide)

/-- Two pages are mapped and the first is unmapped; unmapping it again is rejected. -/
theorem myMunmap_rejects_unmapped :
    ∃ x, Runs.Reaches (RegionCall.step 0) (RegionCall.Admissible 0) (idle 0 0, []) x ∧
      x.2.map Region.virtAddr = [0x60001000] ∧
      Kernel.myMunmap 0 0x60000000 pgSize x.1 = (.ok (-1), x.1) := by
  obtain ⟨x, hx, hledger, hadmissible⟩ : ∃ x ∈ runIf (RegionCall.step 0) (RegionCall.Admissible 0)
      [.mmap anonymousPage, .mmap anonymousPage, .munmap 0x60000000 pgSize] (idle 0 0, []),
      x.2.map Region.virtAddr = [0x60001000] ∧
        RegionCall.Admissible 0 x (.munmap 0x60000000 pgSize) := by
    decide +kernel
  refine ⟨x, reaches_of_runIf hx, hledger, (myMunmap_rejects ⟨fun _ _ ↦ rfl, rfl⟩
    (reaches_of_runIf hx) hadmissible).2 ?_⟩
  rintro ⟨r, hr, hstart⟩
  have hmem := List.mem_map_of_mem (f := Region.virtAddr) hr
  rw [hledger, List.mem_singleton, hstart] at hmem
  exact absurd hmem (by decide)

/-- The copy that the left shift has left behind is unmapped as if it were a region. -/
theorem myMunmap_accepts_stale_entry :
    ((idle 0 0).procs 0).mmaps.Fresh ∧
      ∃ x, Runs.Reaches (RegionCall.step 0) Runs.unguarded (idle 0 0, []) x ∧
        (Kernel.myMunmap 0 0x60001000 pgSize x.1).1 = .ok 0 ∧
        ¬ ∃ r ∈ x.2, r.virtAddr = pgRoundUp 0x60001000 := by
  refine ⟨⟨fun _ _ ↦ rfl, rfl⟩, exists_reaches
    [.mmap anonymousPage, .mmap anonymousPage, .munmap 0x60000000 pgSize, .munmap 0x60001000 pgSize]
    ?_⟩
  decide +kernel

end Xv6Mmap
