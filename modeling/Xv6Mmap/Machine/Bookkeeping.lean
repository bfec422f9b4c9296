import Xv6Mmap.Machine.Unmapping
import Xv6Mmap.Region.Books

/-!
# The bookkeeping of a process

A page fault adds a page to the stored size of the entry that the handler picks, which for the first
byte of a region is the entry below it if that one ends there.  So `my_munmap` can change the books
of a neighbour when it writes a region back whose first page is absent, and it changes the books of
every region that its left shift moves unless they happen to be equal.
-/

namespace Xv6Mmap

open Function Library Prog RegionTable BitVec

variable {N : ℕ} {addr : Word}

namespace Kernel

open Machine RegionTable

variable {s t : Machine N} {p : Fin N} {i : ℕ} {table : RegionTable}

/-- A fault inside a region picks its entry, unless it is at its first byte and the region below ends
there. -/
theorem faultEntry_eq (hwell : table.WellFormed) (hi : i < table.total.toNat)
    (hlow : (table i).virtAddr.toNat ≤ addr.toNat)
    (hhigh : addr.toNat < (table i).virtAddr.toNat + (table i).size.toNat)
    (hapart : addr ≠ (table i).virtAddr ∨
      ∀ j < i, (table j).virtAddr + (table j).size ≠ (table i).virtAddr) :
    faultEntry table addr = some i := by
  have hend {j : ℕ} (hj : j < table.total.toNat) :
      ((table j).virtAddr + (table j).size).toNat =
        (table j).virtAddr.toNat + (table j).size.toNat := (hwell.placed_at hj).within.toNat_end
  rw [faultEntry, List.find?_range_eq_some]
  refine ⟨?_, List.mem_range.mpr hi, fun j hj ↦ ?_⟩
  · rw [Bool.and_eq_true, decide_eq_true_eq, decide_eq_true_eq, le_def, le_def,
      hend hi]
    omega
  · have horder : (table j).region.hi ≤ (table i).region.lo := hwell.hi_le_lo hj hi
    have hle : (table j).virtAddr.toNat + (table j).size.toNat ≤ (table j).region.hi :=
      Region.end_le_hi (table j).region
    have hlo : (table i).region.lo = (table i).virtAddr.toNat := rfl
    have hout : ¬ addr ≤ (table j).virtAddr + (table j).size := by
      intro hin
      rw [le_def, hend (hj.trans hi)] at hin
      rcases hapart with hne | hnone
      · exact hne (eq_of_toNat_eq (by omega))
      · apply hnone j hj
        apply eq_of_toNat_eq
        rw [hend (hj.trans hi)]
        omega
    rw [decide_eq_false hout, Bool.and_false]
    rfl

theorem faultEntry_congr {table' : RegionTable}
    (hregion : ∀ i : ℕ, (table' i).region = (table i).region) (addr : Word) :
    faultEntry table' addr = faultEntry table addr := by
  have htotal := (live_congr hregion).1
  have hva (i : ℕ) : (table' i).virtAddr = (table i).virtAddr := congrArg Region.virtAddr (hregion i)
  have hsize (i : ℕ) : (table' i).size = (table i).size := congrArg Region.size (hregion i)
  simp only [faultEntry, htotal, hva, hsize]

/-! ## What a page fault charges -/

/-- In the table of `p`, the stored sizes of the entries other than `i` are what they were. -/
def Charged (s : Machine N) (p : Fin N) (i : ℕ) (t : Machine N) : Prop :=
  ∀ j : ℤ, j ≠ i → ((t.procs p).mmaps j).storedSize = ((s.procs p).mmaps j).storedSize

theorem Charged.of_mmaps {u : Machine N} (h : Charged s p i t)
    (hmmaps : (u.procs p).mmaps = (t.procs p).mmaps) : Charged s p i u := by
  intro j hj
  rw [hmmaps, h j hj]

theorem Charged.trans {u : Machine N} (hst : Charged s p i t) (htu : Charged t p i u) :
    Charged s p i u :=
  fun j hj ↦ (htu j hj).trans (hst j hj)

/-- A page fault is charged to the entry that the handler picks. -/
theorem handlePageFault_charged (hbase : mmapBase ≤ addr)
    (htabled : (s.pgdirs (s.procs p).pgdir).Tabled)
    (hentry : faultEntry (s.procs p).mmaps addr = some i) :
    Triple (· = s) (handlePageFault p addr) (fun _ ↦ Charged s p i)
      fun _ ↦ Charged s p i := by
  obtain ⟨haligned, hlow⟩ := le_toNat_pgRoundDown hbase
  have hstart : Charged s p i s := fun _ _ ↦ rfl
  refine handlePageFault_cases hstart ?_ (fun k hk ↦ ?_) fun k hk ↦ ?_
  · refine .modify fun t ht ↦ ht.of_mmaps ?_
    simp only [update_self]
  · obtain rfl : i = k := Option.mem_unique hentry hk
    refine .modify fun t ht j hj ↦ ?_
    simp only [update_self]
    rw [set_of_ne _ _ hj]
    exact ht j hj
  · have hsize := count_le_of_toNat_le (MmapRegion.faultSize_le ((s.procs p).mmaps k))
    refine (mmapStoreData_stored haligned hlow htabled hsize _ _ _ _).post ?_
      fun _ t ht ↦ hstart.of_mmaps (by rw [ht.2])
    rintro r t (⟨frame, hinstalled⟩ | ⟨hsame, _⟩)
    · exact hstart.of_mmaps (by rw [hinstalled.procs])
    · exact hstart.of_mmaps (by rw [hsame.2])

/-- Since `s`, pages have been faulted in at the expense of entry `i` only. -/
def Charging (s : Machine N) (p : Fin N) (i : ℕ) (t : Machine N) : Prop :=
  Growing (fun _ _ ↦ True) s t ∧ Charged s p i t

theorem keeps_loadKernel_charging
    (haddr : Kernel.present s p addr = true ∨ faultEntry (s.procs p).mmaps addr = some i) :
    Keeps (Charging s p i) (loadKernel p addr) := by
  refine keeps_loadKernel_of_fault fun t ht hpresent hbase ↦ ?_
  have hentry := haddr.resolve_left fun hp ↦ hpresent (Growing.present ht.1 hp)
  rw [← faultEntry_congr fun i ↦ region_of_procFrame ht.1.2 p i] at hentry
  have hgrowing := (keeps_handlePageFault_growing (s := s) (p := p)
    (A := fun _ _ ↦ True) hbase trivial).at_state ht.1
  have hcharged := handlePageFault_charged hbase (ht.1.1.tabled _) hentry
  exact (hgrowing.both hcharged).post (fun _ u hu ↦ ⟨hu.1, ht.2.trans hu.2⟩)
    fun _ u hu ↦ ⟨hu.1, ht.2.trans hu.2⟩

theorem ioFrame_charging : IoFrame (.ofInvariant (Charging s p i)) where
  mem t _ h := ⟨ioFrame_growing.mem t _ h.1, h.2⟩
  pagecache t _ hpages h := ⟨ioFrame_growing.pagecache t _ hpages h.1, h.2⟩
  inodes t _ h := ⟨ioFrame_growing.inodes t _ h.1, h.2⟩
  held t _ h := ⟨ioFrame_growing.held t _ h.1, h.2⟩
  files t _ h := ⟨ioFrame_growing.files t _ h.1, h.2⟩

/-- Writing entry `i` back charges no other entry: its first page is present, or no region ends where
it begins. -/
def ChargesOnly (s : Machine N) (p : Fin N) (i : ℕ) : Prop :=
  let table := (s.procs p).mmaps
  MmapRegion.writesBack (table i) = true → Kernel.present s p (table i).virtAddr = true ∨
    ∀ j < i, (table j).virtAddr + (table j).size ≠ (table i).virtAddr

theorem keeps_writeBack_charging (hwell : (s.procs p).mmaps.WellFormed)
    (hi : i < (s.procs p).mmaps.total.toNat) (hcharges : ChargesOnly s p i) :
    Keeps (Charging s p i) (writeBack p ((s.procs p).mmaps i)) := by
  by_cases hback : MmapRegion.writesBack ((s.procs p).mmaps i) = true
  · have hplaced := hwell.placed_at hi
    have hend := Region.end_le_hi ((s.procs p).mmaps i).region
    have hle := hplaced.hi_le
    apply Triple.of_respects
    apply respects_writeBack_of_region ioFrame_charging.toOffsetFrame
    intro j hj
    refine (keeps_loadKernel_charging ?_).respects
    have hsize : ((s.procs p).mmaps i).size.count = ((s.procs p).mmaps i).size.toNat :=
      count_eq_toNat (by
        change ((s.procs p).mmaps i).virtAddr.toNat + ((s.procs p).mmaps i).size.toNat ≤ _ at hend
        omega)
    have haddr : (((s.procs p).mmaps i).virtAddr + BitVec.ofNat 32 j).toNat =
        ((s.procs p).mmaps i).virtAddr.toNat + j := by
      change ((s.procs p).mmaps i).virtAddr.toNat + ((s.procs p).mmaps i).size.toNat ≤ _ at hend
      rw [toNat_add, toNat_ofNat]
      omega
    have hinside (hapart) := faultEntry_eq hwell hi
      (by omega : ((s.procs p).mmaps i).virtAddr.toNat ≤
        (((s.procs p).mmaps i).virtAddr + BitVec.ofNat 32 j).toNat) (by omega) hapart
    by_cases hzero : j = 0
    · rw [hzero, BitVec.add_zero] at hinside ⊢
      exact (hcharges hback).imp_right fun hnone ↦ hinside (.inr hnone)
    · refine .inr (hinside (.inl fun hequal ↦ hzero ?_))
      rw [hequal] at haddr
      omega
  · rw [writeBack, if_neg hback]
    exact .pure fun _ ↦ id

/-- **`my_munmap` on the books.**  Pages are faulted in at the expense of the region only, and then
its entry is dropped unless the write-back has failed. -/
theorem myMunmap_charging (size : Word) (htabled : ∀ d, (s.pgdirs d).Tabled)
    (hwell : (s.procs p).mmaps.WellFormed)
    (hfound : (s.procs p).mmaps.findEntry (pgRoundUp addr) = some i)
    (hsize : ((s.procs p).mmaps i).size ≠ 0) (hi : i < (s.procs p).mmaps.total.toNat)
    (hcharges : ChargesOnly s p i) :
    Triple (· = s) (myMunmap p addr size)
      (fun r t ↦ ∃ u, Charging s p i u ∧ (r = -1 ∧ (t.procs p).mmaps = (u.procs p).mmaps ∨
        r = 0 ∧ (t.procs p).mmaps = (u.procs p).mmaps.dropEntry i (pgRoundUp size)))
      fun _ _ ↦ True := by
  have hstart : Charging s p i s :=
    ⟨⟨.refl htabled, procFrame.refl s⟩, fun _ _ ↦ rfl⟩
  refine .get_at ?_
  dsimp only
  rw [hfound]
  dsimp only
  rw [if_neg hsize]
  refine ((keeps_writeBack_charging hwell hi hcharges).at_state hstart).seq (fun _ _ _ ↦ trivial)
    fun written ↦ .of_forall fun u hu ↦ ?_
  cases written with
  | false =>
    refine .pure_at ?_
    exact ⟨u, hu, .inl ⟨rfl, rfl⟩⟩
  | true =>
    refine (freeRange_freed _ _ (hu.1.1.tabled _)).seq (fun _ _ _ ↦ trivial) fun _ ↦ ?_
    refine .modify_bind fun w hw ↦ .pure fun x hx ↦ ⟨u, hu, .inr ⟨rfl, ?_⟩⟩
    subst hx
    have hprocs : w.procs = u.procs := by rw [hw.2]
    simp only [update_self, hprocs]

end Kernel

/-! ## Runs of one process -/

/-- What a process does to its region table and to the books in it. -/
inductive BookCall where
  | mmap (call : Kernel.MmapCall)
  | munmap (addr size : Word)
  | fault (addr : Word)

namespace BookCall

open Kernel

variable {p : Fin N} {s s' : Machine N} {r : Word}

def body (p : Fin N) : BookCall → Kernel N Word
  | mmap call => myMmap p call
  | munmap addr size => myMunmap p addr size
  | fault addr => do
    pageFault p addr
    return 0

/-- One call or page fault of `p` that returns. -/
def step (p : Fin N) (s : Machine N) (call : BookCall) : Option (Machine N) :=
  match call.body p s with
  | (.ok _, t) => some t
  | (.error _, _) => none

/-- The condition on the state before a step.  A mapping is placed among live regions only, and the
slots from the one it gets up to the first free one have blank books.  An unmapping finds no entry or
a live one, charges no other entry when it writes back, and if it takes the region out, all regions
above have nothing stored and its reference count. -/
def KeepsBooks (p : Fin N) (s : Machine N) : BookCall → Prop
  | mmap call =>
    let t := (s.procs p).mmaps
    let a := call.args (s.files call.f)
    a.valid = true → t.total < 30 → a.Admissible t ∧ ∀ k : ℕ, (t.chooseSlot a).2 = some (k : ℤ) →
      ∀ i : ℕ, k ≤ i → i ≤ t.total.toNat → t.slotBooks i = (0, 0)
  | munmap addr size =>
    let t := (s.procs p).mmaps
    ∀ i, t.findEntry (pgRoundUp addr) = some i → (t i).size ≠ 0 → i < t.total.toNat ∧
      ChargesOnly s p i ∧ ((t i).size ≤ pgRoundUp size →
        ∀ j : ℕ, i < j → j < t.total.toNat → t.slotBooks j = (0, (t i).refCount))
  | fault _ => True

/-- What a call that returns `r` leaves of the books of the regions: those of the regions that are
neither created nor unmapped stay, and a new region starts with blank ones. -/
def Preserves (p : Fin N) (s : Machine N) (r : Word) (s' : Machine N) : BookCall → Prop
  | mmap call =>
    (∀ q ∈ (s.procs p).mmaps.live, (s'.procs p).mmaps.books q = (s.procs p).mmaps.books q) ∧
      (r ≠ -1 → (s'.procs p).mmaps.books ((call.args (s.files call.f)).region r) = some (0, 0))
  | munmap addr _ =>
    ∀ q ∈ (s.procs p).mmaps.live, q.virtAddr ≠ pgRoundUp addr →
      (s'.procs p).mmaps.books q = (s.procs p).mmaps.books q
  | fault _ => True

/-- What holds along a run. -/
structure Tidy (p : Fin N) (s : Machine N) : Prop where
  wellFormed : (s.procs p).mmaps.WellFormed
  tabled : ∀ d, (s.pgdirs d).Tabled

theorem Tidy.mmap {call : MmapCall} (h : Tidy p s) (hkeeps : KeepsBooks p s (.mmap call))
    (hrun : myMmap p call s = (.ok r, s')) : Tidy p s' ∧ Preserves p s r s' (.mmap call) := by
  obtain ⟨hwell, htabled⟩ := h
  rw [myMmap_apply] at hrun
  cases hrun
  have hslots := slotBooks_myMmap (s.procs p).mmaps (call.args (s.files call.f))
  simp only [Preserves, update_self]
  rcases myMmap_chosen hwell fun hvalid hroom ↦ (hkeeps hvalid hroom).1 with
    hfail | ⟨t', va, k, hcall, hvalid, hroom, hfits, hinserted, hchosen⟩
  · rw [hfail]
    refine ⟨⟨?_, htabled⟩, fun _ _ ↦ rfl, fun hne ↦ absurd rfl hne⟩
    simp only [update_self]
    exact hwell
  · rw [hcall] at hslots ⊢
    have hwell' := hinserted.wellFormed hwell hroom hfits (MmapArgs.size_toNat_pos hvalid)
    have hblank := (hkeeps hvalid hroom).2 k hchosen
    obtain ⟨hkept, hnew⟩ := (books_inserted_iff hinserted hwell hwell' hroom
      hfits.index_le hslots).mpr hblank
    refine ⟨⟨?_, htabled⟩, hkept, fun _ ↦ hnew⟩
    simp only [update_self]
    exact hwell'

theorem Tidy.munmap {size : Word} (h : Tidy p s)
    (hkeeps : KeepsBooks p s (.munmap addr size)) (hrun : myMunmap p addr size s = (.ok r, s')) :
    Tidy p s' ∧ Preserves p s r s' (.munmap addr size) := by
  have htabled' (d : Word) : (s'.pgdirs d).Tabled :=
    ((systemFrame_tabled d).respects_myMunmap p addr size).of_eq hrun (h.tabled d)
  by_cases hentry : ∃ i, (s.procs p).mmaps.findEntry (pgRoundUp addr) = some i ∧
      ((s.procs p).mmaps i).size ≠ 0
  · obtain ⟨i, hfound, hsize⟩ := hentry
    obtain ⟨hi, hcharges, hbooks⟩ := hkeeps i hfound hsize
    have hresult := myMunmap_charging size h.tabled h.wellFormed hfound hsize hi hcharges s rfl
    rw [hrun] at hresult
    obtain ⟨u, ⟨⟨_, hrel⟩, hcharged⟩, hcases⟩ := hresult
    have hregion (k : ℤ) := region_of_procFrame hrel p k
    obtain ⟨htotal, hlive⟩ := live_congr fun i : ℕ ↦ hregion i
    have hwell' := (wellFormed_congr (fun i : ℕ ↦ hregion i) h.wellFormed).1
    have hslots (j : ℕ) (hj : j ≠ i) :
        (u.procs p).mmaps.slotBooks j = (s.procs p).mmaps.slotBooks j := by
      rw [slotBooks, hcharged j (by omega), refCount_of_procFrame hrel p,
        slotBooks]
    have hstart : ((s.procs p).mmaps i).virtAddr = pgRoundUp addr :=
      (findEntry_eq_some hfound).2.1
    have hstart' : ((u.procs p).mmaps i).virtAddr = pgRoundUp addr :=
      (congrArg Region.virtAddr (hregion i)).trans hstart
    -- the books of the other regions are the same before and after the write-back
    have hother (j : ℕ) (hj : j < (s.procs p).mmaps.total.toNat) (hji : j ≠ i) :
        (u.procs p).mmaps.books ((s.procs p).mmaps j).region =
          (s.procs p).mmaps.books ((s.procs p).mmaps j).region := by
      grind [books_region, h.wellFormed]
    have hindex {j : ℕ} (hne : ((s.procs p).mmaps j).virtAddr ≠ pgRoundUp addr) : j ≠ i := by
      rintro rfl
      exact hne hstart
    rcases hcases with ⟨rfl, hmmaps⟩ | ⟨rfl, hmmaps⟩
    · refine ⟨⟨hmmaps ▸ hwell', htabled'⟩, fun q hq hne ↦ ?_⟩
      obtain ⟨j, hj, rfl⟩ := mem_live.mp hq
      rw [hmmaps, hother j hj (hindex hne)]
    · have hi' : i < (u.procs p).mmaps.total.toNat := htotal ▸ hi
      have hdropped := dropEntry_wellFormed hwell' hi' (pgRoundUp_mod size)
      refine ⟨⟨hmmaps ▸ hdropped, htabled'⟩, fun q hq hne ↦ ?_⟩
      obtain ⟨j, hj, rfl⟩ := mem_live.mp hq
      rw [hmmaps, ← hother j hj (hindex hne)]
      by_cases hfull : ((u.procs p).mmaps i).size ≤ pgRoundUp size
      · refine (books_dropEntry_iff hwell' hi' hfull hdropped).mpr ?_ _ (hlive ▸ hq) ?_
        · intro k hik hk
          have hsize' : ((u.procs p).mmaps i).size = ((s.procs p).mmaps i).size :=
            congrArg Region.size (hregion i)
          rw [hslots k (by omega), hbooks (hsize' ▸ hfull) k hik (htotal ▸ hk),
            refCount_of_procFrame hrel p]
        · rw [hstart']
          exact hne
      · rw [← hregion]
        exact books_dropEntry_of_not_le hwell' hi' hfull hdropped (htotal ▸ hj)
          (hindex hne)
  · -- no entry is found, and nothing happens
    have hnothing : s' = s := by
      rw [myMunmap, bind_of_ok (get_apply s)] at hrun
      cases hfound : (s.procs p).mmaps.findEntry (pgRoundUp addr) with
      | none =>
        simp only [hfound] at hrun
        cases hrun
        rfl
      | some i =>
        have hzero : ((s.procs p).mmaps i).size = 0 := by
          by_contra hne
          exact hentry ⟨i, hfound, hne⟩
        simp only [hfound, if_pos hzero] at hrun
        cases hrun
        rfl
    rw [hnothing]
    exact ⟨h, fun _ _ _ ↦ rfl⟩

theorem Tidy.fault (h : Tidy p s) (hrun : body p (.fault addr) s = (.ok r, s')) : Tidy p s' := by
  obtain ⟨_, t, hfault, hreturn⟩ := bind_eq_ok hrun
  cases hreturn
  have hrel := (respects_pageFault (pagingFrame_procFrame p) addr).of_eq hfault
  refine ⟨(wellFormed_congr (fun i ↦ region_of_procFrame hrel p i) h.wellFormed).1, ?_⟩
  exact fun d ↦ (respects_pageFault ((systemFrame_tabled d).paging p) addr).of_eq hfault (h.tabled d)

/-- **One step.** -/
theorem Tidy.step {call : BookCall} (h : Tidy p s) (hkeeps : KeepsBooks p s call)
    (hrun : call.body p s = (.ok r, s')) : Tidy p s' ∧ Preserves p s r s' call := by
  cases call with
  | mmap c => exact h.mmap hkeeps hrun
  | munmap addr size => exact h.munmap hkeeps hrun
  | fault addr => exact ⟨h.fault hrun, trivial⟩

theorem Tidy.of_run {s₀ : Machine N} (h : Tidy p s₀)
    (hrun : Runs.Reaches (BookCall.step p) (KeepsBooks p) s₀ s) : Tidy p s := by
  refine hrun.invariant h fun t call t' ht hkeeps hstep ↦ ?_
  unfold BookCall.step at hstep
  split at hstep
  · rename_i hcall
    cases hstep
    exact (ht.step hkeeps hcall).1
  · cases hstep

end BookCall

/-- **The books stay with their regions.**  Along every run of `my_mmap` calls, `my_munmap` calls and
page faults of a process that meet the condition in the state they are made in, a call leaves the
stored size and the reference count of every region that it neither creates nor unmaps, and a new
region starts with both at zero. -/
theorem bookkeeping_kept {p : Fin N} {s₀ s s' : Machine N} (hwell : (s₀.procs p).mmaps.WellFormed)
    (htabled : ∀ d, (s₀.pgdirs d).Tabled)
    (hrun : Runs.Reaches (BookCall.step p) (BookCall.KeepsBooks p) s₀ s) {call : BookCall}
    (hkeeps : BookCall.KeepsBooks p s call) {r : Word} (hcall : call.body p s = (.ok r, s')) :
    BookCall.Preserves p s r s' call :=
  ((BookCall.Tidy.of_run ⟨hwell, htabled⟩ hrun).step hkeeps hcall).2

open BootImage

/-- A second page is mapped above one that has been touched. -/
theorem bookkeeping_kept_second_page :
    ∃ s s' : Machine 1, ∃ r, (s.procs 0).mmaps.books ((s.procs 0).mmaps 0).region = some (4096, 0) ∧
      BookCall.body 0 (.mmap anonymousPage) s = (.ok r, s') ∧
      BookCall.Preserves 0 s r s' (.mmap anonymousPage) := by
  obtain ⟨s₁, hmmap, s, hfault, hbooks, hplace, htotal, hslot, hblank⟩ :
      ∃ s₁ ∈ BookCall.step 0 (idle 0 100) (.mmap anonymousPage),
        ∃ s ∈ BookCall.step 0 s₁ (.fault mmapBase),
        (s.procs 0).mmaps.books ((s.procs 0).mmaps 0).region = some (4096, 0) ∧
        (anonymousPage.args (s.files 0)).Admissible (s.procs 0).mmaps ∧ (s.procs 0).mmaps.total = 1 ∧
        ((s.procs 0).mmaps.chooseSlot (anonymousPage.args (s.files 0))).2 = some 1 ∧
        (s.procs 0).mmaps.slotBooks 1 = (0, 0) := by
    decide +kernel
  have hwell := (wellFormed_of_total_eq_zero
    (show ((idle 0 100).procs 0).mmaps.total = 0 from rfl)).1
  have hfirst : BookCall.KeepsBooks 0 (idle 0 100) (.mmap anonymousPage) :=
    fun _ _ ↦ ⟨by decide, fun _ _ _ _ _ ↦ rfl⟩
  have hbefore : Runs.Reaches (BookCall.step 0) (BookCall.KeepsBooks 0) (idle 0 100) s :=
    (Relation.ReflTransGen.single ⟨.mmap anonymousPage, hfirst, hmmap⟩).tail
      ⟨.fault mmapBase, trivial, hfault⟩
  have hsecond : BookCall.KeepsBooks 0 s (.mmap anonymousPage) := by
    refine fun _ _ ↦ ⟨hplace, fun k hk i hki hi ↦ ?_⟩
    have hone : (1 : ℤ) = k := Option.some.inj (hslot.symm.trans hk)
    rw [htotal] at hi
    obtain rfl : i = 1 := by
      change i ≤ 1 at hi
      omega
    exact hblank
  exact ⟨s, _, _, hbooks, rfl,
    bookkeeping_kept hwell (boot (by decide)).tabled hbefore hsecond rfl⟩

/-- Two pages are mapped and the second is touched; when the first is unmapped, the second moves into
its slot and loses its stored size. -/
theorem bookkeeping_lost_after_munmap :
    ∃ s s' : Machine 1, ∃ r, ((idle 0 100).procs 0).mmaps.Fresh ∧
      Runs.Reaches (BookCall.step 0) Runs.unguarded (idle 0 100) s ∧
      BookCall.body 0 (.munmap mmapBase pgSize) s = (.ok r, s') ∧
      ¬ BookCall.Preserves 0 s r s' (.munmap mmapBase pgSize) := by
  obtain ⟨s, hs, hcall⟩ : ∃ s ∈ Runs.run (BookCall.step 0)
      [.mmap anonymousPage, .mmap anonymousPage, .fault 0x60001004] (idle 0 100),
        (match BookCall.body 0 (.munmap mmapBase pgSize) s with
        | (.ok _, s') => decide ((s.procs 0).mmaps.total = 2 ∧
            ((s.procs 0).mmaps 1).virtAddr ≠ mmapBase ∧
            (s.procs 0).mmaps.books ((s.procs 0).mmaps 1).region = some (4096, 0) ∧
            (s'.procs 0).mmaps.books ((s.procs 0).mmaps 1).region = some (0, 0))
        | (.error _, _) => false) = true := by
    decide +kernel
  split at hcall
  · rename_i r s' hmunmap
    obtain ⟨htotal, hother, hbefore, hafter⟩ := of_decide_eq_true hcall
    refine ⟨s, s', r, ⟨fun _ _ ↦ rfl, rfl⟩, Runs.reaches_of_run hs, hmunmap, fun hkept ↦ ?_⟩
    have hlive : ((s.procs 0).mmaps 1).region ∈ (s.procs 0).mmaps.live :=
      mem_live.mpr ⟨1, by rw [htotal]; decide, rfl⟩
    have hsame := hkept _ hlive hother
    rw [hbefore, hafter] at hsame
    cases hsame
  · cases hcall

end Xv6Mmap
