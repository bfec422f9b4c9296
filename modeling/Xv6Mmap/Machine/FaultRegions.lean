import Xv6Mmap.Machine.Unmapping

/-!
# Which region serves a page fault

`handle_page_fault` takes the first live entry whose range holds the address, and counts the end of
the range as part of it.  So the byte after a region is served as if it belonged to it, also where
the next region starts there.  What is stored depends on a counter besides: an entry whose stored
size has reached its size is served with nothing.
-/

namespace Xv6Mmap

open Library Prog Kernel Machine MmapRegion List Bool
open BitVec (le_def lt_def)

variable {N : ℕ}

/-- What a page is filled from. -/
structure PageSource where
  protection : Word
  flags : Word
  f : Word
  position : Word
  deriving DecidableEq

namespace RegionTable

/-- What the page of `addr` is filled from when entry `i` serves it. -/
def source (t : RegionTable) (addr : Word) (i : ℕ) : PageSource where
  protection := (t i).protection
  flags := (t i).flags
  f := (t i).f
  position := MmapRegion.faultOffset (t i) addr

/-- The live entry in whose range the address lies. -/
def regionAt (t : RegionTable) (addr : Word) : Option ℕ :=
  (List.range t.total.toNat).find? fun i ↦
    (t i).virtAddr ≤ addr && addr < (t i).virtAddr + (t i).size

/-- Where live entry `i` ends at `addr`, the entry that starts there has the same page to offer. -/
def EndsAlike (t : RegionTable) (addr : Word) : Prop :=
  ∀ i < t.total.toNat, (t i).virtAddr + (t i).size = addr →
    ∃ j < t.total.toNat, (t j).virtAddr = addr ∧ t.source addr j = t.source addr i

variable {t : RegionTable} {addr : Word} {i : ℕ}

theorem toNat_end (hwell : t.WellFormed) (hi : i < t.total.toNat) :
    ((t i).virtAddr + (t i).size).toNat = (t i).virtAddr.toNat + (t i).size.toNat ∧
      0 < (t i).size.toNat :=
  ⟨(hwell.placed_at hi).within.toNat_end, (hwell.placed_at hi).positive⟩

/-- A live entry ends before the next one starts, or where it starts. -/
theorem end_le_virtAddr (hwell : t.WellFormed) {j : ℕ} (hij : i < j) (hj : j < t.total.toNat) :
    ((t i).virtAddr + (t i).size).toNat ≤ (t j).virtAddr.toNat := by
  rw [(toNat_end hwell (hij.trans hj)).1]
  exact (Region.end_le_hi (t i).region).trans (hwell.hi_le_lo hij hj)

theorem regionAt_eq_some (hwell : t.WellFormed) :
    t.regionAt addr = some i ↔ i < t.total.toNat ∧ (t i).virtAddr ≤ addr ∧
      addr < (t i).virtAddr + (t i).size := by
  rw [regionAt, List.find?_range_eq_some, and_eq_true, decide_eq_true_eq, decide_eq_true_eq,
    mem_range]
  refine ⟨fun h ↦ ⟨h.2.1, h.1⟩, fun h ↦ ⟨h.2, h.1, fun j hj ↦ ?_⟩⟩
  have horder := end_le_virtAddr hwell hj h.1
  have hlow : (t i).virtAddr.toNat ≤ addr.toNat := h.2.1
  have hout : ¬ addr < (t j).virtAddr + (t j).size := by
    rw [lt_def]
    omega
  rw [decide_eq_false hout, Bool.and_false]
  rfl

/-- The entry that ends at an address is the one that the handler picks. -/
theorem faultEntry_of_end (hwell : t.WellFormed) (hi : i < t.total.toNat)
    (hend : (t i).virtAddr + (t i).size = addr) : faultEntry t addr = some i := by
  subst hend
  have haddr := toNat_end hwell hi
  rw [faultEntry, List.find?_range_eq_some, and_eq_true, decide_eq_true_eq, decide_eq_true_eq,
    mem_range]
  refine ⟨⟨?_, BitVec.le_refl _⟩, hi, fun j hj ↦ ?_⟩
  · rw [le_def]
    omega
  · have horder := end_le_virtAddr hwell hj hi
    have hout : ¬ (t i).virtAddr + (t i).size ≤ (t j).virtAddr + (t j).size := by
      rw [le_def]
      omega
    rw [decide_eq_false hout, Bool.and_false]
    rfl

/-- Unless an entry ends at the address, the handler picks the right one. -/
theorem faultEntry_eq_regionAt (hnone : ∀ i < t.total.toNat, (t i).virtAddr + (t i).size ≠ addr) :
    faultEntry t addr = t.regionAt addr := by
  rw [faultEntry, regionAt, ← List.head?_filter, ← List.head?_filter]
  congr 1
  apply filter_congr
  intro i hi
  have hne := hnone i (mem_range.mp hi)
  have hiff : addr ≤ (t i).virtAddr + (t i).size ↔ addr < (t i).virtAddr + (t i).size := by
    rw [le_def, lt_def, ← BitVec.toNat_ne_iff_ne] at *
    omega
  simp only [hiff]

/-- **The right source is used** exactly if no region ends at the address, or the one that starts
there has the same page to offer. -/
theorem source_faultEntry_iff (hwell : t.WellFormed) :
    (faultEntry t addr).map (t.source addr) = (t.regionAt addr).map (t.source addr) ↔
      t.EndsAlike addr := by
  by_cases hends : ∃ i < t.total.toNat, (t i).virtAddr + (t i).size = addr
  · obtain ⟨i, hi, hend⟩ := hends
    have hpick := faultEntry_of_end hwell hi hend
    rw [hpick, Option.map_some, eq_comm, Option.map_eq_some_iff]
    constructor
    · rintro ⟨j, hj, hsame⟩ k hk hkend
      obtain rfl : i = k := Option.some.inj (hpick.symm.trans (faultEntry_of_end hwell hk hkend))
      obtain ⟨hlive, hlow, hhigh⟩ := (regionAt_eq_some hwell).mp hj
      refine ⟨j, hlive, BitVec.eq_of_toNat_eq ?_, hsame⟩
      rw [le_def] at hlow
      rw [lt_def, ← hend] at hhigh
      rcases lt_trichotomy i j with hlt | rfl | hgt
      · have := end_le_virtAddr hwell hlt hlive
        rw [hend] at this
        omega
      · exact absurd hhigh (lt_irrefl _)
      · have := end_le_virtAddr hwell hgt hi
        have := toNat_end hwell hi
        omega
    · intro halike
      obtain ⟨j, hj, hstart, hsame⟩ := halike i hi hend
      refine ⟨j, (regionAt_eq_some hwell).mpr ⟨hj, hstart ▸ BitVec.le_refl _, ?_⟩, hsame⟩
      have hlater := toNat_end hwell hj
      rw [lt_def, ← hstart]
      omega
  · push Not at hends
    rw [faultEntry_eq_regionAt hends]
    exact ⟨fun _ i hi hend ↦ absurd hend (hends i hi), fun _ ↦ rfl⟩

end RegionTable

namespace Kernel

variable {p : Fin N} {s t : Machine N} {addr : Word}

/-- What a fault that is served leaves behind. -/
theorem handlePageFault_ok {e : ℕ} (hentry : faultEntry (s.procs p).mmaps addr = some e)
    (hclear : Frameless s p addr) (hrun : handlePageFault p addr s = (.ok (), t)) :
    ∃ r u, serve p addr ((s.procs p).mmaps e) s = (.ok r, u) ∧ t.pgdirs = u.pgdirs ∧
      t.mem = u.mem ∧ (t.procs p).pgdir = (u.procs p).pgdir ∧
      (t.procs p).killed = (r.slt 0 || (u.procs p).killed) := by
  rw [handlePageFault_stores hentry hclear, bind_apply] at hrun
  rcases hserve : serve p addr ((s.procs p).mmaps e) s with ⟨outcome, u⟩
  rw [hserve] at hrun
  cases outcome with
  | error halted => cases hrun
  | ok r =>
    refine ⟨r, u, rfl, ?_⟩
    dsimp only at hrun
    split at hrun
    · rename_i hnegative
      cases hrun
      simp [show r.slt 0#32 = true from hnegative]
    · rename_i hpositive
      cases hrun
      simp [show r.slt 0#32 = false from eq_false_of_not_eq_true hpositive]

/-- A page without a page-table page has no entry. -/
theorem frameless_iff (htabled : (s.pgdirs (s.procs p).pgdir).Tabled) :
    Frameless s p addr ↔ pteAddr ((s.pgdirs (s.procs p).pgdir).pte (vpn addr)) = 0 := by
  refine ⟨fun h ↦ ?_, fun h _ ↦ h⟩
  by_cases htable : ((s.pgdirs (s.procs p).pgdir).tabs (vpn addr).pdx).isSome = true
  · exact h htable
  · rw [htabled _ (eq_false_of_not_eq_true htable)]
    rfl

theorem MmapRegion.faultSize_eq_zero (mr : MmapRegion) :
    faultSize mr = 0 ↔ mr.storedSize = mr.size := by
  rw [faultSize]
  split
  · constructor <;> intro h <;> bv_omega
  · rename_i hlarge
    refine ⟨fun h ↦ absurd h (by decide), fun h ↦ absurd ?_ hlarge⟩
    rw [h, BitVec.sub_self]
    decide

/-- What has been installed is what `mmap_store_data` makes of an entry, called for the bytes of a page
that are not stored yet; or nothing has been installed and the process is killed. -/
def Installs (s : Machine N) (p : Fin N) (addr : Word) : Option ℕ → Machine N → Prop
  | none, t => t.pgdirs = s.pgdirs ∧ (t.procs p).killed = true
  | some i, t => ∃ r u, serve p addr ((s.procs p).mmaps i) s = (.ok r, u) ∧
      t.pgdirs = u.pgdirs ∧ t.mem = u.mem

end Kernel

/-- **The fault handler uses the right region** exactly if no live region ends at the fault address,
or the region that starts there has the same protection, flags, file and file position to offer.  A
page that is absent while its entry holds the address of a frame is not served at all. -/
theorem handlePageFault_source {s t : Machine N} {p : Fin N} {addr : Word}
    (hwell : (s.procs p).mmaps.WellFormed) (hrun : handlePageFault p addr s = (.ok (), t)) :
    let table := (s.procs p).mmaps
    let used := if Frameless s p addr then faultEntry table addr else none
    Installs s p addr used t ∧
      (used.map (table.source addr) = (table.regionAt addr).map (table.source addr) ↔
        if Frameless s p addr then table.EndsAlike addr else table.regionAt addr = none) := by
  intro table used
  by_cases hframe : Frameless s p addr
  · simp only [used, if_pos hframe]
    refine ⟨?_, RegionTable.source_faultEntry_iff hwell⟩
    cases hentry : faultEntry table addr with
    | none =>
      rw [handlePageFault_unserved hentry] at hrun
      cases hrun
      simp [Installs]
    | some e =>
      obtain ⟨r, u, hserve, hdirs, hmem, _⟩ := handlePageFault_ok hentry hframe hrun
      exact ⟨r, u, hserve, hdirs, hmem⟩
  · simp only [used, if_neg hframe]
    refine ⟨?_, ?_⟩
    · have hkill : handlePageFault p addr s = kill p s := by
        cases hentry : faultEntry table addr with
        | none => exact handlePageFault_unserved hentry
        | some e => exact handlePageFault_stale hentry hframe
      rw [hkill] at hrun
      cases hrun
      simp [Installs]
    · rw [Option.map_none, eq_comm, Option.map_eq_none_iff]

open BootImage

/-- A machine on which process `0` has mapped a private page and, right above it, a shared one. -/
def twoPages : Machine 1 :=
  (Runs.run Machine.step [.mmap 0 anonymousPage, .mmap 0 sharedPage] (idle 0 10)).getD (idle 0 10)

/-- The first page is served from its region. -/
theorem handlePageFault_source_first :
    let table := (twoPages.procs 0).mmaps
    table.source mmapBase 0 =
        { protection := 7, flags := mapPrivate ||| mapAnonymous, f := 0, position := 0 } ∧
      Installs twoPages 0 mmapBase (some 0) (handlePageFault 0 mmapBase twoPages).2 := by
  have hok : (handlePageFault 0 mmapBase twoPages).1 = .ok () := by decide +kernel
  have hrun : handlePageFault 0 mmapBase twoPages =
      (.ok (), (handlePageFault 0 mmapBase twoPages).2) := by rw [← hok]
  have hused : (if Frameless twoPages 0 mmapBase then
      faultEntry (twoPages.procs 0).mmaps mmapBase else none) = some 0 := by decide +kernel
  have hinstalls := (handlePageFault_source (by decide +kernel) hrun).1
  rw [hused] at hinstalls
  exact ⟨by decide +kernel, hinstalls⟩

/-- The first byte of the shared page is served as if it belonged to the private one: the page can be
written. -/
theorem handlePageFault_source_boundary :
    let table := (twoPages.procs 0).mmaps
    let addr := mmapBase + pgSize
    table.WellFormed ∧ (twoPages.pgdirs (twoPages.procs 0).pgdir).pte (vpn addr) = 0 ∧
      (table.regionAt addr).map (table.source addr) =
        some { protection := 5, flags := mapShared ||| mapAnonymous, f := 0, position := 0 } ∧
      (faultEntry table addr).map (table.source addr) =
        some { protection := 7, flags := mapPrivate ||| mapAnonymous, f := 0, position := pgSize } ∧
      (handlePageFault 0 addr twoPages).1.toBool = true ∧
      (((handlePageFault 0 addr twoPages).2.pgdirs (twoPages.procs 0).pgdir).pte (vpn addr)).has
        pteW = true := by
  decide +kernel

/-- **A handled fault makes progress** exactly if the process was killed already, or the entry that the
handler picks has not stored as many bytes as its size says. -/
theorem handlePageFault_progress_iff {s₀ s t : Machine N} (hboot : s₀.Boot)
    (hreach : Runs.Reaches Machine.step Runs.unguarded s₀ s) {p : Fin N} {addr : Word}
    (hbase : mmapBase ≤ addr) (habsent : present s p addr = false)
    (hrun : handlePageFault p addr s = (.ok (), t)) :
    (t.procs p).killed = true ∨ present t p addr = true ↔
      (s.procs p).killed = true ∨ pteAddr ((s.pgdirs (s.procs p).pgdir).pte (vpn addr)) ≠ 0 ∨
      ∀ i, faultEntry (s.procs p).mmaps addr = some i →
        ((s.procs p).mmaps i).storedSize ≠ ((s.procs p).mmaps i).size := by
  have htabled : (s.pgdirs (s.procs p).pgdir).Tabled :=
    hreach.invariant (I := fun u ↦ ∀ d, (u.pgdirs d).Tabled) hboot.tabled
      (fun u _ _ hu _ hstep d ↦ (systemFrame_tabled d).rel_step hstep (hu d)) _
  cases hentry : faultEntry (s.procs p).mmaps addr with
  | none =>
    rw [handlePageFault_unserved hentry] at hrun
    cases hrun
    simp
  | some e =>
    rw [Ne, ← frameless_iff htabled]
    by_cases hclear : Frameless s p addr
    · by_cases hsize : faultSize ((s.procs p).mmaps e) = 0
      · have hstored := (faultSize_eq_zero _).mp hsize
        rw [handlePageFault_nothing hentry hclear hsize] at hrun
        cases hrun
        have hsame : present (addStored p e pgSize s).2 p addr = present s p addr := by
          simp [present, addStored, setMmaps, setProc, modify_apply]
        rw [hsame, habsent]
        simp [addStored, setMmaps, setProc, modify_apply, hclear, hstored]
      · obtain ⟨haligned, hlow⟩ := le_toNat_pgRoundDown hbase
        have hle := faultSize_le ((s.procs p).mmaps e)
        obtain ⟨r, u, hserve, hdirs, _, hdir, hkilled⟩ := handlePageFault_ok hentry hclear hrun
        have hstored := mmapStoreData_stored haligned hlow htabled (count_le_of_toNat_le hle)
          ((s.procs p).mmaps e).flags ((s.procs p).mmaps e).protection ((s.procs p).mmaps e).f
          (faultOffset ((s.procs p).mmaps e) addr) s rfl
        rw [serve] at hserve
        rw [hserve] at hstored
        have hprogress : (t.procs p).killed = true ∨ present t p addr = true := by
          rcases hstored with ⟨frame, hinstalled⟩ | ⟨_, hnegative | ⟨hcount, _⟩⟩
          · right
            rw [present, hdir, hdirs, hinstalled.procs, ← vpn_pgRoundDown, hinstalled.entry]
            exact has_pteP_or _
          · left
            rw [hkilled, hnegative, Bool.true_or]
          · exact absurd (BitVec.eq_of_toNat_eq (by
              rw [count_eq_toNat (by omega)] at hcount
              simpa using hcount)) hsize
        refine ⟨fun _ ↦ Or.inr (Or.inr ?_), fun _ ↦ hprogress⟩
        rintro i hi hequal
        cases hi
        exact hsize ((faultSize_eq_zero _).mpr hequal)
    · rw [handlePageFault_stale hentry hclear] at hrun
      cases hrun
      exact ⟨fun _ ↦ Or.inr (Or.inl hclear), fun _ ↦ Or.inl (by simp)⟩

/-- A page that is touched for the first time. -/
theorem handlePageFault_progress_iff_first :
    ∃ s t, Runs.run Machine.step [.mmap 0 anonymousPage] (idle 0 10) = some s ∧
      handlePageFault 0 mmapBase s = (.ok (), t) ∧
      ((t.procs 0).killed = true ∨ present t 0 mmapBase = true) := by
  obtain ⟨s, hs, hok, habsent, hentry, hstored⟩ :
      ∃ s ∈ Runs.run Machine.step [.mmap 0 anonymousPage] (idle 0 10),
        (handlePageFault 0 mmapBase s).1 = .ok () ∧ present s 0 mmapBase = false ∧
        faultEntry (s.procs 0).mmaps mmapBase = some 0 ∧
        ((s.procs 0).mmaps 0).storedSize ≠ ((s.procs 0).mmaps 0).size := by
    decide +kernel
  have hfault : handlePageFault 0 mmapBase s = (.ok (), (handlePageFault 0 mmapBase s).2) := by
    rw [← hok]
  refine ⟨s, _, hs, hfault, ?_⟩
  refine (handlePageFault_progress_iff (boot (by decide)) (Runs.reaches_of_run hs)
    (by decide) habsent hfault).mpr (Or.inr (Or.inr fun i hi ↦ ?_))
  obtain rfl : 0 = i := Option.mem_unique hentry hi
  exact hstored

/-- One page has been mapped and touched.  A fault right after it finds nothing left to store: nothing
is mapped and the process goes on. -/
theorem handlePageFault_no_progress :
    (Runs.run Machine.step [.mmap 0 anonymousPage, .load 0 mmapBase] (idle 0 10)).map (fun s ↦
      let addr := mmapBase + pgSize
      let t := (handlePageFault 0 addr s).2
      (present s 0 addr, (handlePageFault 0 addr s).1.toBool, (t.procs 0).killed,
        present t 0 addr)) = some (false, true, false, false) := by
  decide +kernel

end Xv6Mmap
