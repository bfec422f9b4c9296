import Xv6Mmap.Machine.Reaping
import Xv6Mmap.Machine.Ledger

/-!
# What one operation does to the frames that processes map

Below `MMAPBASE` a frame stays with its process until it is freed.  Above, a frame that a process maps
belongs to one of its live regions, and an operation leaves it mapped, frees it, or takes it from a
process while another one maps it.  Each operation has its own condition for this: a fault must not
fall on the page behind a region, `my_munmap` must visit the pages of the region that it drops, and
what `delete_mmaps` leaves alone must be mapped by another process.
-/

namespace Xv6Mmap

open Function Library Prog Kernel RegionTable Proc List

variable {N : ℕ} {v : Vpn} {q : Fin N}

namespace Machine

variable {s t u : Machine N} {p q : Fin N}

/-- A process that is not dead. -/
def Alive (s : Machine N) (q : Fin N) : Prop :=
  (s.procs q).state ≠ .unused ∧ (s.procs q).state ≠ .zombie

/-- The pages that process `q` maps above `MMAPBASE` belong to its live regions. -/
def Covered (s : Machine N) (q : Fin N) : Prop :=
  ∀ v f, mmapVpn ≤ v → f ≠ 0 → MapsFrame s q v f → (s.procs q).mmaps.Covers v

/-- What a step does to the frames that processes map: below `MMAPBASE` a frame stays with its process
or becomes free; above, it becomes free or a process that is not dead maps it. -/
structure Carries (s t : Machine N) : Prop where
  low : ∀ q v f, (s.procs q).state ≠ .unused → v < mmapVpn → f ≠ 0 → MapsFrame s q v f →
    f ∈ t.freelist ∨ ((t.procs q).state ≠ .unused ∧ MapsFrame t q v f)
  high : ∀ q v f, s.Alive q → mmapVpn ≤ v → f ≠ 0 → MapsFrame s q v f →
    f ∈ t.freelist ∨ ∃ r, t.Alive r ∧ MapsFrame t r v f
  covered : ∀ q, (t.procs q).state = .runnable → t.Covered q

theorem alive_of_runnable (h : (s.procs p).state = .runnable) : s.Alive p := by
  rw [Alive, h]
  decide

theorem mapsFrame_congr (hpgdir : (t.procs q).pgdir = (s.procs q).pgdir)
    (hpte : (t.pgdirs (s.procs q).pgdir).pte v = (s.pgdirs (s.procs q).pgdir).pte v) (f : Word) :
    MapsFrame t q v f ↔ MapsFrame s q v f := by
  rw [MapsFrame, MapsFrame, hpgdir, hpte]

theorem Covered.of_live (h : s.Covered q) (hmaps : ∀ v f, MapsFrame t q v f → MapsFrame s q v f)
    (hlive : (t.procs q).mmaps.live = (s.procs q).mmaps.live) : t.Covered q := by
  intro v f hv hf hmapped
  rw [covers_congr hlive]
  exact h v f hv hf (hmaps v f hmapped)

/-- Putting a process to sleep changes no page table. -/
theorem mapsFrame_asleep (p q : Fin N) (v : Vpn) (f : Word) :
    MapsFrame (t.asleep p) q v f ↔ MapsFrame t q v f := by
  apply mapsFrame_congr
  · by_cases hq : q = p
    · subst hq
      simp only [asleep, update_self]
    · simp only [asleep, update_of_ne hq]
  · rfl

theorem alive_asleep (p : Fin N) (h : t.Alive q) : (t.asleep p).Alive q := by
  by_cases hq : q = p
  · subst hq
    simp [Alive, asleep]
  · simpa only [Alive, asleep, update_of_ne hq] using h

theorem runnable_of_asleep (h : ((t.asleep p).procs q).state = .runnable) :
    q ≠ p ∧ (t.procs q).state = .runnable := by
  by_cases hq : q = p
  · subst hq
    simp [asleep] at h
  · simp only [asleep, update_of_ne hq] at h
    exact ⟨hq, h⟩

theorem Covered.asleep (h : t.Covered q) (hq : q ≠ p) : (t.asleep p).Covered q := by
  refine h.of_live (fun v f ↦ (mapsFrame_asleep p q v f).mp) ?_
  simp only [Machine.asleep, update_of_ne hq]

theorem Carries.asleep (h : s.Carries t) (p : Fin N) : s.Carries (t.asleep p) where
  low q v f hq hv hf hmaps := by
    refine (h.low q v f hq hv hf hmaps).imp_right fun hkept ↦ ⟨?_, ?_⟩
    · by_cases hqp : q = p
      · subst hqp
        simp [Machine.asleep]
      · simp only [Machine.asleep, update_of_ne hqp]
        exact hkept.1
    · exact (mapsFrame_asleep p q v f).mpr hkept.2
  high q v f hq hv hf hmaps := by
    refine (h.high q v f hq hv hf hmaps).imp_right ?_
    rintro ⟨r, hr, hmapped⟩
    exact ⟨r, alive_asleep p hr, (mapsFrame_asleep p r v f).mpr hmapped⟩
  covered q hq := by
    obtain ⟨hne, hrunnable⟩ := runnable_of_asleep hq
    exact (h.covered q hrunnable).asleep hne

/-- All processes keep their states and their pages. -/
theorem Carries.of_kept (hstate : ∀ q, (s.procs q).state ≠ .unused →
      (t.procs q).state = (s.procs q).state)
    (hmaps : ∀ q, (s.procs q).state ≠ .unused → ∀ v f, MapsFrame s q v f → MapsFrame t q v f)
    (hcovered : ∀ q, (t.procs q).state = .runnable → t.Covered q) : s.Carries t where
  low q v f hq _ _ hmapped := .inr ⟨hstate q hq ▸ hq, hmaps q hq v f hmapped⟩
  high q v f hq _ _ hmapped := by
    refine .inr ⟨q, ?_, hmaps q hq.1 v f hmapped⟩
    rw [Alive, hstate q hq.1]
    exact hq
  covered := hcovered

end Machine

namespace Kernel

open Machine

variable {s t : Machine N} {p : Fin N} {addr : Word} {table : RegionTable}

/-! ## Loads and stores -/

/-- The condition on a load or store: if the page is absent and the handler finds an entry for the
address, the page belongs to a live region. -/
def FaultReturns (p : Fin N) (addr : Word) (s : Machine N) : Prop :=
  present s p addr = false → ∀ i, faultEntry (s.procs p).mmaps addr = some i →
    (s.procs p).mmaps.Covers (vpn addr)

/-- The pages of the live regions of `p`, in its directory. -/
def ownPages (s : Machine N) (p : Fin N) (d : Word) (v : Vpn) : Prop :=
  d = (s.procs p).pgdir ∧ (s.procs p).mmaps.Covers v

theorem Carries.of_growing (h : FrameSafe s) (hp : (s.procs p).state = .runnable)
    (hcovered : ∀ q, (s.procs q).state = .runnable → s.Covered q)
    (hgrowing : Growing (ownPages s p) s t) : s.Carries t := by
  obtain ⟨hextended, hrel⟩ := hgrowing
  have hpgdir (q : Fin N) := pgdir_of_procFrame hrel q
  have hstate (q : Fin N) := state_of_procFrame hrel q
  have hlive (q : Fin N) : (t.procs q).mmaps.live = (s.procs q).mmaps.live :=
    (live_congr fun i ↦ region_of_procFrame hrel q i).2
  refine .of_kept (fun q _ ↦ hstate q) (fun q _ v f hmaps ↦ ?_) ?_
  · exact (mapsFrame_congr (hpgdir q) (hextended.kept _ v hmaps.1) f).mpr hmaps
  · intro q hq v f hv hf hmaps
    rw [hstate] at hq
    rw [covers_congr (hlive q)]
    by_cases hown : ownPages s p (s.procs q).pgdir v
    · have hqp : q = p := h.separate q p (live_of_runnable hq) (live_of_runnable hp) hown.1
      rw [hqp]
      exact hown.2
    · exact hcovered q hq v f hv hf
        ((mapsFrame_congr (hpgdir q) (hextended.fresh _ v hown) f).mp hmaps)

theorem pageFault_growing (htabled : ∀ d, (s.pgdirs d).Tabled) (hreturns : FaultReturns p addr s) :
    Triple (· = s) (pageFault p addr) (fun _ ↦ Growing (ownPages s p) s)
      fun _ ↦ Growing (ownPages s p) s := by
  have hframe := pagingFrame_procFrame p
  have hgrown {t : Machine N} (hfaulted : Faulted s p addr t) (ht : ∀ d, (t.pgdirs d).Tabled)
      (hrel : procFrame.rel s t) : Growing (ownPages s p) s t := by
    refine ⟨?_, hrel⟩
    rcases hfaulted with hsame | ⟨i, frame, u, hfound, hinstalled, hdirs, hrest⟩
    · exact .of_same ht hsame
    · have habsent := hinstalled.absent
      rw [vpn_pgRoundDown] at habsent
      have hfault : Faulted s p addr t := .inr ⟨i, frame, u, hfound, hinstalled, hdirs, hrest⟩
      exact hfault.extended ht ⟨rfl, hreturns habsent i hfound⟩
  rw [pageFault]
  split
  · rename_i harea
    have hbase : mmapBase ≤ addr := by
      rw [isMmapAddr, Bool.and_eq_true] at harea
      exact of_decide_eq_true harea.1
    have hfault := Triple.tabled htabled
      (fun d ↦ respects_handlePageFault ((systemFrame_tabled d).paging p) addr)
      (handlePageFault_faulted hbase (htabled _))
    have hrel := Triple.of_frame (respects_handlePageFault hframe addr) s
    exact (hfault.both hrel).post
      (fun _ u hu ↦ hgrown hu.1.1 hu.1.2 hu.2) fun _ u hu ↦ hgrown hu.1.1 hu.1.2 hu.2
  · refine .modify_at ?_
    exact ⟨.of_same htabled fun _ _ ↦ rfl, hframe.killed s⟩

/-- The outcome of an operation of `p` for the frames that processes map. -/
def CarriesOn (s : Machine N) (p : Fin N) (e : Halt) (t : Machine N) : Prop :=
  e.sleeps = true → s.Carries (t.asleep p)

/-- What holds in every state of a run. -/
structure Returnable (s : Machine N) : Prop where
  safe : FrameSafe s
  tabled : ∀ d, (s.pgdirs d).Tabled
  covered : ∀ q, (s.procs q).state = .runnable → s.Covered q

section

variable (h : Returnable s)
include h

theorem Returnable.carries_self : s.Carries s :=
  .of_kept (fun _ _ ↦ rfl) (fun _ _ _ _ ↦ id) h.covered

theorem Returnable.apart (hp : (s.procs p).state ≠ .unused)
    (hq : q ≠ p) (hlive : (s.procs q).state ≠ .unused) :
    (s.procs q).pgdir ≠ (s.procs p).pgdir :=
  fun hequal ↦ hq (h.safe.separate q p hlive hp hequal)

/-- One slot changes; the others keep their states, their regions and their pages. -/
theorem Returnable.carries_of_slot (p : Fin N)
    (hstate : ∀ q, q ≠ p → (t.procs q).state = (s.procs q).state)
    (hlive : ∀ q, q ≠ p → (t.procs q).mmaps.live = (s.procs q).mmaps.live)
    (hmaps : ∀ q, q ≠ p → (s.procs q).state ≠ .unused →
      ∀ v f, MapsFrame t q v f ↔ MapsFrame s q v f) (hlow : ∀ v f, v < mmapVpn → MapsFrame s p v f →
      f ∈ t.freelist ∨ ((t.procs p).state ≠ .unused ∧ MapsFrame t p v f))
    (hhigh : s.Alive p → ∀ v f, mmapVpn ≤ v → f ≠ 0 → MapsFrame s p v f → f ∈ t.freelist ∨
      (t.Alive p ∧ MapsFrame t p v f) ∨ ∃ r, r ≠ p ∧ s.Alive r ∧ MapsFrame s r v f)
    (hself : (t.procs p).state = .runnable → t.Covered p) : s.Carries t := by
  have halive {q : Fin N} (hq : q ≠ p) (h : s.Alive q) : t.Alive q := by
    rw [Alive, hstate q hq]
    exact h
  refine ⟨fun q v f hq hv _ hmapped ↦ ?_, fun q v f hq hv hf hmapped ↦ ?_, fun q hq ↦ ?_⟩
  · by_cases hqp : q = p
    · subst hqp
      exact hlow v f hv hmapped
    · exact .inr ⟨hstate q hqp ▸ hq, (hmaps q hqp hq v f).mpr hmapped⟩
  · by_cases hqp : q = p
    · subst hqp
      refine (hhigh hq v f hv hf hmapped).imp_right ?_
      rintro (hkept | ⟨r, hr, hlive', hother⟩)
      · exact ⟨q, hkept⟩
      · exact ⟨r, halive hr hlive', (hmaps r hr hlive'.1 v f).mpr hother⟩
    · exact .inr ⟨q, halive hqp hq, (hmaps q hqp hq.1 v f).mpr hmapped⟩
  · by_cases hqp : q = p
    · subst hqp
      exact hself hq
    · rw [hstate q hqp] at hq
      exact (h.covered q hq).of_live (fun v f ↦ (hmaps q hqp (live_of_runnable hq) v f).mp)
        (hlive q hqp)

theorem Returnable.of_growing (hp : (s.procs p).state = .runnable) {α : Type}
    {c : Kernel N α} (hc : Triple (· = s) c (fun _ ↦ Growing (ownPages s p) s)
      fun _ ↦ Growing (ownPages s p) s) :
    Triple (· = s) c (fun _ ↦ s.Carries) (CarriesOn s p) :=
  hc.post (fun _ _ ht ↦ Carries.of_growing h.safe hp h.covered ht)
    fun _ _ ht _ ↦ (Carries.of_growing h.safe hp h.covered ht).asleep p

theorem load_carries (hp : (s.procs p).state = .runnable) (hreturns : FaultReturns p addr s) :
    Triple (· = s) (load p addr) (fun _ ↦ s.Carries) (CarriesOn s p) := by
  apply h.of_growing hp
  refine .get_at ?_
  split
  · refine .pure_at ?_
    exact ⟨.refl h.tabled, procFrame.refl s⟩
  · exact pageFault_growing h.tabled hreturns

theorem store_carries (hp : (s.procs p).state = .runnable)
    (b : Byte) (hreturns : FaultReturns p addr s) :
    Triple (· = s) (store p addr b) (fun _ ↦ s.Carries) (CarriesOn s p) := by
  apply h.of_growing hp
  refine .get_at ?_
  split
  · refine .modify_at ?_
    exact ⟨.of_same h.tabled fun _ _ ↦ rfl, ioFrame_procFrame.mem s _⟩
  · exact pageFault_growing h.tabled hreturns

end

/-! ## `mmap` and `munmap` -/

theorem setTable_self (t : Machine N) (p : Fin N) (table : RegionTable) :
    (t.setTable p table).procs p = { t.procs p with mmaps := table } := by
  simp only [setTable, update_self]

theorem setTable_of_ne (t : Machine N) {p : Fin N} (table : RegionTable) (h : q ≠ p) :
    (t.setTable p table).procs q = t.procs q := by
  simp only [setTable, update_of_ne h]

theorem state_setTable (t : Machine N) (p : Fin N) (table : RegionTable) (q : Fin N) :
    ((t.setTable p table).procs q).state = (t.procs q).state := by
  by_cases hq : q = p
  · rw [hq, setTable_self]
  · rw [setTable_of_ne t table hq]

theorem mapsFrame_setTable (t : Machine N) (p : Fin N) (table : RegionTable) (q : Fin N) (v : Vpn)
    (f : Word) : MapsFrame (t.setTable p table) q v f ↔ MapsFrame t q v f := by
  apply mapsFrame_congr
  · by_cases hq : q = p
    · rw [hq, setTable_self]
    · rw [setTable_of_ne t table hq]
  · rfl

/-- The regions of a table stay live when another one is mapped. -/
theorem covers_myMmap {a : MmapArgs} (hwell : table.WellFormed)
    (hadmissible : a.valid = true → table.total < 30 → a.Admissible table)
    (h : table.Covers v) : (table.myMmap a).1.Covers v := by
  obtain ⟨r, hr, hpage⟩ := h
  refine ⟨r, ?_, hpage⟩
  rcases myMmap_cases hwell hadmissible with
    hfail | ⟨t', va, k, hrun, _, hroom, hfits, hinserted⟩
  · rw [hfail]
    exact hr
  · rw [hrun, hinserted.live_eq hwell.total_nonneg hroom hfits.index_le, mem_append,
      mem_cons]
    rw [← take_append_drop k table.live, mem_append] at hr
    exact hr.imp_right .inr

theorem myMmap_carries (h : Returnable s) (hp : (s.procs p).state = .runnable) {call : MmapCall}
    (hsafe : MmapSafe p call s) :
    Triple (· = s) (myMmap p call) (fun _ ↦ s.Carries) (CarriesOn s p) := by
  rintro t rfl
  rw [myMmap_apply]
  change t.Carries (t.setTable p ((t.procs p).mmaps.myMmap (call.args (t.files call.f))).1)
  refine .of_kept (fun q _ ↦ state_setTable t p _ q)
    (fun q _ v f ↦ (mapsFrame_setTable t p _ q v f).mpr) ?_
  intro q hq v f hv hf hmaps
  rw [state_setTable] at hq
  rw [mapsFrame_setTable] at hmaps
  have hcovers := h.covered q hq v f hv hf hmaps
  by_cases hqp : q = p
  · subst hqp
    rw [setTable_self]
    exact covers_myMmap (h.safe.fit q hp).1.1 (fun hvalid hroom ↦ (hsafe hvalid hroom).1) hcovers
  · rw [setTable_of_ne t _ hqp]
    exact hcovers

/-- The condition on `my_munmap(p, addr, size)`: the freeing loop visits every page of the entry found
that may be present and that does not stay in a live region. -/
def MunmapReturns (p : Fin N) (addr size : Word) (s : Machine N) : Prop :=
  let t := (s.procs p).mmaps
  ∀ i, t.findEntry (pgRoundUp addr) = some i → (t i).size ≠ 0 → ∀ k < (t i).region.pageCount,
    (((s.pgdirs (s.procs p).pgdir).pte ((t i).region.page k)).has pteP = true ∨
      MmapRegion.writesBack (t i) = true) →
    (t i).region.page k ∈ pagesFrom addr (unmapCount (t i).size (pgRoundUp size)) ∨
      (t.dropEntry i (pgRoundUp size)).Covers ((t i).region.page k)

theorem live_dropEntry_congr {table' : RegionTable}
    (hregion : ∀ i : ℕ, (table' i).region = (table i).region) (hwell : table.WellFormed) {i : ℕ}
    (hi : i < table.total.toNat) (size : Word) :
    (table'.dropEntry i size).live = (table.dropEntry i size).live := by
  obtain ⟨htotal, hlive⟩ := live_congr hregion
  have haddr : (table' i).virtAddr = (table i).virtAddr := congrArg Region.virtAddr (hregion i)
  rw [dropEntry_live (wellFormed_congr hregion hwell).1 (htotal ▸ hi),
    dropEntry_live hwell hi, hlive, haddr]

/-- The other regions stay live when one is unmapped. -/
theorem covers_dropEntry (hwell : table.WellFormed) {i : ℕ}
    (hi : i < table.total.toNat) (size : Word) (h : table.Covers v) :
    (table.dropEntry i size).Covers v ∨
      ∃ k < (table i).region.pageCount, (table i).region.page k = v := by
  obtain ⟨r, hr, k, hk, hpage⟩ := h
  obtain ⟨j, hj, rfl⟩ := mem_map.mp hr
  rw [mem_range] at hj
  by_cases hij : j = i
  · subst hij
    exact .inr ⟨k, hk, hpage⟩
  · refine .inl ⟨(table j).region, ?_, k, hk, hpage⟩
    rw [dropEntry_live hwell hi, mem_filterMap]
    refine ⟨(table j).region, hr, Region.unmap_of_ne size ?_⟩
    exact fun hequal ↦ hij (hwell.virtAddr_injective hj hi hequal)

theorem myMunmap_carries (h : Returnable s) (hp : (s.procs p).state = .runnable)
    {size : Word} (hsafe : MunmapSafe p addr size s) (hreturns : MunmapReturns p addr size s) :
    Triple (· = s) (myMunmap p addr size) (fun _ ↦ s.Carries) (CarriesOn s p) := by
  have hwell := (h.safe.fit p hp).1.1
  have hlive (i : ℕ) (hfound : (s.procs p).mmaps.findEntry (pgRoundUp addr) = some i)
      (hsize : ((s.procs p).mmaps i).size ≠ 0) := (hsafe i hfound hsize).1
  have hown (d : Word) (v : Vpn) : munmapPages s p addr d v → ownPages s p d v := by
    rintro ⟨hd, j, hj, _, _, k, hk, hpage⟩
    exact ⟨hd, _, mem_map.mpr ⟨j, mem_range.mpr hj, rfl⟩, k, hk, hpage⟩
  have hfails {t : Machine N} (ht : Growing (munmapPages s p addr) s t) : s.Carries t :=
    Carries.of_growing h.safe hp h.covered ⟨ht.1.mono hown, ht.2⟩
  refine (myMunmap_unmapped hwell hlive h.tabled).post ?_ fun _ t ht hstuck ↦
    (hfails (ht hstuck)).asleep p
  rintro _ t (ht | ⟨i, u, w, hfound, hi, ⟨hextended, hrel⟩, hfreed, hprocs, rfl⟩)
  · exact hfails ht
  have hpgdir (q : Fin N) : (w.procs q).pgdir = (s.procs q).pgdir := by
    rw [hprocs]
    exact pgdir_of_procFrame hrel q
  have hstate (q : Fin N) : (w.procs q).state = (s.procs q).state := by
    rw [hprocs]
    exact state_of_procFrame hrel q
  have hregion (q : Fin N) (k : ℕ) : ((w.procs q).mmaps k).region = ((s.procs q).mmaps k).region := by
    rw [hprocs]
    exact region_of_procFrame hrel q k
  have hself (table : RegionTable) (v : Vpn) (f : Word) (hmaps : MapsFrame s p v f) :
      f ∈ w.freelist ∨ MapsFrame (w.setTable p table) p v f := by
    rw [mapsFrame_setTable]
    have hkept := hextended.kept _ v hmaps.1
    rcases hfreed.pte_cases v with hsame | ⟨_, _, hfree⟩
    · exact .inr ((mapsFrame_congr (hpgdir p) (hsame.trans hkept) f).mpr hmaps)
    · rw [hkept, hmaps.2] at hfree
      exact .inl hfree
  refine h.carries_of_slot p (fun q _ ↦ ?_) (fun q hq ↦ ?_) (fun q hq hlive v f ↦ ?_) ?_ ?_ ?_
  · rw [state_setTable, hstate]
  · rw [setTable_of_ne w _ hq, (live_congr (hregion q)).2]
  · rw [mapsFrame_setTable]
    have hdir := h.apart (live_of_runnable hp) hq hlive
    have hold : (u.pgdirs (s.procs q).pgdir).pte v = (s.pgdirs (s.procs q).pgdir).pte v :=
      hextended.fresh _ v fun hpages ↦ hdir hpages.1
    exact mapsFrame_congr (hpgdir q) ((hfreed.others _ v (.inl hdir)).trans hold) f
  · intro v f _ hmaps
    refine (hself _ v f hmaps).imp_right fun hkept ↦ ⟨?_, hkept⟩
    rw [state_setTable, hstate]
    exact live_of_runnable hp
  · intro halive v f _ _ hmaps
    refine (hself _ v f hmaps).imp_right fun hkept ↦ .inl ⟨?_, hkept⟩
    rw [Alive, state_setTable, hstate]
    exact halive
  · intro _ v f hv hf hmaps
    rw [mapsFrame_setTable] at hmaps
    rw [setTable_self]
    rw [MapsFrame, hpgdir] at hmaps
    have hout : v ∉ pagesFrom addr (unmapCount ((s.procs p).mmaps i).size (pgRoundUp size)) :=
      hfreed.notMem_of_present hmaps.1 (hmaps.2.trans_ne hf)
    have hbefore : MapsFrame u p v f := by
      rw [hfreed.others _ v (.inr hout)] at hmaps
      rw [MapsFrame, pgdir_of_procFrame hrel]
      exact hmaps
    have hsize : ((s.procs p).mmaps i).size ≠ 0 := (hwell.placed_at hi).size_ne_zero
    have hentry (k : ℕ) (hk : k < ((s.procs p).mmaps i).region.pageCount)
        (hpage : ((s.procs p).mmaps i).region.page k = v)
        (hpresent : ((s.pgdirs (s.procs p).pgdir).pte v).has pteP = true ∨
          MmapRegion.writesBack ((s.procs p).mmaps i) = true) :
        ((s.procs p).mmaps.dropEntry i (pgRoundUp size)).Covers v := by
      have hvisited := hreturns i hfound hsize k hk (hpage.symm ▸ hpresent)
      rw [hpage] at hvisited
      exact hvisited.resolve_left hout
    rw [covers_congr (live_dropEntry_congr (hregion p) hwell hi _)]
    by_cases hnew : munmapPages s p addr (s.procs p).pgdir v
    · obtain ⟨_, j, _, hfound', hback, k, hk, hpage⟩ := hnew
      obtain rfl : i = j := Option.mem_unique hfound hfound'
      exact hentry k hk hpage (.inr hback)
    · have hmapped : MapsFrame s p v f :=
        (mapsFrame_congr (pgdir_of_procFrame hrel p) (hextended.fresh _ v hnew) f).mp hbefore
      rcases covers_dropEntry hwell hi (pgRoundUp size) (h.covered p hp v f hv hf hmapped) with
        hcovers | ⟨k, hk, hpage⟩
      · exact hcovers
      · exact hentry k hk hpage (.inl hmapped.1)

/-! ## `exit`, `exec` and `wait` -/

/-- The condition on `delete_mmaps(p)`: what has to be written back goes through, and what is mapped in
a region that is left alone is mapped by another process that is not dead. -/
def DeleteReturns (p : Fin N) (s : Machine N) : Prop :=
  WritesOut s p ∧ ∀ i < (s.procs p).mmaps.total.toNat, ¬ Uncounted (s.procs p).mmaps i →
    ∀ v ∈ entryPages ((s.procs p).mmaps i), ∀ f, f ≠ 0 → MapsFrame s p v f →
      ∃ r, r ≠ p ∧ s.Alive r ∧ MapsFrame s r v f

/-- A frame above `MMAPBASE` is freed by `delete_mmaps` or mapped by another process. -/
theorem DeleteReturns.released (hreturns : DeleteReturns p s) (h : Returnable s)
    (hp : (s.procs p).state = .runnable) {m : ℕ} (hm : m ≤ (s.procs p).mmaps.total.toNat)
    (hstop : StopsAt (s.procs p).mmaps m) {f : Word} (hv : mmapVpn ≤ v) (hf : f ≠ 0)
    (hmaps : MapsFrame s p v f) :
    v ∈ pagesAbove (s.procs p).mmaps m ∨ ∃ r, r ≠ p ∧ s.Alive r ∧ MapsFrame s r v f := by
  obtain ⟨r, hr, k, hk, hpage⟩ := h.covered p hp v f hv hf hmaps
  obtain ⟨i, hi, rfl⟩ := mem_map.mp hr
  rw [mem_range] at hi
  have hplaced := (h.safe.fit p hp).1.1.placed_at hi
  have hin : v ∈ entryPages ((s.procs p).mmaps i) := (mem_entryPages hplaced).mpr ⟨k, hk, hpage⟩
  by_cases huncounted : Uncounted (s.procs p).mmaps i
  · exact .inl ⟨i, hstop.le hm huncounted, hi, hin⟩
  · exact .inr (hreturns.2 i hi huncounted v hin f hf hmaps)

section Emptied

variable {m : ℕ} (h : Emptied s p m t)
include h

/-- Other directories are as they were. -/
theorem Emptied.maps_other (hdir : (s.procs q).pgdir ≠ (s.procs p).pgdir) (v : Vpn)
    (f : Word) : MapsFrame t q v f ↔ MapsFrame s q v f :=
  mapsFrame_congr (h.pgdir q) (h.freed.others _ v (.inl hdir)) f

theorem Emptied.maps_self {f : Word} (hmaps : MapsFrame s p v f) :
    f ∈ t.freelist ∨ MapsFrame t p v f := by
  rcases h.freed.pte_cases v with hsame | ⟨_, _, hfree⟩
  · exact .inr ((mapsFrame_congr (h.pgdir p) hsame f).mpr hmaps)
  · rw [hmaps.2] at hfree
    exact .inl hfree

end Emptied

/-- A call that is stuck after it has freed pages of `p`: the process sleeps and keeps the others. -/
theorem Carries.of_stuck (h : Returnable s)
    (hstate : ∀ q, q ≠ p → (t.procs q).state = (s.procs q).state)
    (hothers : ∀ q, q ≠ p → (s.procs q).state ≠ .unused →
      ∀ v f, MapsFrame t q v f ↔ MapsFrame s q v f)
    (hself : ∀ v f, MapsFrame s p v f → f ∈ t.freelist ∨ MapsFrame t p v f)
    (hslots : ∀ q, q ≠ p → (t.procs q).mmaps.live = (s.procs q).mmaps.live) :
    s.Carries (t.asleep p) := by
  have hsleeps : (t.asleep p).Alive p := by simp [Alive, Machine.asleep]
  refine h.carries_of_slot p (fun q hq ↦ ?_) (fun q hq ↦ ?_) (fun q hq hlive v f ↦ ?_) ?_ ?_ ?_
  · simp only [Machine.asleep, update_of_ne hq]
    exact hstate q hq
  · simp only [Machine.asleep, update_of_ne hq]
    exact hslots q hq
  · exact (mapsFrame_asleep p q v f).trans (hothers q hq hlive v f)
  · exact fun v f _ hmaps ↦ (hself v f hmaps).imp_right fun hkept ↦
      ⟨hsleeps.1, (mapsFrame_asleep p p v f).mpr hkept⟩
  · exact fun _ v f _ _ hmaps ↦ (hself v f hmaps).imp_right fun hkept ↦
      .inl ⟨hsleeps, (mapsFrame_asleep p p v f).mpr hkept⟩
  · exact fun hrunnable ↦ absurd rfl (runnable_of_asleep hrunnable).1

theorem exit_carries (h : Returnable s) (hp : (s.procs p).state = .runnable)
    (hreturns : DeleteReturns p s) :
    Triple (· = s) (exit p) (fun _ ↦ s.Carries) (CarriesOn s p) := by
  have hlive := live_of_runnable hp
  have hemptied := exit_emptied (h.safe.fit p hp).1.1 (h.tabled _) hreturns.1
  refine (hemptied.both (exit_slots s p)).post ?_ ?_
  · rintro _ t ⟨⟨hzombie, m, ht, hstop⟩, hslots, _⟩
    have hmaps (q : Fin N) (hq : q ≠ p) (hlive' : (s.procs q).state ≠ .unused) (v : Vpn) (f : Word) :=
      ht.maps_other (h.apart hlive hq hlive') v f
    refine h.carries_of_slot p ht.state (fun q hq ↦ live_of_slot (hslots q hq)) hmaps ?_ ?_ ?_
    · intro v f _ hmapped
      refine (ht.maps_self hmapped).imp_right fun hkept ↦ ⟨?_, hkept⟩
      rw [hzombie]
      decide
    · intro _ v f hv hf hmapped
      refine (hreturns.released h hp ht.le_total hstop hv hf hmapped).imp (fun hin ↦ ?_) .inr
      have hfree := ht.freed.freed v hin (by rw [hmapped.2]; exact hf)
      rwa [hmapped.2] at hfree
    · intro hrunnable
      rw [hzombie] at hrunnable
      cases hrunnable
  · rintro e t ⟨ht, hslots⟩ hstuck
    obtain ⟨m, ht⟩ := ht hstuck
    exact Carries.of_stuck h ht.state
      (fun q hq hlive' ↦ ht.maps_other (h.apart hlive hq hlive')) (fun v f ↦ ht.maps_self)
      fun q hq ↦ live_of_slot (hslots q hq)

theorem Returnable.not_free (h : Returnable s) (hq : (s.procs q).state ≠ .unused) :
    (s.procs q).pgdir ∉ s.freelist :=
  h.safe.sound.not_free (o := .dir (s.procs q).pgdir) ⟨mem_liveDirs hq, rfl⟩

theorem mapsFrame_untouched (h : Untouched s t) (hq : (s.procs q).pgdir ∉ s.freelist)
    (v : Vpn) (f : Word) : MapsFrame t q v f ↔ MapsFrame s q v f := by
  apply mapsFrame_congr
  · rw [h.procs]
  · rw [h.dirs _ hq]

theorem exec_carries (h : Returnable s) (hp : (s.procs p).state = .runnable) (image : ExecImage)
    (hreturns : DeleteReturns p s) :
    Triple (· = s) (exec p image) (fun _ ↦ s.Carries) (CarriesOn s p) := by
  have hlive := live_of_runnable hp
  refine (exec_replacing h.safe hp image h.tabled hreturns.1).post ?_ ?_
  · rintro (_ | _) t ht
    · have hmaps (q : Fin N) (hq : (s.procs q).state ≠ .unused) :=
        mapsFrame_untouched ht (h.not_free hq)
      refine .of_kept (fun q _ ↦ by rw [ht.procs]) (fun q hq v f ↦ (hmaps q hq v f).mpr) ?_
      intro q hq
      rw [ht.procs] at hq
      refine (h.covered q hq).of_live (fun v f ↦ (hmaps q (live_of_runnable hq) v f).mp) ?_
      rw [ht.procs]
    · obtain ⟨m, ht⟩ := ht
      have hmaps (q : Fin N) (hq : q ≠ p) (hlive' : (s.procs q).state ≠ .unused) (v : Vpn)
          (f : Word) : MapsFrame t q v f ↔ MapsFrame s q v f := by
        grind [mapsFrame_congr, ht.others, ht.dirs, h.not_free, h.apart]
      refine h.carries_of_slot p (fun q hq ↦ by rw [ht.others q hq])
        (fun q hq ↦ by rw [ht.others q hq]) hmaps ?_ ?_ ?_
      · intro v f hv hmapped
        have hfree := ht.image v hv hmapped.1
        rw [hmapped.2] at hfree
        exact .inl hfree
      · intro _ v f hv hf hmapped
        refine (hreturns.released h hp ht.le_total ht.stops hv hf hmapped).imp (fun hin ↦ ?_) .inr
        have hfree := ht.regions v hin (by rw [hmapped.2]; exact hf)
        rwa [hmapped.2] at hfree
      · intro _ v f hv _ hmapped
        rw [MapsFrame, ht.area v hv, not_has_zero] at hmapped
        cases hmapped.1
  · rintro e t ht hstuck
    obtain ⟨u, m, hu, ht⟩ := ht hstuck
    have hemptied := ht.emptied
    refine Carries.of_stuck h (fun q hq ↦ ?_) (fun q hq hlive' v f ↦ ?_) (fun v f hmaps ↦ ?_)
      fun q hq ↦ ?_
    · rw [ht.others q hq, hu.procs]
    · have hdir : (u.procs q).pgdir ≠ (u.procs p).pgdir := by
        rw [hu.procs]
        exact h.apart hlive hq hlive'
      exact (hemptied.maps_other hdir v f).trans (mapsFrame_untouched hu (h.not_free hlive') v f)
    · exact hemptied.maps_self ((mapsFrame_untouched hu (h.not_free hlive) v f).mpr hmaps)
    · rw [ht.others q hq, hu.procs]

theorem Reaped.maps_other {r : Fin N} (h : Reaped s q t) (hr : r ≠ q)
    (hdir : (s.procs r).pgdir ≠ (s.procs q).pgdir) (v : Vpn) (f : Word) :
    MapsFrame t r v f ↔ MapsFrame s r v f := by
  apply mapsFrame_congr
  · rw [h.others r hr]
  · rw [h.dirs _ hdir]

theorem neverStuck_wait : NeverStuck (wait p : Kernel N (Option (Fin N))) := by
  refine .get_bind fun s ↦ ?_
  cases findZombie s p with
  | none => exact .pure _
  | some q =>
    refine (neverStuck_kfree _).bind fun _ ↦ .bind (.modify _) fun _ ↦ ?_
    exact neverStuck_freevm.bind fun _ ↦ (NeverStuck.modify _).bind_pure _

theorem wait_carries (h : Returnable s) :
    Triple (· = s) (wait p) (fun _ ↦ s.Carries) (CarriesOn s p) := by
  refine (neverStuck_wait.awake (wait_reaped h.safe h.tabled)).post ?_ fun _ _ ↦ id
  rintro (_ | q) t ht
  · cases ht
    exact h.carries_self
  · obtain ⟨hfind, ht⟩ := ht
    have hzombie := findZombie_state hfind
    have hlive : (s.procs q).state ≠ .unused := by
      rw [hzombie]
      decide
    have hmaps (r : Fin N) (hr : r ≠ q) (hlive' : (s.procs r).state ≠ .unused) :=
      ht.maps_other hr (h.apart hlive hr hlive')
    refine h.carries_of_slot q (fun r hr ↦ by rw [ht.others r hr])
      (fun r hr ↦ by rw [ht.others r hr]) hmaps ?_ ?_ ?_
    · intro v f hv hmapped
      have hfree := ht.pages v hv hmapped.1
      rw [hmapped.2] at hfree
      exact .inl hfree
    · exact fun halive ↦ absurd hzombie halive.2
    · intro hrunnable
      rw [ht.state] at hrunnable
      cases hrunnable

/-! ## `fork` -/

/-- What `fork` by `p` does to page tables: in the directories in use it only fills in pages of the
regions of `p`, and so it does in the mapping area of the child. -/
structure ForkGrown (s : Machine N) (p : Fin N) (t : Machine N) : Prop where
  kept : ∀ d, d ∉ s.freelist → ∀ v, ((s.pgdirs d).pte v).has pteP = true →
    (t.pgdirs d).pte v = (s.pgdirs d).pte v
  fresh : ∀ d, d ∉ s.freelist → ∀ v, ¬ ownPages s p d v →
    (t.pgdirs d).pte v = (s.pgdirs d).pte v
  pgdir : ∀ q, (s.procs q).state ≠ .unused → (t.procs q).pgdir = (s.procs q).pgdir
  child : ∀ q, (s.procs q).state = .unused → (t.procs q).state = .runnable → ∀ v, mmapVpn ≤ v →
    ((t.pgdirs (t.procs q).pgdir).pte v).has pteP = true → (s.procs p).mmaps.Covers v

/-- No page table in use has been touched. -/
theorem ForkGrown.of_same (hdirs : ∀ d, d ∉ s.freelist → t.pgdirs d = s.pgdirs d)
    (hpgdir : ∀ q, (s.procs q).state ≠ .unused → (t.procs q).pgdir = (s.procs q).pgdir)
    (hunused : ∀ q, (s.procs q).state = .unused → (t.procs q).state ≠ .runnable) :
    ForkGrown s p t where
  kept d hd v _ := by rw [hdirs d hd]
  fresh d hd v _ := by rw [hdirs d hd]
  pgdir := hpgdir
  child q hq hrunnable := absurd hrunnable (hunused q hq)

/-- The child has its directory `d`, and `copy_maps` has filled in pages of the regions of `p`. -/
structure Spawned (s : Machine N) (p np : Fin N) (d : Word) (t : Machine N) : Prop where
  kept : ∀ d', d' ∉ s.freelist → ∀ v, ((s.pgdirs d').pte v).has pteP = true →
    (t.pgdirs d').pte v = (s.pgdirs d').pte v
  fresh : ∀ d', d' ∉ s.freelist → ∀ v, ¬ ownPages s p d' v →
    (t.pgdirs d').pte v = (s.pgdirs d').pte v
  area : ∀ v, mmapVpn ≤ v → ((t.pgdirs d).pte v).has pteP = true → (s.procs p).mmaps.Covers v
  others : ∀ q, q ≠ np → (t.procs q).pgdir = (s.procs q).pgdir ∧
    (t.procs q).state = (s.procs q).state
  pgdir : (t.procs np).pgdir = d
  state : (t.procs np).state = .embryo

/-- `copy_maps` from a state in which the child has an empty mapping area. -/
theorem Spawned.of_copying {np : Fin N} {d : Word} {u : Machine N} (hd : d ∈ s.freelist)
    (hdirs : ∀ d', d' ∉ s.freelist → t.pgdirs d' = s.pgdirs d')
    (harea : ∀ v, mmapVpn ≤ v → (t.pgdirs d).pte v = 0) (hne : p ≠ np)
    (hothers : ∀ q, q ≠ np → t.procs q = s.procs q) (hpgdir : (t.procs np).pgdir = d)
    (hstate : (t.procs np).state = .embryo) (h : CopyGrowing (regionPages t p np) t np u) :
    Spawned s p np d u where
  kept d' hd' v hpresent := by
    rw [← hdirs d' hd'] at hpresent ⊢
    exact h.1.kept d' v hpresent
  fresh d' hd' v hout := by
    rw [← hdirs d' hd']
    refine h.1.fresh d' v fun hpages ↦ hout ?_
    obtain ⟨hdir, hcovers⟩ := hpages
    rw [hothers p hne] at hdir hcovers
    rw [hpgdir] at hdir
    exact ⟨hdir.resolve_right fun heq ↦ hd' (heq ▸ hd), hcovers⟩
  area v hv hpresent := by
    by_contra hout
    rw [h.1.fresh d v fun hpages ↦ hout (hothers p hne ▸ hpages.2), harea v hv,
      not_has_zero] at hpresent
    cases hpresent
  others q hq := by
    rw [pgdir_of_tableFrame h.2, state_of_tableFrame h.2, hothers q hq]
    exact ⟨rfl, rfl⟩
  pgdir := by rw [pgdir_of_tableFrame h.2, hpgdir]
  state := by rw [state_of_tableFrame h.2, hstate]

/-- Later changes to the process table. -/
theorem Spawned.grown {np : Fin N} {d : Word} {u : Machine N} (h : Spawned s p np d t)
    (hslot : (s.procs np).state = .unused) (hdirs : u.pgdirs = t.pgdirs)
    (hothers : ∀ q, q ≠ np → (u.procs q).pgdir = (t.procs q).pgdir ∧
      (u.procs q).state = (t.procs q).state)
    (hchild : (u.procs np).state = .runnable → (u.procs np).pgdir = (t.procs np).pgdir) :
    ForkGrown s p u where
  kept := hdirs ▸ h.kept
  fresh := hdirs ▸ h.fresh
  pgdir q hq := by
    have hne : q ≠ np := fun heq ↦ hq (heq ▸ hslot)
    rw [(hothers q hne).1, (h.others q hne).1]
  child q hq hrunnable v hv hpresent := by
    by_cases hne : q = np
    · subst hne
      rw [hchild hrunnable, h.pgdir, hdirs] at hpresent
      exact h.area v hv hpresent
    · rw [(hothers q hne).2, (h.others q hne).2, hq] at hrunnable
      cases hrunnable

theorem ForkGrown.of_unclaimed (ht : Unclaimed s t) : ForkGrown s p t := by
  refine .of_same (fun d _ ↦ by rw [ht.rest]) (fun q hq ↦ ?_) fun q hq ↦ ?_
  · rcases ht.procs with hsame | ⟨np, pid, hunused, hslot⟩
    · rw [hsame]
    · rw [hslot, update_of_ne fun heq : q = np ↦ hq (heq ▸ hunused)]
  · rw [state_of_slot (ht.slotsKept q (Set.notMem_empty q)), hq]
    decide

/-- After `copy_maps`: the child has its mappings, or its slot can be given back. -/
def ForkMapped (s : Machine N) (p np : Fin N) (copied : Bool) (u : Machine N) : Prop :=
  (s.procs np).state = .unused ∧
    if copied then ∃ d, Spawned s p np d u
    else ∀ w : Machine N, w.pgdirs = u.pgdirs → (∀ q, q ≠ np → w.procs q = u.procs q) →
      (w.procs np).state = .unused → ForkGrown s p w

/-- `copyuvm` has failed. -/
theorem SpaceCopied.forkMapped {np : Fin N} {sz : Word} {u : Machine N}
    (hu : SpaceCopied s sz np none u) (child : Proc N) :
    ForkMapped s p np false { u with procs := update u.procs np child } := by
  have hslot := findUnused_state hu.slot
  refine ⟨hslot, fun w hwdirs hwothers hwstate ↦ ?_⟩
  have hprocs (q : Fin N) (hq : q ≠ np) : w.procs q = s.procs q := by
    rw [hwothers q hq]
    simp only [update_of_ne hq]
    exact hu.others q hq
  refine .of_same (fun d hd ↦ ?_) (fun q hq ↦ ?_) fun q hq ↦ ?_
  · rw [hwdirs]
    exact hu.dirs d hd
  · rw [hprocs q fun heq ↦ hq (heq ▸ hslot)]
  · by_cases hqn : q = np
    · rw [hqn, hwstate]
      decide
    · rw [hprocs q hqn, hq]
      decide

theorem ForkMapped.abandon {np : Fin N} {w : Machine N} (hw : ForkMapped s p np false w) :
    Triple (· = w) (abandon np) (fun _ ↦ ForkGrown s p)
      fun e t ↦ e.sleeps = true → ForkGrown s p t := by
  refine (abandon_gives np w).post (fun _ t ht ↦ ?_) fun e _ he hsleeps ↦ ?_
  · exact hw.2 t (by rw [ht.rest]) ht.others (by rw [ht.child])
  · subst he
    cases hsleeps

/-- The files are copied, and the child becomes runnable. -/
theorem ForkMapped.dupFiles {np : Fin N} {w : Machine N} (hw : ForkMapped s p np true w) (sz : Word) :
    Triple (fun v ↦ v = { w with
        procs := update w.procs np { w.procs np with sz := sz, parent := some p } })
      (dupFiles p np (finRange nOfile))
      (fun _ x ↦ ForkGrown s p { x with
        procs := update x.procs np { x.procs np with state := .runnable } })
      fun e t ↦ e.sleeps = true → ForkGrown s p t := by
  obtain ⟨hslot, d, hw⟩ := hw
  refine (neverStuck_dupFiles p np _).awake ((Triple.of_frame (respects_dupFiles p np _) _).post
    (fun _ x hx ↦ ?_) fun _ _ ↦ id)
  have hcore (q : Fin N) := core_of_filesFrame hx q
  refine hw.grown hslot ?_ (fun q hq ↦ ?_) fun _ ↦ ?_
  · dsimp only
    rw [eq_of_filesFrame hx]
  · have hq' := hcore q
    simp only [update_of_ne hq] at hq' ⊢
    exact ⟨pgdir_of_core hq', state_of_core hq'⟩
  · have hchild := pgdir_of_core (hcore np)
    simp only [update_self] at hchild ⊢
    exact hchild

section

variable (h : Returnable s) (hp : (s.procs p).state = .runnable)
include h hp

theorem SpaceCopied.copyMaps {np : Fin N} {d : Word} {u : Machine N} (hne : p ≠ np)
    (hu : SpaceCopied s (s.procs p).sz np (some d) u) :
    Triple (fun v ↦ v = { u with
        procs := update u.procs np { u.procs np with pgdir := d } })
      (copyMaps p np) (ForkMapped s p np) fun e t ↦ e.sleeps = true → ForkGrown s p t := by
  have hslot := findUnused_state hu.slot
  obtain ⟨hd, hdirs, htabled, hfilled⟩ := hu.space d rfl
  generalize hw : ({ u with procs := update u.procs np { u.procs np with pgdir := d } }
    : Machine N) = w
  have hwothers (q : Fin N) (hq : q ≠ np) : w.procs q = s.procs q := by
    rw [← hu.others q hq, ← hw]
    exact update_of_ne hq _ _
  have hwchild : (w.procs np).pgdir = d ∧ (w.procs np).state = .embryo := by
    subst hw
    simp only [update_self, hu.state, and_self]
  have hwdirs : w.pgdirs = u.pgdirs := by rw [← hw]
  have hwtabled (d' : Word) : (w.pgdirs d').Tabled := by
    rw [hwdirs]
    by_cases hd' : d' = d
    · exact hd' ▸ htabled
    · exact hdirs d' hd' ▸ h.tabled d'
  have harea (v : Vpn) (hv : mmapVpn ≤ v) : (w.pgdirs d).pte v = 0 := by
    have hsz : (s.procs p).sz.toNat ≤ 0x60000000 := (h.safe.fit p hp).2
    have hmmap : mmapVpn.toNat = 0x60000 := rfl
    rw [BitVec.le_def, hmmap] at hv
    rw [hwdirs]
    refine (hfilled.2 v (.inr ?_)).trans rfl
    unfold pages
    omega
  have hwell : (w.procs p).mmaps.WellFormed := by
    rw [hwothers p hne]
    exact (h.safe.fit p hp).1.1
  have hspawned {v : Machine N} (hv : CopyGrowing (regionPages w p np) w np v) :
      Spawned s p np d v :=
    .of_copying hd (fun d' hout ↦ by rw [hwdirs, hu.dirs d' hout]) harea hne hwothers hwchild.1
      hwchild.2 hv
  refine (keeps_copyMaps_copying hne hwell hwtabled).post (fun copied v hv ↦ ⟨hslot, ?_⟩)
    fun _ v hv _ ↦ (hspawned hv).grown hslot rfl (fun _ _ ↦ ⟨rfl, rfl⟩) fun _ ↦ rfl
  cases copied with
  | true => exact ⟨d, hspawned hv⟩
  | false =>
    intro x hxdirs hxothers hxstate
    refine (hspawned hv).grown hslot hxdirs (fun q hq ↦ ?_) fun hrunnable ↦ ?_
    · rw [hxothers q hq]
      exact ⟨rfl, rfl⟩
    · rw [hxstate] at hrunnable
      cases hrunnable

/-- **What `fork` does to page tables.** -/
theorem fork_grown :
    Triple (· = s) (fork p) (fun _ ↦ ForkGrown s p)
      fun e t ↦ e.sleeps = true → ForkGrown s p t := by
  have hsz := (h.safe.fit p hp).2
  refine fork_rule (C := SpaceCopied s (s.procs p).sz) (M := ForkMapped s p) (live_of_runnable hp)
    (fun _ ↦ .of_unclaimed) ?_ (fun _ _ _ hu ↦ hu.forkMapped _)
    (fun _ _ _ hne ↦ SpaceCopied.copyMaps h hp hne) (fun _ _ ↦ ForkMapped.abandon)
    fun _ _ _ hw ↦ hw.dupFiles _
  intro np t _ ht
  exact (neverStuck_copyuvm _ hsz).awake (ht.copyuvm _ hsz)

theorem Carries.of_forkGrown (hgrown : ForkGrown s p t)
    (hslots : ∀ q, (s.procs q).state ≠ .unused → (t.procs q).slot = (s.procs q).slot)
    (hchild : ∀ q, (s.procs q).state = .unused → (t.procs q).state = .runnable →
      (t.procs q).mmaps.live = (s.procs p).mmaps.live) : s.Carries t := by
  refine .of_kept (fun q hq ↦ state_of_slot (hslots q hq)) (fun q hq v f hmaps ↦ ?_) ?_
  · exact (mapsFrame_congr (hgrown.pgdir q hq)
      (hgrown.kept _ (h.not_free hq) v hmaps.1) f).mpr hmaps
  · intro q hq v f hv hf hmaps
    by_cases hunused : (s.procs q).state = .unused
    · rw [covers_congr (hchild q hunused hq)]
      exact hgrown.child q hunused hq v hv hmaps.1
    · have hrunnable : (s.procs q).state = .runnable := by
        rw [← state_of_slot (hslots q hunused), hq]
      rw [covers_congr (live_of_slot (hslots q hunused))]
      by_cases hown : ownPages s p (s.procs q).pgdir v
      · rw [h.safe.separate q p hunused (live_of_runnable hp) hown.1]
        exact hown.2
      · exact h.covered q hrunnable v f hv hf ((mapsFrame_congr (hgrown.pgdir q hunused)
          (hgrown.fresh _ (h.not_free hunused) v hown) f).mp hmaps)

theorem fork_carries :
    Triple (· = s) (fork p) (fun _ ↦ s.Carries) (CarriesOn s p) := by
  have hkept {t : Machine N} {np : Fin N} (hfind : findUnused s = some np)
      (hslots : s.SlotsKept {np} t) (q : Fin N) (hq : (s.procs q).state ≠ .unused) :
      (t.procs q).slot = (s.procs q).slot :=
    hslots q fun heq : q = np ↦ hq (heq ▸ findUnused_state hfind)
  -- Only the new child can be a process that has become runnable.
  have hothers {t : Machine N} {np : Fin N} (hslots : s.SlotsKept {np} t)
      (hnew : (t.procs np).state = .runnable →
        (t.procs np).mmaps.live = (s.procs p).mmaps.live)
      (q : Fin N) (hq : (s.procs q).state = .unused) (hrunnable : (t.procs q).state = .runnable) :
      (t.procs q).mmaps.live = (s.procs p).mmaps.live := by
    by_cases hqn : q = np
    · subst hqn
      exact hnew hrunnable
    · rw [state_of_slot (hslots q hqn), hq] at hrunnable
      cases hrunnable
  have hle := (h.safe.fit p hp).1.1.total_le
  refine ((fork_grown h hp).both (fork_slots hp hle)).post ?_ ?_
  · rintro (_ | np) t ⟨hgrown, hslots⟩
    · rcases hslots with hslots | ⟨np, ⟨hfind, hslots, hstate⟩, _⟩
      · refine Carries.of_forkGrown h hp hgrown (fun q _ ↦ hslots q (Set.notMem_empty q)) ?_
        intro q hq hrunnable
        rw [state_of_slot (hslots q (Set.notMem_empty q)), hq] at hrunnable
        cases hrunnable
      · grind [Carries.of_forkGrown]
    · obtain ⟨⟨hfind, hslots, _⟩, htable⟩ := hslots
      refine Carries.of_forkGrown h hp hgrown (hkept hfind hslots) (hothers hslots fun _ ↦ ?_)
      rw [htable, inherited, live_inherit _ hle]
  · rintro e t ⟨hgrown, hhalted⟩ hstuck
    obtain ⟨np, ⟨hfind, hslots, hstate⟩, _⟩ := hhalted hstuck
    refine (Carries.of_forkGrown h hp (hgrown hstuck) (hkept hfind hslots)
      (hothers hslots ?_)).asleep p
    intro hrunnable
    rw [hstate] at hrunnable
    cases hrunnable

end

end Kernel

end Xv6Mmap
