import Xv6Mmap.Machine.ForkEntries

/-!
# Page tables that grow

A page fault and the write-back of a region fill in entries of the process's own page table, and
`copy_maps` fills in entries of the child's as well; none of them touches an entry that is present.
`Extended` says so, and where entries may have been filled in.
-/

namespace Xv6Mmap

open Library Prog Function

variable {N : ℕ} {d : Word}

/-- Since `s`, entries have only been filled in, and only where `A` allows it. -/
structure Extended (A : Word → Vpn → Prop) (s t : Machine N) : Prop where
  tabled : ∀ d, (t.pgdirs d).Tabled
  kept : ∀ d v, ((s.pgdirs d).pte v).has pteP = true → (t.pgdirs d).pte v = (s.pgdirs d).pte v
  fresh : ∀ d v, ¬ A d v → (t.pgdirs d).pte v = (s.pgdirs d).pte v

open Extended

namespace Extended

variable {A : Word → Vpn → Prop} {s t u : Machine N}

theorem refl (htabled : ∀ d, (s.pgdirs d).Tabled) : Extended A s s :=
  ⟨htabled, fun _ _ _ ↦ rfl, fun _ _ _ ↦ rfl⟩

theorem trans (hst : Extended A s t) (htu : Extended A t u) : Extended A s u where
  tabled := htu.tabled
  kept d v hpresent := by
    have hfirst := hst.kept d v hpresent
    rw [htu.kept d v (hfirst ▸ hpresent), hfirst]
  fresh d v hout := (htu.fresh d v hout).trans (hst.fresh d v hout)

theorem mono {B : Word → Vpn → Prop} (h : Extended A s t) (hAB : ∀ d v, A d v → B d v) :
    Extended B s t :=
  ⟨h.tabled, h.kept, fun d v hout ↦ h.fresh d v fun hA ↦ hout (hAB d v hA)⟩

/-- Components other than the directories do not matter. -/
theorem congr (h : Extended A s t) (hdirs : u.pgdirs = t.pgdirs) : Extended A s u := by
  obtain ⟨htabled, hkept, hfresh⟩ := h
  rw [← hdirs] at htabled hkept hfresh
  exact ⟨htabled, hkept, hfresh⟩

theorem of_same (htabled : ∀ d, (t.pgdirs d).Tabled)
    (hsame : ∀ d v, (t.pgdirs d).pte v = (s.pgdirs d).pte v) : Extended A s t :=
  ⟨htabled, fun d v _ ↦ hsame d v, fun d v _ ↦ hsame d v⟩

/-- One absent entry has been filled in. -/
theorem of_entry {v : Vpn} (htabled : ∀ d, (t.pgdirs d).Tabled) (hA : A d v)
    (habsent : ((s.pgdirs d).pte v).has pteP = false)
    (hothers : ∀ d' v', d' ≠ d ∨ v' ≠ v → (t.pgdirs d').pte v' = (s.pgdirs d').pte v') :
    Extended A s t := by
  refine ⟨htabled, fun d' v' hpresent ↦ ?_, fun d' v' hout ↦ ?_⟩
  · grind
  · grind

end Extended

/-- Entries have been filled in where `A` allows it, and the processes are as they were up to what
page faults change. -/
def Growing (A : Word → Vpn → Prop) (s t : Machine N) : Prop :=
  Extended A s t ∧ procFrame.rel s t

/-- Page `v` belongs to a live region. -/
def RegionTable.Covers (t : RegionTable) (v : Vpn) : Prop :=
  ∃ r ∈ t.live, ∃ k < r.pageCount, r.page k = v

instance (t : RegionTable) (v : Vpn) : Decidable (t.Covers v) :=
  inferInstanceAs (Decidable (∃ r ∈ t.live, ∃ k < r.pageCount, r.page k = v))

theorem RegionTable.covers_congr {t t' : RegionTable} (h : t'.live = t.live) {v : Vpn} :
    t'.Covers v ↔ t.Covers v := by
  rw [Covers, Covers, h]

namespace Kernel

open Machine

variable {A : Word → Vpn → Prop} {s t : Machine N} {p np : Fin N} {addr start : Word}

/-! ## Page faults and write-back -/

theorem Faulted.extended (h : Faulted s p addr t) (htabled : ∀ d, (t.pgdirs d).Tabled)
    (hA : A (s.procs p).pgdir (vpn addr)) : Extended A s t := by
  rcases h with hsame | ⟨i, frame, u, _, hinstalled, hdirs, _⟩
  · exact of_same htabled hsame
  · have habsent := hinstalled.absent
    have hothers := hinstalled.others
    rw [vpn_pgRoundDown] at habsent hothers
    refine of_entry htabled hA habsent ?_
    rw [hdirs]
    exact hothers

/-- From a known state, `c` ends in one that respects the frame of every page table. -/
theorem Triple.tabled {α : Type} {c : Kernel N α} {Q : α → Machine N → Prop}
    {E : Halt → Machine N → Prop} (htabled : ∀ d, (s.pgdirs d).Tabled)
    (hc : ∀ d, Respects (tabledFrame d) c) (h : Triple (· = s) c Q E) :
    Triple (· = s) c (fun a t ↦ Q a t ∧ ∀ d, (t.pgdirs d).Tabled)
      fun e t ↦ E e t ∧ ∀ d, (t.pgdirs d).Tabled := by
  have hall {outcome : Except Halt α} {u t : Machine N} (hu : u = s) (hrun : c u = (outcome, t))
      (d : Word) : (t.pgdirs d).Tabled :=
    (hc d).of_eq hrun (hu ▸ htabled d)
  exact h.both (.of_runs (fun _ _ _ ↦ hall) fun _ _ _ ↦ hall)

theorem keeps_handlePageFault_growing (hbase : mmapBase ≤ addr)
    (hA : A (s.procs p).pgdir (vpn addr)) : Keeps (Growing A s) (handlePageFault p addr) := by
  have hprocs := respects_handlePageFault (pagingFrame_procFrame p) addr
  refine .of_forall fun t ht ↦ ?_
  have hfault := Triple.tabled ht.1.tabled
    (fun d ↦ respects_handlePageFault ((systemFrame_tabled d).paging p) addr)
    (handlePageFault_faulted hbase (ht.1.tabled _))
  have hrel := Triple.of_frame hprocs t
  have hstep {u : Machine N} (hfaulted : Faulted t p addr u ∧ ∀ d, (u.pgdirs d).Tabled)
      (hu : procFrame.rel t u) : Growing A s u := by
    have hA' : A (t.procs p).pgdir (vpn addr) := by
      rw [pgdir_of_procFrame ht.2]
      exact hA
    exact ⟨ht.1.trans (hfaulted.1.extended hfaulted.2 hA'), procFrame.trans ht.2 hu⟩
  exact (hfault.both hrel).post (fun _ u hu ↦ hstep hu.1 hu.2)
    fun _ u hu ↦ hstep hu.1 hu.2

/-- A page that is present stays present. -/
theorem Growing.present (h : Growing A s t) (hpresent : present s p addr = true) :
    present t p addr = true := by
  rw [Kernel.present] at hpresent ⊢
  rw [pgdir_of_procFrame h.2, h.1.kept _ _ hpresent]
  exact hpresent

theorem keeps_loadKernel_growing
    (hA : Kernel.present s p addr = true ∨ A (s.procs p).pgdir (vpn addr)) :
    Keeps (Growing A s) (loadKernel p addr) := by
  refine keeps_loadKernel_of_fault fun t ht hpresent hbase ↦ ?_
  have hallowed := hA.resolve_left fun hp ↦ hpresent (Growing.present ht hp)
  exact (keeps_handlePageFault_growing hbase hallowed).at_state ht

theorem ioFrame_growing : IoFrame (.ofInvariant (Growing A s)) where
  mem t _ h := ⟨h.1.congr rfl, procFrame.trans h.2 (ioFrame_procFrame.mem t _)⟩
  pagecache t _ hpages h :=
    ⟨h.1.congr rfl, procFrame.trans h.2 (ioFrame_procFrame.pagecache t _ hpages)⟩
  inodes t _ h := ⟨h.1.congr rfl, procFrame.trans h.2 (ioFrame_procFrame.inodes t _)⟩
  held t _ h := ⟨h.1.congr rfl, procFrame.trans h.2 (ioFrame_procFrame.held t _)⟩
  files t _ h := ⟨h.1.congr rfl, procFrame.trans h.2 (ioFrame_procFrame.files t _)⟩

theorem keeps_writeBack_growing {mr : MmapRegion}
    (hA : ∀ j < mr.size.count, Kernel.present s p (mr.virtAddr + BitVec.ofNat 32 j) = true ∨
      A (s.procs p).pgdir (vpn (mr.virtAddr + BitVec.ofNat 32 j))) :
    Keeps (Growing A s) (writeBack p mr) :=
  .of_respects (respects_writeBack_of_region ioFrame_growing.toOffsetFrame mr fun j hj ↦
    (keeps_loadKernel_growing (hA j hj)).respects)

/-! ## `copy_maps` -/

/-- Mapping a page fills in an absent entry. -/
theorem mapPage_extended {va : Word} (pa perm : Word) (hA : A d (vpn va)) :
    Keeps (Extended A s) (mapPage d va pa perm) := by
  refine .of_forall fun t ht ↦ ?_
  have htabled (d' : Word) {u : Machine N} (hwalked : t.walked d va = some u) :
      (u.pgdirs d').Tabled := by
    by_cases hd : d' = d
    · rw [hd]
      exact tabled_of_walked hwalked (ht.tabled d)
    · rw [(grown_of_walked hwalked).others d' hd]
      exact ht.tabled d'
  have hsame {u : Machine N} (hwalked : t.walked d va = some u) :=
    (SameEntries.of_grown (grown_of_walked hwalked) (ht.tabled d)).1
  refine (mapPage_run d va pa perm t).post ?_ ?_
  · intro mapped u hu
    cases mapped with
    | false =>
      obtain ⟨_, rfl⟩ := hu
      exact ht
    | true =>
      obtain ⟨w, hwalked, habsent, rfl⟩ := hu
      refine ht.trans (of_entry ?_ hA (hsame hwalked d _ ▸ habsent) ?_)
      · intro d'
        by_cases hd : d' = d
        · subst hd
          have hset := (htabled d' hwalked).withPte (isSome_of_walked hwalked) (pa ||| perm ||| pteP)
          rw [Machine.setPte]
          simp only [update_self]
          exact hset
        · rw [Machine.setPte]
          simp only [update_of_ne hd]
          exact htabled d' hwalked
      · intro d' v' hne
        rw [pte_setPte_of_ne w _ hne]
        exact hsame hwalked d' v'
  · intro _ u hu
    exact ht.trans (of_same (fun d' ↦ htabled d' hu.1) (hsame hu.1))

/-- Storing a page fills in an absent entry. -/
theorem mmapStoreData_extended {va size : Word} (haligned : va.toNat % 4096 = 0)
    (hlow : 4096 ≤ va.toNat) (hsize : size.count ≤ 4096) (flags perm f offset : Word)
    (htabled : ∀ d, (s.pgdirs d).Tabled) (hA : A (s.procs p).pgdir (vpn va)) :
    Triple (· = s) (mmapStoreData p va size flags perm f offset) (fun _ ↦ Extended A s)
      fun _ ↦ Extended A s := by
  have hstored := Triple.tabled htabled
    (fun d ↦ respects_mmapStoreData ((systemFrame_tabled d).paging p) p va size flags perm f offset)
    (mmapStoreData_stored haligned hlow (htabled _) hsize flags perm f offset)
  refine hstored.post ?_ fun _ t ht ↦ of_same ht.2 ht.1.1
  rintro r t ⟨⟨frame, hinstalled⟩ | ⟨hsame, _⟩, ht⟩
  · exact of_entry ht hA hinstalled.absent hinstalled.others
  · exact of_same ht hsame.1

/-- Entries have been filled in since `s` where `A` allows it, and in the process table only the
region table of `np` has changed up to stored sizes. -/
def CopyGrowing (A : Word → Vpn → Prop) (s : Machine N) (np : Fin N) (t : Machine N) : Prop :=
  Extended A s t ∧ (tableFrame np).rel s t

theorem CopyGrowing.of_procFrame {u : Machine N} (h : CopyGrowing A s np t) (hext : Extended A s u)
    (hrel : procFrame.rel t u) : CopyGrowing A s np u :=
  ⟨hext, (tableFrame np).trans h.2 (tableFrame_of_procFrame hrel np)⟩

theorem keeps_mappages_copying (haligned : start.toNat % 4096 = 0) (pa perm : Word)
    (hA : A d (vpn start)) : Keeps (CopyGrowing A s np) (mappages d start pgSize pa perm) := by
  have hmap := mapPage_extended (s := s) pa perm hA
  have hframe := respects_mapPage (pagingFrame_procFrame np).toMapFrame d start pa perm
  have htable := respects_tableFrame (p := np) hframe
  rw [mappages_page haligned]
  refine .weaken (hmap.carry (C := fun t ↦ (tableFrame np).rel s t) ?_) (fun _ ↦ id)
    (fun _ _ ↦ id) fun _ _ ↦ id
  exact fun t ht ↦ (tableFrame np).trans ht (htable t)

theorem keeps_getPhysicalPage {P : Machine N → Prop} (d va : Word) :
    Keeps P (getPhysicalPage d va) := by
  intro t ht
  rw [getPhysicalPage_apply]
  exact ht

theorem keeps_sharePage_copying (i : ℕ) (haligned : start.toNat % 4096 = 0)
    (hlow : 4096 ≤ start.toNat) (hparent : A (s.procs p).pgdir (vpn start))
    (hchild : A (s.procs np).pgdir (vpn start)) :
    Keeps (CopyGrowing A s np) (sharePage p np i start) := by
  refine .get_bind fun t ht ↦ ?_
  have hparent' : A (t.procs p).pgdir (vpn start) := by
    rw [pgdir_of_tableFrame ht.2]
    exact hparent
  have hchild' : A (t.procs np).pgdir (vpn start) := by
    rw [pgdir_of_tableFrame ht.2]
    exact hchild
  have hmap (pa perm : Word) : Keeps (CopyGrowing A s np)
      (mappages (t.procs np).pgdir start pgSize pa perm) :=
    keeps_mappages_copying haligned pa perm hchild'
  refine .bind ((keeps_getPhysicalPage _ _).at_state ht) fun found ↦ ?_
  dsimp only
  split
  · have hstore (size flags perm f offset : Word) (hsize : size.count ≤ 4096) :
        Keeps (CopyGrowing A s np) (mmapStoreData p start size flags perm f offset) := by
      refine .of_forall fun u hu ↦ ?_
      have hA : A (u.procs p).pgdir (vpn start) := by
        rw [pgdir_of_tableFrame hu.2]
        exact hparent
      have hext := mmapStoreData_extended haligned hlow hsize flags perm f offset hu.1.tabled hA
      have hrel := Triple.of_frame (respects_mmapStoreData (pagingFrame_procFrame p) p start size
        flags perm f offset) u
      exact (hext.both hrel).post
        (fun _ w hw ↦ hu.of_procFrame (hu.1.trans hw.1) hw.2)
        fun _ w hw ↦ hu.of_procFrame (hu.1.trans hw.1) hw.2
    refine .bind (hstore _ _ _ _ _ (count_min_le _)) fun r ↦ ?_
    split
    · exact .pure fun _ ↦ id
    · refine .bind (Q := fun _ ↦ CopyGrowing A s np) (.modify fun u hu ↦ ?_) fun _ ↦ ?_
      · exact hu.of_procFrame (hu.1.congr rfl)
          ((pagingFrame_procFrame p).storedSize u i _)
      · refine .bind (keeps_getPhysicalPage _ _) fun found ↦ ?_
        exact .bind (hmap _ _) fun _ ↦ .pure fun _ ↦ id
  · exact .bind (hmap _ _) fun _ ↦ .pure fun _ ↦ id

theorem keeps_copyPrivatePage_copying (i : ℕ) (haligned : start.toNat % 4096 = 0)
    (hchild : A (s.procs np).pgdir (vpn start)) :
    Keeps (CopyGrowing A s np) (copyPrivatePage p np i start) := by
  refine .get_bind fun t ht ↦ ?_
  have hchild' : A (t.procs np).pgdir (vpn start) := by
    rw [pgdir_of_tableFrame ht.2]
    exact hchild
  refine .bind ((keeps_getPhysicalPage _ _).at_state ht) fun found ↦ ?_
  dsimp only
  split
  · exact .pure fun _ ↦ id
  · apply kalloc_rule
    · exact fun u hu _ ↦ .pure fun w hw ↦ hw ▸ hu
    · intro u frame rest hu _
      have htaken : CopyGrowing A s np { u with freelist := rest } :=
        hu.of_procFrame (hu.1.congr rfl) ((pagingFrame_procFrame np).freelist u rest)
      dsimp only
      refine .bind (Q := fun _ ↦ CopyGrowing A s np) ?_ fun _ ↦
        keeps_mappages_copying haligned _ _ hchild'
      rintro w rfl
      rw [memmove_apply]
      exact htaken.of_procFrame (htaken.1.congr rfl) (ioFrame_procFrame.mem _ _)

/-- The pages of the live regions of `p`, in the directories of `p` and of `np`. -/
def regionPages (s : Machine N) (p np : Fin N) (d : Word) (v : Vpn) : Prop :=
  (d = (s.procs p).pgdir ∨ d = (s.procs np).pgdir) ∧ (s.procs p).mmaps.Covers v

theorem keeps_copyRegions_copying (hne : p ≠ np) (hwell : (s.procs p).mmaps.WellFormed) :
    Keeps (CopyGrowing (regionPages s p np) s np)
      (copyRegions p np 0 (s.procs p).mmaps.total.toNat) := by
  refine (copyRegions_pages (I := fun _ _ ↦ CopyGrowing (regionPages s p np) s np)
    (L := CopyGrowing (regionPages s p np) s np) hwell
    (fun _ _ t ht j ↦ region_of_settled (ht.2.1 p hne) j) (fun i k hi hk ↦ ?_) (fun _ _ _ ht ↦ ht)
    fun _ t table ht ↦
      ⟨ht.1.congr rfl, (tableFrame np).trans ht.2 (tableFrame_setMmaps t np table)⟩).post
    (fun copied t ht ↦ by cases copied <;> exact ht) fun _ _ ↦ id
  have hplaced := hwell.placed_at hi
  have hcovers : (s.procs p).mmaps.Covers (vpn (pageAddr ((s.procs p).mmaps i).virtAddr k)) :=
    ⟨_, List.mem_map.mpr ⟨i, List.mem_range.mpr hi, rfl⟩, k, hk, rfl⟩
  have haligned := hplaced.pageAddr_mod hk
  have hlow : 4096 ≤ (pageAddr ((s.procs p).mmaps i).virtAddr k).toNat :=
    le_trans (by decide) (BitVec.le_def.mp (hplaced.base_le_pageAddr hk))
  have hkeeps : Keeps (CopyGrowing (regionPages s p np) s np)
      (if ((s.procs p).mmaps i).flags.has mapShared then
          sharePage p np i (pageAddr ((s.procs p).mmaps i).virtAddr k)
        else copyPrivatePage p np i (pageAddr ((s.procs p).mmaps i).virtAddr k)) := by
    split
    · exact keeps_sharePage_copying i haligned hlow ⟨.inl rfl, hcovers⟩ ⟨.inr rfl, hcovers⟩
    · exact keeps_copyPrivatePage_copying i haligned ⟨.inr rfl, hcovers⟩
  exact hkeeps.post (fun copied t ht ↦ by cases copied <;> exact ht) fun _ _ ↦ id

/-- **`copy_maps` fills in pages of the parent's regions**, for parent and child. -/
theorem keeps_copyMaps_copying (hne : p ≠ np) (hwell : (s.procs p).mmaps.WellFormed)
    (htabled : ∀ d, (s.pgdirs d).Tabled) :
    Triple (· = s) (copyMaps p np) (fun _ ↦ CopyGrowing (regionPages s p np) s np)
      fun _ ↦ CopyGrowing (regionPages s p np) s np := by
  refine .get_at ?_
  have hstart : CopyGrowing (regionPages s p np) s np s :=
    ⟨refl htabled, (tableFrame np).refl s⟩
  refine .bind ((keeps_copyRegions_copying hne hwell).at_state hstart) fun copied ↦ ?_
  split
  · refine .modify_bind fun u hu ↦ .pure fun w hw ↦ ?_
    rw [hw]
    exact ⟨hu.1.congr rfl, (tableFrame np).trans hu.2 (tableFrame_setMmaps u np _)⟩
  · exact .pure fun _ ↦ id

end Kernel

end Xv6Mmap
