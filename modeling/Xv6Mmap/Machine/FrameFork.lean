import Xv6Mmap.Machine.CopyLoops
import Xv6Mmap.Machine.FrameSpaces
import Xv6Mmap.Machine.FrameUnmap

/-!
# `copy_maps` keeps frames sound

The child gets the frames of the shared pages of its parent and fresh frames for copies of the
private ones.  Parent and child may share a frame, since both map it at the same page above
`MMAPBASE`.
-/

namespace Xv6Mmap

open Library Prog RegionTable Function FrameSound

variable {N : ℕ}

/-- No page is exclusive. -/
def noPages : Word → Vpn → Prop := fun _ _ ↦ False

namespace Kernel

variable {p np : Fin N} {D : Set Word} {s u : Machine N} {i : ℕ} {start : Word}

/-- What `copy_maps` needs of parent and child. -/
structure Forking (p np : Fin N) (D : Set Word) (s : Machine N) : Prop where
  parent_mem : (s.procs p).pgdir ∈ D
  child_mem : (s.procs np).pgdir ∈ D
  apart : (s.procs p).pgdir ≠ (s.procs np).pgdir
  sane : (s.procs p).mmaps.Sane

theorem Forking.of_procFrame {s' : Machine N} (h : Forking p np D s)
    (hrel : procFrame.rel s s') : Forking p np D s' := by
  have hp := pgdir_of_procFrame hrel p
  have hnp := pgdir_of_procFrame hrel np
  exact ⟨hp ▸ h.parent_mem, hnp ▸ h.child_mem, hp ▸ hnp ▸ h.apart,
    sane_congr (fun i ↦ region_of_procFrame hrel p i) h.sane⟩

theorem Forking.protection_lt {s' : Machine N} (h : Forking p np D s)
    (hrel : procFrame.rel s s') (hi : i < (s.procs p).mmaps.total.toNat) :
    ((s'.procs p).mmaps i).protection.toNat < 4096 := by
  have hprotection : ((s'.procs p).mmaps i).protection = ((s.procs p).mmaps i).protection :=
    congrArg Region.protection (region_of_procFrame hrel p i)
  rw [hprotection]
  exact h.sane.2.protection_lt hi

/-- Frames are sound, and since state `u` only page faults have been taken. -/
def SoundSince (D : Set Word) (u s : Machine N) : Prop :=
  FrameSound noPages D ∅ s ∧ procFrame.rel u s

theorem respects_since {α : Type} {c : Kernel N α} (h : Respects procFrame c)
    (u : Machine N) : Respects (.ofInvariant fun s ↦ procFrame.rel u s) c :=
  respects_of_procFrame h fun _ _ hstep hrel ↦ procFrame.trans hrel hstep

theorem mmapVpn_le_vpn {a : Word} (h : mmapBase ≤ a) : mmapVpn ≤ vpn a := by
  rw [BitVec.le_def] at h ⊢
  rw [mmapVpn, toNat_vpn, toNat_vpn]
  exact Nat.div_le_div_right h

/-- The child maps the frame that it was told the parent has at the same page. -/
theorem mapShared_sound (hu : Forking p np D u) (pa : Word) {perm : Word}
    (haligned : start.toNat % 4096 = 0) (hbase : mmapBase ≤ start) (hperm : perm.toNat < 4096) :
    Triple (fun s ↦ SoundSince D u s ∧
        (pa = 0 ∨ pteAddr ((s.pgdirs (u.procs p).pgdir).pte (vpn start)) = pa))
      (mappages (u.procs np).pgdir start pgSize pa perm) (fun _ ↦ SoundSince D u)
      fun _ ↦ SoundSince D u := by
  have hframe := pagingFrame_procFrame p
  have hmap := mapPage_shared (N := N) (E := noPages) (R := ∅)
    hu.child_mem hu.parent_mem hu.apart hperm (mmapVpn_le_vpn hbase) id id pa
  rw [mappages_page haligned]
  refine (hmap.carry (respects_since (respects_mapPage hframe.toMapFrame _ _ _ _) u)).weaken ?_
    (fun _ _ ↦ id) fun _ _ ↦ id
  rintro s ⟨⟨hsound, hrel⟩, hpa⟩
  exact ⟨⟨hsound, hpa⟩, hrel⟩

/-- What `get_physical_page` tells. -/
theorem getPhysicalPage_sound {P : Machine N → Prop} (pgdir va : Word) :
    Triple P (getPhysicalPage pgdir va)
      (fun found s ↦ P s ∧ (found.2 = 0 ∨ pteAddr ((s.pgdirs pgdir).pte (vpn va)) = found.2))
      fun _ _ ↦ False := by
  intro s hs
  rw [getPhysicalPage_apply]
  refine ⟨hs, ?_⟩
  split
  · exact .inr rfl
  · exact .inl rfl

section

variable (hu : Forking p np D u) (hi : i < (u.procs p).mmaps.total.toNat)
  (haligned : start.toNat % 4096 = 0)
include hu hi haligned

theorem sharePage_sound
    (hbase : mmapBase ≤ start) : Keeps (SoundSince D u) (sharePage p np i start) := by
  have hframe := pagingFrame_procFrame p
  have hlow : 4096 ≤ start.toNat := by
    have hle : (0x60000000 : ℕ) ≤ start.toNat := hbase
    omega
  refine .get_bind fun s hs ↦ ?_
  have hprotection := hu.protection_lt hs.2 hi
  have hp := pgdir_of_procFrame hs.2 p
  have hnp := pgdir_of_procFrame hs.2 np
  rw [hp, hnp]
  have hmap (pa : Word) := mapShared_sound hu pa haligned hbase hprotection
  refine ((getPhysicalPage_sound (P := SoundSince D u) (u.procs p).pgdir start).at_state hs).seq
    (fun _ _ h ↦ h.elim) fun found ↦ ?_
  dsimp only
  split
  · generalize hsize : (if (((s.procs p).mmaps i).size - ((s.procs p).mmaps i).storedSize).slt pgSize
      then ((s.procs p).mmaps i).size - ((s.procs p).mmaps i).storedSize else pgSize) = size
    have hcount : size.count ≤ 4096 := by
      rw [← hsize]
      exact count_min_le _
    have hready (t : Machine N) (ht : SoundSince D u t) :
        Guarded p noPages D ∅ t ∧ procFrame.rel u t := by
      have hforking := hu.of_procFrame ht.2
      exact ⟨⟨ht.1, hforking.parent_mem, hforking.sane.2⟩, ht.2⟩
    have hdone (t : Machine N) (ht : Guarded p noPages D ∅ t ∧ procFrame.rel u t) :
        SoundSince D u t := ⟨ht.1.1, ht.2⟩
    have hstore := (keeps_mmapStoreData (p := p) (E := noPages) (D := D) (R := ∅)
      haligned hlow hprotection hcount ((s.procs p).mmaps i).flags ((s.procs p).mmaps i).f
      ((s.procs p).mmaps i).offset).carry
        (respects_since (respects_mmapStoreData hframe p _ _ _ _ _ _) u)
    refine (hstore.pre fun t ht ↦ hready t ht.1).seq (fun _ t ht ↦ hdone t ht) fun r ↦ ?_
    split
    · exact .pure fun t ht ↦ hdone t ht
    · have hadd := (keeps_addStored (p := p) (E := noPages) (D := D) (R := ∅) i
        size).carry (respects_since (respects_addStored hframe.toMapFrame i size) u)
      refine .bind (hadd.post (fun _ t ht ↦ hdone t ht) fun _ t ht ↦ hdone t ht) fun _ ↦ ?_
      refine (getPhysicalPage_sound (P := SoundSince D u) (u.procs p).pgdir start).seq
        (fun _ _ h ↦ h.elim) fun found ↦ ?_
      exact .bind (hmap found.2) fun _ ↦ .pure fun _ ↦ id
  · exact .bind (hmap found.2) fun _ ↦ .pure fun _ ↦ id

theorem copyPrivatePage_sound :
    Keeps (SoundSince D u) (copyPrivatePage p np i start) := by
  have hframe := pagingFrame_procFrame p
  refine .get_bind fun s hs ↦ ?_
  have hprotection := hu.protection_lt hs.2 hi
  have hnp : (s.procs np).pgdir ∈ D := (hu.of_procFrame hs.2).child_mem
  refine ((getPhysicalPage_sound (P := SoundSince D u) (s.procs p).pgdir start).at_state hs).seq
    (fun _ _ h ↦ h.elim) fun found ↦ ?_
  dsimp only
  split
  · exact .pure fun t ht ↦ ht.1
  · have hkalloc := kalloc_allocated (N := N) (E := noPages) (D := D) (R := ∅)
      (C := fun t ↦ procFrame.rel u t) fun t free h ↦ procFrame.trans h (hframe.freelist t free)
    refine (hkalloc.pre fun t ht ↦ ht.1).seq (fun _ _ h ↦ h.elim) fun r ↦ ?_
    cases r with
    | none => exact .pure fun t ht ↦ ht
    | some mem =>
      refine .of_forall fun t ht ↦ ?_
      obtain ⟨⟨hsound, hfresh⟩, hrel⟩ := ht
      have hio := ioFrame (N := N) noPages D (insert mem ∅)
      have hmove := (Triple.of_respects (respects_memmove hio.toCacheFrame mem found.2 4096)).carry
        (respects_since (respects_memmove hframe.toCacheFrame mem found.2 4096) u)
      refine (hmove.at_state ⟨hsound, hrel⟩).seq (fun _ w hw ↦ ?_) fun _ ↦ ?_
      · exact ⟨unreserve hw.1, hw.2⟩
      rw [mappages_page haligned]
      have hmap := (mapPage_reserved (N := N) (E := noPages) hnp hfresh hprotection
        start).carry (respects_since (respects_mapPage hframe.toMapFrame _ _ _ _) u)
      refine hmap.post (fun mapped w hw ↦ ⟨?_, hw.2⟩) fun _ _ ↦ id
      cases mapped with
      | true => exact hw.1
      | false => exact unreserve hw.1

end

/-- `copy_maps` has copied the regions below `i` and, since state `u`, has changed nothing else in
the processes but the table of the child. -/
structure Copied (p np : Fin N) (D : Set Word) (u : Machine N) (i : ℕ)
    (s : Machine N) : Prop where
  sound : FrameSound noPages D ∅ s
  table : (tableFrame np).rel u s
  regions : ∀ j < i, ((s.procs np).mmaps j).region = ((s.procs p).mmaps j).region

theorem Copied.mono {j : ℕ} (h : Copied p np D u i s) (hij : j ≤ i) :
    Copied p np D u j s :=
  ⟨h.sound, h.table, fun k hk ↦ h.regions k (by omega)⟩

theorem Forking.of_tableFrame (h : Forking p np D u) (hne : p ≠ np)
    (hrel : (tableFrame np).rel u s) : Forking p np D s := by
  have hp := pgdir_of_tableFrame hrel p
  have hnp := pgdir_of_tableFrame hrel np
  refine ⟨hp ▸ h.parent_mem, hnp ▸ h.child_mem, hp ▸ hnp ▸ h.apart, ?_⟩
  exact sane_congr (fun i ↦ region_of_settled (hrel.1 p hne) i) h.sane

/-- Copying the structures does not touch the frames nor the parent. -/
theorem Copied.setChild {j : ℕ} (h : Copied p np D u i s) (hne : p ≠ np)
    (t : RegionTable) (hregions : ∀ k < j, (t k).region = ((s.procs p).mmaps k).region) :
    Copied p np D u j
      { s with procs := update s.procs np { s.procs np with mmaps := t } } := by
  refine ⟨frameSound_update h.sound rfl, (tableFrame np).trans h.table (tableFrame_setMmaps s np t),
    ?_⟩
  intro k hk
  simp only [update_self, update_of_ne hne]
  exact hregions k hk

theorem copyRegions_sound (hu : Forking p np D u) (hne : p ≠ np) (n : ℕ)
    (hn : i + n ≤ (u.procs p).mmaps.total.toNat) :
    Triple (Copied p np D u i) (copyRegions p np i n)
      (fun copied s ↦ bif copied then Copied p np D u (i + n) s else Copied p np D u 0 s)
      fun _ ↦ Copied p np D u 0 := by
  refine copyRegions_rule (K := Copied p np D u) ?_ ?_
  · intro j _ hj s hs
    have hforking := hu.of_tableFrame hne hs.table
    have htotal : (s.procs p).mmaps.total = (u.procs p).mmaps.total :=
      (live_congr fun k ↦ region_of_settled (hs.table.1 p hne) k).1
    have hlive : j < (s.procs p).mmaps.total.toNat := by
      rw [htotal]
      omega
    have hplaced := hforking.sane.1.placed_at hlive
    have hpage (k : ℕ) (hk : k < ((s.procs p).mmaps j).region.pageCount) :
        Keeps (SoundSince D s) (if ((s.procs p).mmaps j).flags.has mapShared then
            sharePage p np j (pageAddr ((s.procs p).mmaps j).virtAddr k)
          else copyPrivatePage p np j (pageAddr ((s.procs p).mmaps j).virtAddr k)) := by
      have haligned := hplaced.pageAddr_mod hk
      split
      · exact sharePage_sound hforking hlive haligned (hplaced.base_le_pageAddr hk)
      · exact copyPrivatePage_sound hforking hlive haligned
    have hkept (t : Machine N) (ht : SoundSince D s t) : Copied p np D u j t := by
      refine ⟨ht.1, (tableFrame np).trans hs.table (tableFrame_of_procFrame ht.2 np), ?_⟩
      intro k hk
      rw [region_of_procFrame ht.2, region_of_procFrame ht.2]
      exact hs.regions k hk
    have hpages := copyRegionPages_rule (I := fun _ ↦ SoundSince D s) (L := SoundSince D s) hplaced
      fun k hk ↦ (hpage k hk).post (fun copied t ht ↦ by cases copied <;> exact ht) fun _ _ ↦ id
    refine (hpages.at_state ⟨hs.sound, procFrame.refl s⟩).post (fun copied t ht ↦ ?_)
      fun _ t ht ↦ (hkept t ht).mono (Nat.zero_le j)
    cases copied with
    | true => exact hkept t ht
    | false => exact (hkept t ht).mono (Nat.zero_le j)
  · intro j s t _ ht
    refine ht.setChild hne _ fun k hk ↦ ?_
    rw [region_inheritEntry]
    split
    · rename_i heq
      rw [heq]
    · exact ht.regions k (by omega)

/-- **`copy_maps` keeps frames sound**, and when it succeeds the table of the child is as sane as
that of the parent. -/
theorem copyMaps_sound (hu : Forking p np D u) (hne : p ≠ np) (hsound : FrameSound noPages D ∅ u) :
    Triple (· = u) (copyMaps p np)
      (fun copied s ↦ Copied p np D u 0 s ∧ (copied = true → (s.procs np).mmaps.Sane))
      fun _ ↦ Copied p np D u 0 := by
  have hstart : Copied p np D u 0 u :=
    ⟨hsound, (tableFrame np).refl u, fun j hj ↦ absurd hj (Nat.not_lt_zero j)⟩
  refine .get_at ?_
  have hcopy := copyRegions_sound hu hne (u.procs p).mmaps.total.toNat (i := 0)
    (Nat.zero_add _).le
  rw [Nat.zero_add] at hcopy
  refine .bind (hcopy.at_state hstart) fun copied ↦ ?_
  cases copied with
  | false => exact .pure fun s hs ↦ ⟨hs, nofun⟩
  | true =>
    refine .bind (Q := fun _ s ↦ Copied p np D u 0 s ∧ (s.procs np).mmaps.Sane)
      (.modify ?_) fun _ ↦ .pure fun s hs ↦ ⟨hs.1, fun _ ↦ hs.2⟩
    intro s hs
    refine ⟨hs.setChild hne _ fun k hk ↦ absurd hk (Nat.not_lt_zero k), ?_⟩
    simp only [update_self]
    have hparent := (hu.of_tableFrame hne hs.table).sane
    have hregion (k : ℕ) : ((s.procs p).mmaps k).region = ((u.procs p).mmaps k).region :=
      region_of_settled (hs.table.1 p hne) k
    have htotal := (live_congr hregion).1
    have hchild : (((s.procs np).mmaps.setTotal (u.procs p).mmaps.totalMmaps)).total =
        (s.procs p).mmaps.total := by
      rw [total_setTotal, htotal]
      rfl
    refine hparent.of_live hchild ?_
    rw [live, live, hchild]
    apply firstRegions_congr
    intro k hk
    have hbound := hparent.1.total_le
    rw [setTotal, set_of_ne _ _ (by omega)]
    exact hs.regions k (htotal ▸ hk)

end Kernel

end Xv6Mmap
