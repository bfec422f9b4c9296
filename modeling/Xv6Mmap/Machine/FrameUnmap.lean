import Xv6Mmap.Machine.FrameFaults
import Xv6Mmap.Machine.RegionRuns

/-!
# Unmapping keeps frames sound

`my_munmap` frees the frames of the pages it goes over.  If no other process maps one of these
frames, the pages can be made exclusive first: the faults that the write-back takes only map fresh
frames, so they stay exclusive until they are freed.  `delete_mmaps` looks at the reference count of
the last live entry only, so it may also try entries that are counted once a write-back has failed.
-/

namespace Xv6Mmap

open Library Prog RegionTable Function Nat

variable {N : ℕ} {size : Word}

namespace RegionTable

/-- A well-formed table with usable regions. -/
def Sane (t : RegionTable) : Prop := t.WellFormed ∧ t.Usable

variable {t : RegionTable}

theorem sane_of_total_eq_zero (h : t.total = 0) : t.Sane := by
  obtain ⟨hwell, hlive⟩ := wellFormed_of_total_eq_zero h
  refine ⟨hwell, ?_⟩
  rw [Usable, hlive]
  exact fun r hr ↦ absurd hr List.not_mem_nil

theorem Sane.of_live {t' : RegionTable} (h : t.Sane) (htotal : t'.total = t.total)
    (hlive : t'.live = t.live) : t'.Sane := by
  obtain ⟨⟨hnonneg, hle, hplaced, hlaidOut⟩, husable⟩ := h
  refine ⟨⟨htotal ▸ hnonneg, htotal ▸ hle, hlive ▸ hplaced, hlive ▸ hlaidOut⟩, ?_⟩
  rw [Usable, hlive]
  exact husable

theorem sane_congr {t' : RegionTable} (h : ∀ i : ℕ, (t' i).region = (t i).region)
    (ht : t.Sane) : t'.Sane :=
  ⟨(wellFormed_congr h ht.1).1, usable_congr h ht.2⟩

theorem Sane.dropEntry (h : t.Sane) {i : ℕ} (hi : i < t.total.toNat)
    (hsize : size.toNat % 4096 = 0) : (t.dropEntry i size).Sane := by
  refine ⟨dropEntry_wellFormed h.1 hi hsize, ?_⟩
  rw [Usable, dropEntry_live h.1 hi]
  intro r' hr'
  obtain ⟨r, hr, hrest⟩ := List.mem_filterMap.mp hr'
  have hprotection : r'.protection = r.protection := by
    rw [Region.unmap] at hrest
    split at hrest
    · split at hrest
      · cases hrest
      · cases hrest
        rfl
    · cases hrest
      rfl
  rw [hprotection]
  exact h.2 r hr

end RegionTable

namespace Kernel

variable {p : Fin N} {E : Word → Vpn → Prop} {D R : Set Word} {α : Type} {s : Machine N}

theorem not_sharing_of_exclusive {d : Word} {v : Vpn} (h : E d v) (o : Owner N) :
    ¬ Sharing E (.page d v) o := by
  intro hsharing
  obtain ⟨d₁, d₂, v₁, heq, _, _, hE, _⟩ := hsharing.exists_pages
  cases heq
  exact hE h

/-- Page `k` from `addr` on. -/
def pageFrom (addr : Word) (k : ℕ) : Vpn := vpn (addr + BitVec.ofNat 32 (4096 * k))

theorem pageFrom_succ (addr : Word) (k : ℕ) :
    pageFrom (addr + pgSize) k = pageFrom addr (k + 1) := by
  have hsum : addr + pgSize + BitVec.ofNat 32 (4096 * k) =
      addr + BitVec.ofNat 32 (4096 * (k + 1)) := by
    rw [BitVec.add_assoc, show pgSize = 4096#32 from rfl, ← BitVec.ofNat_add]
    congr 2
    omega
  rw [pageFrom, pageFrom, hsum]

theorem keeps_freeRange {d : Word} (hd : d ∈ D) (n : ℕ) (addr : Word)
    (hexclusive : ∀ k < n, E d (pageFrom addr k)) :
    Keeps (FrameSound (N := N) E D R) (freeRange d addr n) := by
  induction n generalizing addr with
  | zero => exact .pure fun _ ↦ id
  | succ n ih =>
    have hrest : Keeps (FrameSound (N := N) E D R)
        (freeRange d (addr + pgSize) n) := by
      apply ih
      intro k hk
      rw [pageFrom_succ]
      exact hexclusive (k + 1) (by omega)
    have hpage : E d (vpn addr) := by
      simpa [pageFrom] using hexclusive 0 (succ_pos n)
    rw [freeRange]
    refine .of_forall fun s hs ↦ ?_
    refine .bind (Q := fun found t ↦ FrameSound E D R t ∧
      (found = (none, 0) ∨ found = (some (vpn addr), pteAddr ((t.pgdirs d).pte (vpn addr))))) ?_
      fun found ↦ ?_
    · rintro t rfl
      rw [getPhysicalPage_apply]
      refine ⟨hs, ?_⟩
      split
      · exact .inr rfl
      · exact .inl rfl
    · obtain ⟨place, pa⟩ := found
      cases place with
      | none => exact hrest.pre fun t ht ↦ ht.1
      | some v =>
        dsimp only
        by_cases hpa : pa = 0
        · rw [if_pos hpa]
          exact hrest.pre fun t ht ↦ ht.1
        · rw [if_neg hpa]
          refine .of_forall fun t ht ↦ ?_
          obtain ⟨hsound, hfound⟩ := ht
          have hpair : v = vpn addr ∧ pa = pteAddr ((t.pgdirs d).pte (vpn addr)) := by
            simpa using hfound
          obtain ⟨rfl, hframe⟩ := hpair
          have hrelease := release (N := N) (R := R) hd hpa
            (not_sharing_of_exclusive hpage)
          have hboth := Triple.bind hrelease fun _ ↦ hrest
          rw [bind_assoc_prog] at hboth
          exact hboth.at_state ⟨hsound, hframe.symm⟩

/-- Process `q` maps frame `f` at page `v`. -/
def MapsFrame (s : Machine N) (q : Fin N) (v : Vpn) (f : Word) : Prop :=
  ((s.pgdirs (s.procs q).pgdir).pte v).has pteP = true ∧
    pteAddr ((s.pgdirs (s.procs q).pgdir).pte v) = f

instance (s : Machine N) (q : Fin N) (v : Vpn) (f : Word) : Decidable (MapsFrame s q v f) :=
  inferInstanceAs (Decidable (_ ∧ _))

/-- No other process maps a frame that process `p` maps at page `v`. -/
def Alone (s : Machine N) (p : Fin N) (v : Vpn) : Prop :=
  ∀ q, q ≠ p → (s.procs q).state ≠ .unused → ∀ f, f ≠ 0 → MapsFrame s p v f → ¬ MapsFrame s q v f

theorem alone_iff {v : Vpn} : Alone s p v ↔ ∀ q, q ≠ p → (s.procs q).state ≠ .unused →
    let f := pteAddr ((s.pgdirs (s.procs p).pgdir).pte v)
    f ≠ 0 → MapsFrame s p v f → ¬ MapsFrame s q v f := by
  refine ⟨fun h q hq hlive ↦ h q hq hlive _, fun h q hq hlive f hf hmaps ↦ ?_⟩
  obtain ⟨hpresent, rfl⟩ := hmaps
  exact h q hq hlive hf ⟨hpresent, rfl⟩

instance (s : Machine N) (p : Fin N) (v : Vpn) : Decidable (Alone s p v) :=
  decidable_of_iff _ alone_iff.symm

/-- Every directory in use belongs to a process or has exclusive pages only. -/
def Accounted (E : Word → Vpn → Prop) (D : Set Word) (s : Machine N) : Prop :=
  ∀ d ∈ D, (∃ q, (s.procs q).state ≠ .unused ∧ (s.procs q).pgdir = d) ∨ ∀ v, E d v

/-- Making the pages that `my_munmap` frees exclusive. -/
theorem frameSound_exclusive (h : FrameSound E D R s) (haccounted : Accounted E D s)
    {pages : Set Vpn} (halone : ∀ v ∈ pages, Alone s p v) :
    FrameSound (fun d v ↦ E d v ∨ (d = (s.procs p).pgdir ∧ v ∈ pages)) D R s := by
  have hapart (d : Word) (hd : d ∈ D) (v : Vpn) (hv : v ∈ pages)
      (hne : d ≠ (s.procs p).pgdir) (hE : ¬ E d v) (f : Word)
      (hother : s.Owns D R (.page d v) f)
      (hown : s.Owns D R (.page (s.procs p).pgdir v) f) : False := by
    rcases haccounted d hd with ⟨q, hstate, hpgdir⟩ | hexclusive
    · have hq : q ≠ p := fun heq ↦ hne (hpgdir ▸ heq ▸ rfl)
      refine halone v hv q hq hstate f hown.2.2.2 ⟨hown.2.1, hown.2.2.1⟩ ?_
      rw [MapsFrame, hpgdir]
      exact ⟨hother.2.1, hother.2.2.1⟩
    · exact hE (hexclusive v)
  refine h.of_exclusive ?_
  intro d hd d' hd' v hne f ho ho' hE hE'
  constructor
  · grind
  · rintro (h₁ | ⟨rfl, hv⟩)
    · exact hE' h₁
    · exact hapart d hd v hv hne hE f ho ho'

theorem FrameSound.of_more_exclusive {E' : Word → Vpn → Prop}
    (h : FrameSound E' D R s) (hsub : ∀ d v, E d v → E' d v) :
    FrameSound E D R s :=
  h.of_exclusive fun d _ d' _ v _ _ _ _ hE hE' ↦
    ⟨fun h₁ ↦ hE (hsub d v h₁), fun h₁ ↦ hE' (hsub d' v h₁)⟩

theorem respects_tableFrame {c : Kernel N α} (h : Respects procFrame c) :
    Respects (tableFrame p) c :=
  fun s ↦ tableFrame_of_procFrame (h s) p

/-- What `my_munmap` and `delete_mmaps` keep: frames are sound, the directories are accounted for,
and `p` has a directory in use and a sane table. -/
structure Unmapping (p : Fin N) (E : Word → Vpn → Prop) (D R : Set Word)
    (s : Machine N) : Prop where
  sound : FrameSound E D R s
  accounted : Accounted E D s
  pgdir_mem : (s.procs p).pgdir ∈ D
  sane : (s.procs p).mmaps.Sane

theorem Accounted.of_tableFrame {s' : Machine N} (h : Accounted E D s)
    (hrel : (tableFrame p).rel s s') : Accounted E D s' := by
  intro d hd
  refine (h d hd).imp ?_ id
  rintro ⟨q, hstate, hpgdir⟩
  refine ⟨q, ?_, ?_⟩
  · rw [state_of_tableFrame hrel]
    exact hstate
  · rw [pgdir_of_tableFrame hrel]
    exact hpgdir

/-- The entry that `my_munmap(addr, size)` finds is a live one and the pages that it frees are
exclusive. -/
def Unshared (p : Fin N) (E : Word → Vpn → Prop) (addr size : Word) (s : Machine N) : Prop :=
  let t := (s.procs p).mmaps
  ∀ i, t.findEntry (pgRoundUp addr) = some i → (t i).size ≠ 0 → i < t.total.toNat ∧
    ∀ k < unmapCount (t i).size (pgRoundUp size), E (s.procs p).pgdir (pageFrom addr k)

/-- **`my_munmap` keeps frames sound** when the pages that it frees are exclusive. -/
theorem myMunmap_unmapping (h : Unmapping p E D R s)
    {addr : Word} (hunshared : Unshared p E addr size s) :
    Triple (· = s) (myMunmap p addr size)
      (fun _ t ↦ Unmapping p E D R t ∧ (tableFrame p).rel s t)
      fun _ t ↦ Unmapping p E D R t ∧ (tableFrame p).rel s t := by
  have hprocs := pagingFrame_procFrame p
  have hunchanged (t : Machine N) (hsound : FrameSound E D R t)
      (hrel : procFrame.rel s t) : Unmapping p E D R t ∧ (tableFrame p).rel s t := by
    have htable := tableFrame_of_procFrame hrel p
    refine ⟨⟨hsound, h.accounted.of_tableFrame htable, ?_, ?_⟩, htable⟩
    · rw [pgdir_of_procFrame hrel]
      exact h.pgdir_mem
    · exact sane_congr (fun i ↦ region_of_procFrame hrel p i) h.sane
  have hreturn (r : Word) : Triple (· = s) (pure r : Kernel N Word)
      (fun _ t ↦ Unmapping p E D R t ∧ (tableFrame p).rel s t)
      fun _ t ↦ Unmapping p E D R t ∧ (tableFrame p).rel s t := by
    refine .pure_at ?_
    exact hunchanged s h.sound (procFrame.refl s)
  refine .get_at ?_
  dsimp only
  cases hfound : (s.procs p).mmaps.findEntry (pgRoundUp addr) with
  | none => exact hreturn _
  | some i =>
    dsimp only
    by_cases hsize : ((s.procs p).mmaps i).size = 0
    · rw [if_pos hsize]
      exact hreturn _
    · rw [if_neg hsize]
      obtain ⟨hi, hexclusive⟩ := hunshared i hfound hsize
      have hcarry {β : Type} {c : Kernel N β} (hc : Respects procFrame c) :
          Respects (.ofInvariant fun t ↦ procFrame.rel s t) c :=
        respects_of_procFrame hc fun _ _ hstep hrel ↦ procFrame.trans hrel hstep
      have hready : Ready p D s := ⟨h.pgdir_mem, h.sane.2⟩
      have hwrite := (keeps_writeBack (p := p) (E := E) (D := D) (R := R)
        ((s.procs p).mmaps i)).carry (hcarry
          (respects_writeBack ioFrame_procFrame.toOffsetFrame (respects_loadKernel hprocs) _))
      refine (hwrite.at_state ⟨⟨h.sound, hready⟩, procFrame.refl s⟩).seq ?_ fun written ↦ ?_
      · exact fun _ t ht ↦ hunchanged t ht.1.1 ht.2
      cases written with
      | false => exact .pure fun t ht ↦ hunchanged t ht.1.1 ht.2
      | true =>
        have hfree := (keeps_freeRange (N := N) (R := R) h.pgdir_mem
          (unmapCount ((s.procs p).mmaps i).size (pgRoundUp size)) addr hexclusive).carry
            (hcarry (respects_freeRange hprocs _ addr _))
        refine (hfree.pre fun t ht ↦ ⟨ht.1.1, ht.2⟩).seq ?_ fun _ ↦ ?_
        · exact fun _ t ht ↦ hunchanged t ht.1 ht.2
        · refine .bind (Q := fun _ t ↦ Unmapping p E D R t ∧
            (tableFrame p).rel s t) (.modify ?_) fun _ ↦ .pure fun _ ↦ id
          rintro t ⟨hsound, hrel⟩
          obtain ⟨hold, htable⟩ := hunchanged t hsound hrel
          have htable' := tableFrame_setMmaps t p
            ((t.procs p).mmaps.dropEntry i (pgRoundUp size))
          have hi' : i < (t.procs p).mmaps.total.toNat := by
            rw [(live_congr fun j ↦ region_of_procFrame hrel p j).1]
            exact hi
          refine ⟨⟨frameSound_update hold.sound rfl, hold.accounted.of_tableFrame htable', ?_, ?_⟩,
            (tableFrame p).trans htable htable'⟩
          · simp only [update_self]
            exact hold.pgdir_mem
          · simp only [update_self]
            exact hold.sane.dropEntry hi' (pgRoundUp_mod size)

/-! ## `delete_mmaps` -/

/-- The pages that unmapping the whole of an entry goes over. -/
def entryPages (mr : MmapRegion) : Set Vpn :=
  { v | ∃ k < unmapCount mr.size (pgRoundUp mr.size), v = pageFrom mr.virtAddr k }

theorem forall_mem_entryPages {mr : MmapRegion} {P : Vpn → Prop} : (∀ v ∈ entryPages mr, P v) ↔
    ∀ k < unmapCount mr.size (pgRoundUp mr.size), P (pageFrom mr.virtAddr k) := by
  refine ⟨fun h k hk ↦ h _ ⟨k, hk, rfl⟩, ?_⟩
  rintro h v ⟨k, hk, rfl⟩
  exact h k hk

instance (mr : MmapRegion) (P : Vpn → Prop) [DecidablePred P] :
    Decidable (∀ v ∈ entryPages mr, P v) :=
  decidable_of_iff _ forall_mem_entryPages.symm

/-- The reference counts from live entry `i` on are zero. -/
def Uncounted (t : RegionTable) (i : ℕ) : Prop :=
  ∀ j : ℕ, i ≤ j → j < t.total.toNat → (t j).refCount = 0

instance (t : RegionTable) (i : ℕ) : Decidable (Uncounted t i) :=
  decidable_of_iff (∀ j < t.total.toNat, i ≤ j → (t j).refCount = 0) (forall_congr' fun _ ↦ imp.swap)

/-- The live entries that `delete_mmaps` may try to unmap: those from which on no entry is counted,
and those below one of these that has to be written back, since that may fail. -/
def Attempted (t : RegionTable) (i : ℕ) : Prop :=
  Uncounted t i ∨ ∃ j : ℕ, i < j ∧ j < t.total.toNat ∧ Uncounted t j ∧
    MmapRegion.writesBack (t j) = true

instance (t : RegionTable) (i : ℕ) : Decidable (Attempted t i) :=
  decidable_of_iff (_ ∨ ∃ j < t.total.toNat, i < j ∧ _)
    (or_congr_right (exists_congr fun _ ↦ and_left_comm))

/-- The loop of `delete_mmaps` with `n` entries to go.  It is level with the table as long as every
unmapping has succeeded; after that it goes on as long as the last entry is not counted. -/
structure Deleting (exclusive : Vpn → Prop) (n : ℕ) (t : RegionTable) : Prop where
  le_total : n ≤ t.total.toNat
  level : n = t.total.toNat → ∀ i < n, Attempted t i → ∀ v ∈ entryPages (t i), exclusive v
  behind : n < t.total.toNat → (t (t.total - 1)).refCount = 0 →
    ∀ i < n, ∀ v ∈ entryPages (t i), exclusive v

section Deleting

variable {exclusive : Vpn → Prop} {n : ℕ} {t t' : RegionTable}

theorem Deleting.last_exclusive (h : Deleting exclusive (n + 1) t)
    (hcount : (t (t.total - 1)).refCount = 0) : ∀ v ∈ entryPages (t n), exclusive v := by
  rcases h.le_total.lt_or_eq with hlt | heq
  · exact h.behind hlt hcount n (lt_succ_self n)
  · refine h.level heq n (lt_succ_self n) (.inl ?_)
    intro j hj hj'
    have hlast : (j : ℤ) = t.total - 1 := by omega
    rw [hlast]
    exact hcount

/-- The last live entry is counted, so the loop runs out. -/
theorem Deleting.counted (h : Deleting exclusive (n + 1) t)
    (hcount : (t (t.total - 1)).refCount ≠ 0) : Deleting exclusive n t where
  le_total := (le_succ n).trans h.le_total
  level heq := absurd h.le_total (by omega)
  behind _ hzero := absurd hzero hcount

theorem Attempted.congr (hregion : ∀ i : ℕ, (t' i).region = (t i).region)
    (hcount : ∀ i : ℕ, (t' i).refCount = (t i).refCount) {i : ℕ} (h : Attempted t' i) :
    Attempted t i := by
  have htotal : t'.total = t.total := (live_congr hregion).1
  have huncounted (j : ℕ) (hj : Uncounted t' j) : Uncounted t j := by
    intro l hl hl'
    rw [← hcount]
    exact hj l hl (htotal ▸ hl')
  rcases h with hhere | ⟨j, hij, hj, hzero, hback⟩
  · exact .inl (huncounted i hhere)
  · refine .inr ⟨j, hij, htotal ▸ hj, huncounted j hzero, ?_⟩
    have hflags := congrArg Region.flags (hregion j)
    have hprotection := congrArg Region.protection (hregion j)
    rw [MmapRegion.writesBack, ← show (t' j).flags = (t j).flags from hflags,
      ← show (t' j).protection = (t j).protection from hprotection]
    exact hback

theorem entryPages_congr {mr mr' : MmapRegion} (h : mr'.region = mr.region) :
    entryPages mr' = entryPages mr := by
  have haddr : mr'.virtAddr = mr.virtAddr := congrArg Region.virtAddr h
  have hsize : mr'.size = mr.size := congrArg Region.size h
  rw [entryPages, entryPages, haddr, hsize]

theorem Deleting.congr (hregion : ∀ i : ℕ, (t' i).region = (t i).region)
    (hcount : ∀ i : ℕ, (t' i).refCount = (t i).refCount) (hwell : t.WellFormed)
    (h : Deleting exclusive n t) : Deleting exclusive n t' := by
  have htotal : t'.total = t.total := (live_congr hregion).1
  refine ⟨htotal ▸ h.le_total, ?_, ?_⟩
  · intro heq i hi hattempted
    rw [entryPages_congr (hregion i)]
    exact h.level (htotal ▸ heq) i hi (hattempted.congr hregion hcount)
  · intro hlt hzero i hi
    rw [entryPages_congr (hregion i)]
    refine h.behind (htotal ▸ hlt) ?_ i hi
    have hnonneg := hwell.natCast_total
    rw [htotal] at hzero hlt
    have hlast : t.total - 1 = ((t.total.toNat - 1 : ℕ) : ℤ) := by omega
    rw [hlast] at hzero ⊢
    rw [← hcount]
    exact hzero

/-- A write-back has failed: the loop falls behind. -/
theorem Deleting.failed (h : Deleting exclusive (n + 1) t)
    (hcount : (t (t.total - 1)).refCount = 0) (hback : MmapRegion.writesBack (t n) = true) :
    Deleting exclusive n t where
  le_total := (le_succ n).trans h.le_total
  level heq := absurd h.le_total (by omega)
  behind _ _ i hi := by
    rcases h.le_total.lt_or_eq with hlt | heq
    · exact h.behind hlt hcount i (by omega)
    · refine h.level heq i (by omega) (.inr ⟨n, hi, by omega, ?_, hback⟩)
      intro j hj hj'
      have hlast : (j : ℤ) = t.total - 1 := by omega
      rw [hlast]
      exact hcount

/-- An entry has been taken out. -/
theorem Deleting.dropped (h : Deleting exclusive (n + 1) t) (hwell : t.WellFormed)
    (hcount : (t (t.total - 1)).refCount = 0) (hsize : (t n).size ≤ size) :
    Deleting exclusive n (t.dropEntry n size) := by
  have hle := h.le_total
  have hbound := hwell.total_le
  have htotal := (dropEntry_live_of_le hwell (lt_of_succ_le hle) hsize).1
  have hsame (i : ℕ) (hi : i < n) : t.dropEntry n size i = t i :=
    dropEntry_of_lt hsize hi (by omega)
  refine ⟨by omega, ?_, ?_⟩
  · intro heq i hi hattempted
    have heq' : n + 1 = t.total.toNat := by omega
    have huncounted (j : ℕ) (hj : j ≤ n) (hzero : Uncounted (t.dropEntry n size) j) :
        Uncounted t j := by
      intro l hl hl'
      rcases Nat.lt_or_ge l n with hln | hln
      · rw [← hsame l hln]
        exact hzero l hl (by omega)
      · have hlast : (l : ℤ) = t.total - 1 := by omega
        rw [hlast]
        exact hcount
    rw [hsame i hi]
    refine h.level heq' i (by omega) ?_
    rcases hattempted with hhere | ⟨j, hij, hj, hzero, hback⟩
    · exact .inl (huncounted i hi.le hhere)
    · refine .inr ⟨j, hij, by omega, huncounted j (by omega) hzero, ?_⟩
      rw [hsame j (by omega)] at hback
      exact hback
  · intro hlt _ i hi
    rw [hsame i hi]
    exact h.behind (by omega) hcount i (by omega)

end Deleting

theorem deleteFrom_unmapping (h : Unmapping p E D R s) (n : ℕ)
    (hdeleting : Deleting (E (s.procs p).pgdir) n (s.procs p).mmaps) :
    Triple (· = s) (deleteFrom p n)
      (fun _ t ↦ Unmapping p E D R t ∧ (tableFrame p).rel s t)
      fun _ t ↦ Unmapping p E D R t ∧ (tableFrame p).rel s t := by
  induction n generalizing s with
  | zero =>
    refine .pure_at ?_
    exact ⟨h, (tableFrame p).refl s⟩
  | succ n ih =>
    rw [deleteFrom]
    refine .get_at ?_
    dsimp only
    by_cases hcount : ((s.procs p).mmaps ((s.procs p).mmaps.total - 1)).refCount = 0
    · rw [if_pos hcount]
      intro t ht
      subst ht
      have hwell := h.sane.1
      have hn : n < (t.procs p).mmaps.total.toNat := hdeleting.le_total
      have hplaced := hwell.placed_at hn
      have hround : pgRoundUp ((t.procs p).mmaps n).virtAddr = ((t.procs p).mmaps n).virtAddr :=
        hplaced.within.pgRoundUp_virtAddr
      have hfound : (t.procs p).mmaps.findEntry (pgRoundUp ((t.procs p).mmaps n).virtAddr) =
          some n := by
        rw [hround]
        exact hwell.findEntry_live hn
      have hunshared : Unshared p E ((t.procs p).mmaps n).virtAddr ((t.procs p).mmaps n).size t := by
        intro i hi _
        obtain rfl : n = i := Option.mem_unique hfound hi
        exact ⟨hn, fun k hk ↦ hdeleting.last_exclusive hcount _ ⟨k, hk, rfl⟩⟩
      have hmunmap := myMunmap_unmapping h hunshared t rfl
      rw [bind_apply]
      rcases hrun : myMunmap p ((t.procs p).mmaps n).virtAddr ((t.procs p).mmaps n).size t with
        ⟨outcome, t'⟩
      rw [hrun] at hmunmap
      cases outcome with
      | error e => exact hmunmap
      | ok r =>
        have hnext : Deleting (E (t'.procs p).pgdir) n (t'.procs p).mmaps := by
          rw [pgdir_of_tableFrame hmunmap.2]
          rcases myMunmap_cases hrun with ⟨rfl, hrel⟩ | ⟨i, s₁, _, hi, _, hrel, rfl⟩
          · refine (hdeleting.failed hcount ?_).congr (fun j ↦ region_of_procFrame hrel p j)
              (fun j ↦ refCount_of_procFrame hrel p j) hwell
            exact writesBack_of_myMunmap_failed hfound hplaced.size_ne_zero hrun
          · obtain rfl : n = i := Option.mem_unique hfound hi
            simp only [update_self]
            have hregion (j : ℕ) := region_of_procFrame hrel p j
            have hcounts (j : ℕ) := refCount_of_procFrame hrel p j
            have hsize : ((s₁.procs p).mmaps n).size = ((t.procs p).mmaps n).size :=
              congrArg Region.size (hregion n)
            refine (hdeleting.congr hregion hcounts hwell).dropped
              (wellFormed_congr hregion hwell).1 ?_ ?_
            · grind [live_congr, refCount_of_procFrame]
            · rw [hsize]
              exact hplaced.size_le_pgRoundUp
        have hrest := (ih hmunmap.1 hnext).post
          (Q := fun _ w ↦ Unmapping p E D R w ∧ (tableFrame p).rel t w)
          (E := fun _ w ↦ Unmapping p E D R w ∧ (tableFrame p).rel t w)
          (fun _ w hw ↦ ⟨hw.1, (tableFrame p).trans hmunmap.2 hw.2⟩)
          (fun _ w hw ↦ ⟨hw.1, (tableFrame p).trans hmunmap.2 hw.2⟩)
        exact hrest t' rfl
    · rw [if_neg hcount]
      exact ih h (hdeleting.counted hcount)

/-- **`delete_mmaps` keeps frames sound** when the pages of the entries that it may try to unmap are
exclusive. -/
theorem deleteMmaps_unmapping (h : Unmapping p E D R s)
    (hexclusive : ∀ i < (s.procs p).mmaps.total.toNat, Attempted (s.procs p).mmaps i →
      ∀ v ∈ entryPages ((s.procs p).mmaps i), E (s.procs p).pgdir v) :
    Triple (· = s) (deleteMmaps p)
      (fun _ t ↦ Unmapping p E D R t ∧ (tableFrame p).rel s t)
      fun _ t ↦ Unmapping p E D R t ∧ (tableFrame p).rel s t := by
  refine .get_at ?_
  have hdeleting : Deleting (E (s.procs p).pgdir) (s.procs p).mmaps.total.toNat (s.procs p).mmaps :=
    ⟨le_refl _, fun _ ↦ hexclusive, fun hlt ↦ absurd hlt (lt_irrefl _)⟩
  refine .bind (deleteFrom_unmapping h _ hdeleting) fun _ ↦ .modify ?_
  rintro t ⟨hunmapping, hrel⟩
  have htable := tableFrame_setMmaps t p ((t.procs p).mmaps.setTotal 0)
  refine ⟨⟨frameSound_update hunmapping.sound rfl, hunmapping.accounted.of_tableFrame htable,
    ?_, ?_⟩, (tableFrame p).trans hrel htable⟩
  · simp only [update_self]
    exact hunmapping.pgdir_mem
  · simp only [update_self]
    exact sane_of_total_eq_zero (total_setTotal _ 0)

end Kernel

end Xv6Mmap
