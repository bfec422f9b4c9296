import Xv6Mmap.Machine.FrameSound

/-!
# Page faults keep frames sound

A page fault maps a frame fresh from the free list, so it keeps every `FrameSound`, whatever pages
are exclusive.  So does writing a region back to its file, which may fault its pages in.
-/

namespace Xv6Mmap

open Library Prog BitVec List

variable {N : ℕ} {t : RegionTable} {s : Machine N}

namespace RegionTable

/-- The live regions have only permission bits in their protection words. -/
def Usable (t : RegionTable) : Prop := ∀ r ∈ t.live, r.protection.toNat < 4096

theorem usable_congr {t' : RegionTable} (h : ∀ i : ℕ, (t' i).region = (t i).region)
    (ht : t.Usable) : t'.Usable := by
  rw [Usable, (live_congr h).2]
  exact ht

theorem Usable.protection_lt (h : t.Usable) {i : ℕ} (hi : i < t.total.toNat) :
    (t i).protection.toNat < 4096 :=
  h (t i).region (mem_map.mpr ⟨i, mem_range.mpr hi, rfl⟩)

end RegionTable

/-- Process `p` has a page directory in use and a usable table. -/
def Ready (p : Fin N) (D : Set Word) (s : Machine N) : Prop :=
  (s.procs p).pgdir ∈ D ∧ (s.procs p).mmaps.Usable

theorem Ready.of_procFrame {p : Fin N} {D : Set Word} {s' : Machine N}
    (h : Ready p D s) (hrel : procFrame.rel s s') : Ready p D s' := by
  have hpgdir := pgdir_of_procFrame hrel p
  exact ⟨hpgdir ▸ h.1, RegionTable.usable_congr (fun i ↦ region_of_procFrame hrel p i) h.2⟩

/-- A property that only depends on what page faults leave alone is kept by them. -/
theorem respects_of_procFrame {C : Machine N → Prop} {α : Type} {c : Kernel N α}
    (h : Respects procFrame c) (hC : ∀ s s', procFrame.rel s s' → C s → C s') :
    Respects (.ofInvariant C) c :=
  fun s hs ↦ hC s _ (h s) hs

/-- Frames are sound and process `p` is ready to take page faults. -/
def Guarded (p : Fin N) (E : Word → Vpn → Prop) (D R : Set Word)
    (s : Machine N) : Prop :=
  FrameSound E D R s ∧ Ready p D s

namespace Kernel

variable {p : Fin N} {E : Word → Vpn → Prop} {D R : Set Word} {α : Type}
  {X : Halt → Machine N → Prop} {size protection addr : Word} {J : Machine N → Prop}

theorem ready_respects {c : Kernel N α} (h : Respects procFrame c) :
    Respects (.ofInvariant (Ready p D)) c :=
  respects_of_procFrame h fun _ _ hrel hs ↦ hs.of_procFrame hrel

theorem guarded_ioFrame : IoFrame (Frame.ofInvariant (Guarded p E D R)) := by
  have hsound := FrameSound.ioFrame (N := N) E D R
  exact
    { mem := fun s mem h ↦ ⟨hsound.mem s mem h.1, h.2⟩
      pagecache := fun s cache hpage h ↦ ⟨hsound.pagecache s cache hpage h.1, h.2⟩
      inodes := fun s inodes h ↦ ⟨hsound.inodes s inodes h.1, h.2⟩
      held := fun s held h ↦ ⟨hsound.held s held h.1, h.2⟩
      files := fun s files h ↦ ⟨hsound.files s files h.1, h.2⟩ }

theorem kalloc_bind {k : Option Word → Kernel N α} {Q : α → Machine N → Prop}
    (hnone : Triple (Guarded p E D R) (k none) Q X)
    (hsome : ∀ f, f ∉ R → Triple (Guarded p E D (insert f R)) (k (some f)) Q X) :
    Triple (Guarded p E D R) (kalloc >>= k) Q X := by
  have hkalloc := kalloc_allocated (N := N) (E := E) (D := D) (R := R)
    (C := Ready p D) fun _ _ h ↦ h
  refine hkalloc.seq (fun _ _ h ↦ h.elim) fun r ↦ ?_
  cases r with
  | none => exact hnone
  | some f =>
    refine .of_forall fun s hs ↦ ?_
    obtain ⟨⟨hsound, hfresh⟩, hready⟩ := hs
    exact (hsome f hfresh).at_state ⟨hsound, hready⟩

theorem Guarded.drop {f : Word} (h : Guarded p E D (insert f R) s) : Guarded p E D R s :=
  ⟨h.1.mono (subset_refl D) (Set.subset_insert f R), h.2⟩

/-! ## Page faults -/

/-- A size of at most a page is mapped in one round. -/
theorem mapsize_eq (hsize : size.toNat ≤ 4096) :
    (if size.slt pgSize then size else pgSize) = size := by
  split
  · rfl
  · rename_i hlarge
    rw [slt_eq_decide, decide_eq_true_eq, not_lt, show pgSize.toInt = 4096 from rfl,
      toInt_eq_toNat_of_lt (by omega)] at hlarge
    apply eq_of_toNat_eq
    rw [show pgSize.toNat = 4096 from rfl]
    omega

/-- What one round of the copy loop takes from a cached page. -/
def fillChunk (offset tempsize : Word) : Word :=
  if tempsize.slt (pgSize - offset.srem pgSize) then tempsize else pgSize - offset.srem pgSize

theorem toInt_srem_pgSize (offset : Word) :
    -4096 < (offset.srem pgSize).toInt ∧ (offset.srem pgSize).toInt < 4096 := by
  rw [toInt_srem, show pgSize.toInt = 4096 from rfl]
  have hhigh := Int.tmod_lt_of_pos offset.toInt (by decide : (0 : ℤ) < 4096)
  have hlow := Int.tmod_lt_of_pos (-offset.toInt) (by decide : (0 : ℤ) < 4096)
  rw [Int.neg_tmod] at hlow
  exact ⟨by omega, hhigh⟩

theorem fillChunk_le (offset : Word) (hsize : size.toNat ≤ 4096) :
    (fillChunk offset size).toNat ≤ size.toNat ∧
      (0 < size.toNat → 0 < (fillChunk offset size).toNat) := by
  have hrange := toInt_srem_pgSize offset
  rw [fillChunk]
  generalize offset.srem pgSize = curroff at hrange ⊢
  split
  · exact ⟨le_rfl, id⟩
  · rename_i hle
    rw [slt_eq_decide, decide_eq_true_eq, not_lt, toInt_eq_toNat_cond,
      toInt_eq_toNat_cond, toNat_sub, show pgSize.toNat = 4096 from rfl] at hle
    rw [toInt_eq_toNat_cond] at hrange
    rw [toNat_sub, show pgSize.toNat = 4096 from rfl]
    omega

/-- **Filling a page** takes at most two copies, the second one from offset `PGSIZE` of the file. -/
theorem fillPage_cases {ip : InodeRef} {dest offset : Word} {M Q : Machine N → Prop}
    (hsize : size.toNat ≤ 4096)
    (hnone : ∀ s, J s → size = 0 ∨ (s.inodes ip).size < offset.srem pgSize → Q s)
    (hfirst : Triple J (copyPage ip offset dest (fillChunk offset size) (offset.srem pgSize))
      (fun _ ↦ M) X) (hdone : fillChunk offset size = size → ∀ s, M s → Q s)
    (hsecond : fillChunk offset size ≠ size → Triple M
      (copyPage ip pgSize (dest + fillChunk offset size) (size - fillChunk offset size) 0)
      (fun _ ↦ Q) X) :
    Triple J (fillPage ip (size.toNat + 1) dest offset 0 size) (fun _ ↦ Q) X := by
  obtain ⟨hle, hsome⟩ := fillChunk_le offset hsize
  rw [fillPage]
  split
  · rename_i hzero
    exact .pure fun s hs ↦ hnone s hs (.inl hzero)
  · rename_i hpos
    refine .get_bind fun s hs ↦ ?_
    split
    · rename_i hpast
      exact .pure fun t ht ↦ ht ▸ hnone s hs (.inr hpast)
    · rw [show offset + pgSize * 0 = offset from BitVec.add_zero offset]
      refine .bind (hfirst.at_state hs) fun _ ↦ ?_
      change Triple M (fillPage ip size.toNat (dest + fillChunk offset size) 0 1
        (size - fillChunk offset size)) _ _
      generalize fillChunk offset size = chunk at hle hsome hdone hsecond ⊢
      have hne : size.toNat ≠ 0 := fun hzero ↦ hpos (eq_of_toNat_eq hzero)
      have hleft : (size - chunk).toNat = size.toNat - chunk.toNat := toNat_sub_of_le hle
      have hend (n : ℕ) (dest i : Word) (K : Machine N → Prop) (hK : ∀ s, K s → Q s) :
          Triple K (fillPage ip (n + 1) dest 0 i 0) (fun _ ↦ Q) X := by
        rw [fillPage, if_pos rfl]
        exact .pure hK
      by_cases hall : chunk = size
      · obtain ⟨n, hn⟩ := Nat.exists_eq_succ_of_ne_zero hne
        rw [hall, hn, BitVec.sub_self]
        exact hend _ _ _ M (hdone hall)
      · have hrest : (size - chunk).toNat ≠ 0 := fun hzero ↦
          hall (eq_of_toNat_eq (by omega))
        -- At least one byte is copied in each round, so the counter lasts.
        obtain ⟨n, hn⟩ : ∃ n, size.toNat = n + 2 := ⟨size.toNat - 2, by omega⟩
        rw [hn, fillPage, if_neg fun hzero ↦ hrest (congrArg BitVec.toNat hzero)]
        refine .get_bind fun u hu ↦ ?_
        have hinside : ¬ (u.inodes ip).size < 0 := Nat.not_lt_zero _
        rw [show (0 : Word).srem pgSize = 0 from rfl, if_neg hinside,
          show pgSize - 0 = pgSize from rfl, mapsize_eq (by omega), BitVec.sub_self]
        exact .bind ((hsecond hall).at_state hu) fun _ ↦ hend _ _ _ Q fun _ ↦ id

/-- **`mmap_store_data` of at most one page** maps one page of its kind, or does nothing. -/
theorem mmapStoreData_cases {P : Machine N → Prop} {M Q : Word → Machine N → Prop}
    {va flags perm f offset : Word} (hsize : size.count ≤ 4096)
    (hnone : size.count = 0 → ∀ r t, P t → Q r t)
    (hanon : flags.has mapAnonymous = true → Triple P (mapAnonPage p va perm) M X)
    (hfile : flags.has mapAnonymous = false → size.toNat ≤ 4096 →
      Triple P (mapPagecachePageUtil p f va perm offset size) M X)
    (hfail : ∀ r t, M r t → r.slt 0 = true → Q (-1) t)
    (hdone : ∀ r r' t, M r t → r.slt 0 = false → Q r' t) :
    Triple P (mmapStoreData p va size flags perm f offset) Q X := by
  have hresult {I : Machine N → Prop} (hI : ∀ r t, I t → Q r t) (b : Prop) [Decidable b] :
      Triple I (if b then return -1 else return 0 : Kernel N Word) Q X := by
    split
    · exact .pure (hI _)
    · exact .pure (hI _)
  rw [mmapStoreData, mapAnonMain, mapPagecachePage]
  by_cases hzero : size.count = 0
  · rw [hzero]
    split
    · exact hresult (hnone hzero) _
    · exact hresult (hnone hzero) _
  · have hnat : size.toNat ≤ 4096 := by
      rw [Word.count, toInt_eq_toNat_cond] at hsize hzero
      omega
    rw [show (size.count + 4095) / 4096 = 1 by omega, mapAnonPages, mapFilePages, mapsize_eq hnat,
      show va + 0 = va from BitVec.add_zero va, show offset + 0 = offset from BitVec.add_zero offset]
    have hpositive {r : Word} (h : ¬ r.slt 0 = true) (r' : Word) (t : Machine N) (ht : M r t) :=
      hdone r r' t ht (Bool.eq_false_of_not_eq_true h)
    split
    · rename_i hflag
      rw [bind_assoc_prog, bind_assoc_prog]
      refine .bind (hanon hflag) fun r ↦ ?_
      split
      · rename_i hneg
        exact .pure fun t ht ↦ hfail r t ht hneg
      · rename_i hneg
        exact hresult (hpositive hneg) _
    · rename_i hflag
      rw [bind_assoc_prog]
      refine .bind (hfile (Bool.eq_false_of_not_eq_true hflag) hnat) fun r ↦ ?_
      split
      · rename_i hneg
        exact .pure fun t ht ↦ hfail r t ht hneg
      · rename_i hneg
        exact hresult (hpositive hneg) _
theorem keeps_mapPagecachePageUtil {mmapaddr : Word} (haligned : mmapaddr.toNat % 4096 = 0)
    (hprotection : protection.toNat < 4096) (f offset size : Word) :
    Keeps (Guarded p E D R) (mapPagecachePageUtil p f mmapaddr protection offset size) := by
  refine kalloc_bind (.pure fun _ ↦ id) fun temp htemp ↦ ?_
  have hio := guarded_ioFrame (p := p) (E := E) (D := D) (R := insert temp R)
  have hdrop (e : Halt) (s : Machine N) (hs : Guarded p E D (insert temp R) s) :
      Guarded p E D R s := Guarded.drop hs
  have hmemset := Triple.of_respects (respects_memset hio.toCacheFrame temp 0 4096)
  refine hmemset.seq hdrop fun _ ↦ .get_bind fun s hs ↦ ?_
  have hfill := Triple.of_respects
    (respects_fillPage hio.toCacheFrame (s.files f).ip (size.toNat + 1) temp offset 0 size)
  refine (hfill.at_state hs).seq hdrop fun _ ↦ ?_
  rw [mappages_page haligned]
  have hmap := (mapPage_reserved (N := N) (E := E) hs.2.1 htemp hprotection mmapaddr).carry
    (ready_respects (p := p) (D := D)
      (respects_mapPage (pagingFrame_procFrame p).toMapFrame _ _ temp protection))
  refine hmap.seq (fun _ _ ↦ id) fun mapped ↦ ?_
  cases mapped with
  | true => exact .pure fun t ht ↦ ht
  | false => exact .pure fun t ht ↦ Guarded.drop ht

theorem aligned_add {a b : Word} (ha : a.toNat % 4096 = 0) (hb : b.toNat % 4096 = 0) :
    (a + b).toNat % 4096 = 0 := by
  rw [toNat_add]
  omega

/-- The `deallocuvm` of `map_anon_page` has its sizes the wrong way round and does nothing. -/
theorem deallocuvm_swapped {off : Word} (h : 4096 ≤ off.toNat) (pgdir : Word) :
    (deallocuvm pgdir (off - pgSize) off : Kernel N Word) = pure (off - pgSize) := by
  rw [deallocuvm, if_pos]
  rw [le_def, toNat_sub_of_le]
  · omega
  · rw [le_def]
    exact h

theorem keeps_mapAnonPage {off : Word} (haligned : off.toNat % 4096 = 0)
    (hlow : 4096 ≤ off.toNat) (hprotection : protection.toNat < 4096) :
    Keeps (Guarded p E D R) (mapAnonPage p off protection) := by
  refine kalloc_bind (.pure fun _ ↦ id) fun page hpage ↦ ?_
  have hio := guarded_ioFrame (p := p) (E := E) (D := D) (R := insert page R)
  have hmemset := Triple.of_respects (respects_memset hio.toCacheFrame page 0 4096)
  refine hmemset.seq (fun _ _ hs ↦ Guarded.drop hs) fun _ ↦ ?_
  refine .get_bind fun s hs ↦ ?_
  rw [mappages_page haligned, deallocuvm_swapped hlow]
  have hprocs := pagingFrame_procFrame p
  have hmap := (mapPage_reserved (N := N) (E := E) hs.2.1 hpage hprotection off).carry
    (ready_respects (p := p) (D := D) (respects_mapPage hprocs.toMapFrame _ _ page protection))
  refine (hmap.at_state hs).seq (fun _ _ ↦ id) fun mapped ↦ ?_
  cases mapped with
  | true => exact .pure fun t ht ↦ ht
  | false =>
    have hfree := (kfree_reserved (N := N) (E := E) (D := D) hpage).carry
      (ready_respects (p := p) (D := D) (respects_kfree hprocs.toMapFrame page))
    refine .bind (Q := fun _ ↦ Guarded p E D (insert page R))
      (.pure fun t ht ↦ ht) fun _ ↦ ?_
    exact .bind hfree fun _ ↦ .pure fun t ht ↦ ht

theorem keeps_mmapStoreData (haligned : addr.toNat % 4096 = 0) (hlow : 4096 ≤ addr.toNat)
    (hprotection : protection.toNat < 4096) (hsize : size.count ≤ 4096) (flags f offset : Word) :
    Keeps (Guarded p E D R) (mmapStoreData p addr size flags protection f offset) :=
  mmapStoreData_cases hsize (fun _ _ _ ht ↦ ht)
    (fun _ ↦ keeps_mapAnonPage haligned hlow hprotection)
    (fun _ _ ↦ keeps_mapPagecachePageUtil haligned hprotection f offset size)
    (fun _ _ ht _ ↦ ht) fun _ _ _ ht _ ↦ ht

/-- A change of a process that keeps its kernel stack does not concern its frames. -/
theorem frameSound_update {proc : Proc N}
    (h : FrameSound E D R s) (hstack : proc.kstack = (s.procs p).kstack) :
    FrameSound E D R { s with procs := Function.update s.procs p proc } := by
  grind [h.congr, Function.update_apply]

theorem keeps_kill : Keeps (Guarded p E D R) (kill p) := by
  have hready := ready_respects (p := p) (D := D)
    (respects_kill (pagingFrame_procFrame p).toMapFrame)
  intro s hs
  exact ⟨frameSound_update hs.1 rfl, hready s hs.2⟩

theorem keeps_addStored (i : ℕ) (n : Word) :
    Keeps (Guarded p E D R) (addStored p i n) := by
  have hready := ready_respects (p := p) (D := D)
    (respects_addStored (pagingFrame_procFrame p).toMapFrame i n)
  intro s hs
  exact ⟨frameSound_update hs.1 rfl, hready s hs.2⟩

theorem faultEntry_lt {i : ℕ} (h : faultEntry t addr = some i) :
    i < t.total.toNat :=
  mem_range.mp (mem_of_find?_eq_some h)

theorem count_le_of_toNat_le (h : size.toNat ≤ 4096) : size.count ≤ 4096 := by
  rw [Word.count, toInt_eq_toNat_of_lt (by omega)]
  omega

/-- The length of a shared page that `copy_maps` loads is a signed minimum. -/
theorem count_min_le (size : Word) : (if size.slt pgSize then size else pgSize).count ≤ 4096 := by
  split
  · rename_i hlt
    have hint : size.toInt < pgSize.toInt := by simpa [BitVec.slt] using hlt
    have hpage : pgSize.toInt = 4096 := rfl
    rw [Word.count]
    omega
  · decide

/-! ## The handler -/

/-- The size that the handler asks for when entry `mr` serves a fault. -/
def MmapRegion.faultSize (mr : MmapRegion) : Word :=
  if mr.size - mr.storedSize < pgSize then mr.size - mr.storedSize else pgSize

theorem MmapRegion.faultSize_le (mr : MmapRegion) : (faultSize mr).toNat ≤ 4096 := by
  rw [faultSize]
  split
  · rename_i hlt
    exact Nat.le_of_lt hlt
  · exact le_rfl

/-- Where in its file the page that holds an address of a region begins. -/
def MmapRegion.faultOffset (mr : MmapRegion) (addr : Word) : Word :=
  mr.offset + pgRoundDown addr - mr.virtAddr

/-- The call of `mmap_store_data` when entry `mr` serves a fault. -/
def serve (p : Fin N) (addr : Word) (mr : MmapRegion) : Kernel N Word :=
  mmapStoreData p (pgRoundDown addr) (MmapRegion.faultSize mr) mr.flags mr.protection mr.f
    (MmapRegion.faultOffset mr addr)

/-- **A page fault by what serving it does.**  The rest of the handler kills the process and charges
the entry. -/
theorem handlePageFault_cases {H : Halt → Machine N → Prop}
    (hs : J s) (hkill : Triple J (kill p) (fun _ ↦ J) H)
    (hadd : ∀ i : ℕ, faultEntry (s.procs p).mmaps addr = some i →
      Triple J (addStored p i pgSize) (fun _ ↦ J) H)
    (hserve : ∀ i : ℕ, faultEntry (s.procs p).mmaps addr = some i →
      Triple (· = s) (serve p addr ((s.procs p).mmaps i)) (fun _ ↦ J) H) :
    Triple (· = s) (handlePageFault p addr) (fun _ ↦ J) H := by
  refine .get_at ?_
  dsimp only
  cases hentry : faultEntry (s.procs p).mmaps addr with
  | none => exact hkill.at_state hs
  | some i =>
    refine .bind (Q := fun _ t ↦ t = s) ?_ fun found ↦ ?_
    · rintro t rfl
      rw [getPhysicalPage_apply]
    · split
      · exact hkill.at_state hs
      · refine .bind (hserve i hentry) fun r ↦ ?_
        split
        · exact .bind hkill fun _ ↦ hadd i hentry
        · exact hadd i hentry

/-- The page of a mapping address is not the first one. -/
theorem le_toNat_pgRoundDown (hbase : mmapBase ≤ addr) :
    (pgRoundDown addr).toNat % 4096 = 0 ∧ 4096 ≤ (pgRoundDown addr).toNat := by
  have hbase' : 0x60000000 ≤ addr.toNat := hbase
  rw [toNat_pgRoundDown]
  omega

theorem keeps_handlePageFault (hbase : mmapBase ≤ addr) :
    Keeps (Guarded p E D R) (handlePageFault p addr) := by
  obtain ⟨haligned, hlow⟩ := le_toNat_pgRoundDown hbase
  refine .of_forall fun s hs ↦ handlePageFault_cases hs keeps_kill
    (fun i _ ↦ keeps_addStored i _) fun i hentry ↦ ?_
  have hprotection := hs.2.2.protection_lt (faultEntry_lt hentry)
  have hsize := count_le_of_toNat_le (MmapRegion.faultSize_le ((s.procs p).mmaps i))
  exact (keeps_mmapStoreData haligned hlow hprotection hsize _ _ _).at_state hs

theorem keeps_loadKernel (addr : Word) : Keeps (Guarded p E D R) (loadKernel p addr) :=
  keeps_loadKernel_of_fault fun _ hs _ hbase ↦ (keeps_handlePageFault hbase).at_state hs

theorem keeps_writeBack (mr : MmapRegion) :
    Keeps (Guarded p E D R) (writeBack p mr) :=
  .of_respects
    (respects_writeBack guarded_ioFrame.toOffsetFrame (fun addr ↦ (keeps_loadKernel addr).respects) mr)

end Kernel

end Xv6Mmap
