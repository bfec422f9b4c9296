import Xv6Mmap.Machine.WriteBack

/-!
# What `my_munmap` and `delete_mmaps` do to page tables

The freeing loop of `my_munmap` clears the entries of the pages that it visits and puts the frames
behind them on the free list; everything else in the page tables stays.  `delete_mmaps` does this
for the entries of the region table from the first one on behind which no reference count is left.
-/

namespace Xv6Mmap

open Function Library Prog RegionTable BitVec Set

variable {N : ℕ} {u : Machine N}

/-- Only memory, free list and page tables have changed. -/
def Paged (s t : Machine N) : Prop :=
  t = { s with mem := t.mem, freelist := t.freelist, pgdirs := t.pgdirs }

theorem Paged.trans {s t : Machine N} (hst : Paged s t) (htu : Paged t u) : Paged s u := by
  rw [Paged] at htu
  rw [hst] at htu
  exact htu

/-- The state with the region table of `p` replaced. -/
def Machine.setTable (s : Machine N) (p : Fin N) (table : RegionTable) : Machine N :=
  { s with procs := update s.procs p { s.procs p with mmaps := table } }

/-- Since `s`, the entries of directory `d` at the pages of `V` have been cleared and the frames
behind them put on the free list. -/
structure Freed (d : Word) (V : Set Vpn) (s t : Machine N) : Prop where
  tabled : (t.pgdirs d).Tabled
  others : ∀ d' v, d' ≠ d ∨ v ∉ V → (t.pgdirs d').pte v = (s.pgdirs d').pte v
  tables : ∀ d', d' ≠ d → t.pgdirs d' = s.pgdirs d'
  pages : ∀ v ∈ V, (t.pgdirs d).pte v =
    if pteAddr ((s.pgdirs d).pte v) = 0 then (s.pgdirs d).pte v else 0
  freed : ∀ v ∈ V, pteAddr ((s.pgdirs d).pte v) ≠ 0 → pteAddr ((s.pgdirs d).pte v) ∈ t.freelist
  free : ∀ f ∈ s.freelist, f ∈ t.freelist

namespace Freed

variable {d : Word} {V W : Set Vpn} {s t u : Machine N}

theorem of_quiet (h : Quiet s t) (htabled : (s.pgdirs d).Tabled) : Freed d ∅ s t where
  tabled := h.pgdirs ▸ htabled
  others d' v _ := by rw [h.pgdirs]
  tables d' _ := by rw [h.pgdirs]
  pages v hv := absurd hv (notMem_empty v)
  freed v hv := absurd hv (notMem_empty v)
  free f hf := h.freelist.symm ▸ hf

theorem trans (hst : Freed d V s t) (htu : Freed d W t u) : Freed d (V ∪ W) s u where
  tabled := htu.tabled
  others d' v hout := by
    have hV : d' ≠ d ∨ v ∉ V := hout.imp_right fun h hv ↦ h (mem_union_left W hv)
    have hW : d' ≠ d ∨ v ∉ W := hout.imp_right fun h hv ↦ h (mem_union_right V hv)
    rw [htu.others d' v hW, hst.others d' v hV]
  tables d' hne := (htu.tables d' hne).trans (hst.tables d' hne)
  pages v hv := by
    have hzero : pteAddr 0 = 0 := by decide
    by_cases hV : v ∈ V
    · grind [hst.pages, htu.pages, htu.others]
    · have hW : v ∈ W := hv.resolve_left hV
      rw [htu.pages v hW, hst.others d v (.inr hV)]
  freed v hv haddr := by
    by_cases hV : v ∈ V
    · exact htu.free _ (hst.freed v hV haddr)
    · have hsame := hst.others d v (.inr hV)
      rw [← hsame] at haddr ⊢
      exact htu.freed v (hv.resolve_left hV) haddr
  free f hf := htu.free f (hst.free f hf)

/-- Of the state before, page tables and free list are all that matters. -/
theorem congr (h : Freed d V t u) (hdirs : t.pgdirs = s.pgdirs) (hfree : t.freelist = s.freelist) :
    Freed d V s u := by
  obtain ⟨htabled, hothers, htables, hpages, hfreed, hkept⟩ := h
  rw [hdirs] at hothers htables hpages hfreed
  rw [hfree] at hkept
  exact ⟨htabled, hothers, htables, hpages, hfreed, hkept⟩

/-- An entry that is not among the freed ones, or that is zero. -/
theorem pte_cases (h : Freed d V s t) (v : Vpn) :
    (t.pgdirs d).pte v = (s.pgdirs d).pte v ∨
      v ∈ V ∧ (t.pgdirs d).pte v = 0 ∧ pteAddr ((s.pgdirs d).pte v) ∈ t.freelist := by
  grind [h.pages, h.freed, h.others]

/-- A page that still holds a frame has not been visited by the freeing loop. -/
theorem notMem_of_present {v : Vpn} (h : Freed d V s t)
    (hpresent : ((t.pgdirs d).pte v).has pteP = true) (haddr : pteAddr ((t.pgdirs d).pte v) ≠ 0) :
    v ∉ V := by
  intro hin
  have hpage := h.pages v hin
  split at hpage
  · rename_i hzero
    exact haddr (hpage ▸ hzero)
  · rw [hpage, not_has_zero] at hpresent
    cases hpresent

end Freed

namespace Kernel

open Machine

variable {s t : Machine N} {p : Fin N} {d : Word} {m : ℕ}

/-! ## The freeing loop -/

/-- The pages that the freeing loop visits. -/
def pagesFrom (addr : Word) (n : ℕ) : Set Vpn := { v | ∃ k < n, v = pageFrom addr k }

theorem pagesFrom_succ (addr : Word) (n : ℕ) :
    pagesFrom addr (n + 1) = {vpn addr} ∪ pagesFrom (addr + pgSize) n := by
  ext v
  simp only [pagesFrom, mem_ofPred_eq, mem_union, mem_singleton_iff]
  have hzero : pageFrom addr 0 = vpn addr := by simp [pageFrom]
  constructor
  · rintro ⟨k, hk, rfl⟩
    cases k with
    | zero => exact .inl hzero
    | succ k => exact .inr ⟨k, by omega, (pageFrom_succ addr k).symm⟩
  · rintro (rfl | ⟨k, hk, rfl⟩)
    · exact ⟨0, by omega, hzero.symm⟩
    · exact ⟨k + 1, by omega, pageFrom_succ addr k⟩

theorem freed_page {v : Vpn} (htabled : (s.pgdirs d).Tabled)
    (htable : ((s.pgdirs d).tabs v.pdx).isSome = true) (haddr : pteAddr ((s.pgdirs d).pte v) ≠ 0) :
    Triple (· = s) (do kfree (pteAddr ((s.pgdirs d).pte v)); writePte d v 0 : Kernel N Unit)
      (fun _ t ↦ Freed d {v} s t ∧ Paged s t) fun e _ ↦ e = .panic := by
  rintro t rfl
  rw [bind_apply, kfree_apply]
  by_cases hbad : (pteAddr ((t.pgdirs d).pte v) % pgSize != 0 ||
      pteAddr ((t.pgdirs d).pte v) < t.kend || physTop ≤ pteAddr ((t.pgdirs d).pte v)) = true
  · rw [if_pos hbad]
  · rw [if_neg hbad]
    dsimp only
    rw [writePte_apply]
    refine ⟨⟨?_, ?_, ?_, ?_, ?_, ?_⟩, rfl⟩
    · rw [Machine.setPte]
      simp only [update_self]
      exact htabled.withPte htable 0
    · intro d' v' hne
      rw [pte_setPte_of_ne _ _ hne]
    · intro d' hne
      rw [Machine.setPte]
      simp only [update_of_ne hne]
    · rintro v' rfl
      rw [pte_setPte_self, if_neg haddr]
    · rintro v' rfl _
      exact List.mem_cons_self
    · exact fun f hf ↦ List.mem_cons_of_mem _ hf

/-- **The freeing loop of `my_munmap`.** -/
theorem freeRange_freed (n : ℕ) (addr : Word) (htabled : (s.pgdirs d).Tabled) :
    Triple (· = s) (freeRange d addr n)
      (fun _ t ↦ Freed d (pagesFrom addr n) s t ∧ Paged s t) fun e _ ↦ e = .panic := by
  induction n generalizing addr s with
  | zero =>
    refine .pure_at ?_
    have hnone : pagesFrom addr 0 = ∅ := by
      ext v
      simp [pagesFrom]
    rw [hnone]
    exact ⟨.of_quiet (.refl s) htabled, rfl⟩
  | succ n ih =>
    have hrest {u : Machine N} (hpage : Freed d {vpn addr} s u) (hpaged : Paged s u) :
        Triple (· = u) (freeRange d (addr + pgSize) n)
          (fun _ t ↦ Freed d (pagesFrom addr (n + 1)) s t ∧ Paged s t)
          fun e _ ↦ e = .panic := by
      refine (ih (addr + pgSize) hpage.tabled).post ?_ fun _ _ ↦ id
      rintro _ t ⟨ht, hpaged'⟩
      rw [pagesFrom_succ]
      exact ⟨hpage.trans ht, hpaged.trans hpaged'⟩
    have hskip (haddr : pteAddr ((s.pgdirs d).pte (vpn addr)) = 0) : Freed d {vpn addr} s s := by
      refine ⟨htabled, fun _ _ _ ↦ rfl, fun _ _ ↦ rfl, ?_, ?_, fun _ ↦ id⟩
      · rintro v rfl
        rw [if_pos haddr]
      · rintro v rfl hne
        exact absurd haddr hne
    rintro t rfl
    rw [freeRange, bind_of_ok (getPhysicalPage_apply d addr t)]
    by_cases htable : ((t.pgdirs d).tabs (vpn addr).pdx).isSome = true
    · rw [if_pos htable]
      dsimp only
      by_cases haddr : pteAddr ((t.pgdirs d).pte (vpn addr)) = 0
      · rw [if_pos haddr]
        exact hrest (hskip haddr) rfl t rfl
      · rw [if_neg haddr]
        have hboth := Triple.bind (freed_page htabled htable haddr) fun _ ↦
          .of_forall fun u hu ↦ hrest hu.1 hu.2
        rw [bind_assoc_prog] at hboth
        exact hboth t rfl
    · rw [if_neg htable]
      have hzero : (t.pgdirs d).pte (vpn addr) = 0 := htabled _ (by simpa using htable)
      refine hrest (hskip ?_) rfl t rfl
      rw [hzero]
      decide

/-! ## `my_munmap` -/

theorem pagesFrom_entry (mr : MmapRegion) :
    pagesFrom mr.virtAddr (unmapCount mr.size (pgRoundUp mr.size)) = entryPages mr := rfl

/-- Unmapping the whole of a region goes over its pages. -/
theorem mem_entryPages {mr : MmapRegion} (h : mr.region.Placed) {v : Vpn} :
    v ∈ entryPages mr ↔ ∃ k < mr.region.pageCount, mr.region.page k = v := by
  have hcount : unmapCount mr.size (pgRoundUp mr.size) = mr.region.pageCount := by
    have hpages := h.pages_eq
    have htop := h.hi_le
    have hbase : 0x60000000 ≤ mr.region.virtAddr.toNat := h.base_le
    have hdef : mr.region.pageCount = (mr.size.toNat + 4095) / 4096 := rfl
    have hround : (pgRoundUp mr.size).toNat = pageCeil mr.size.toNat :=
      toNat_pgRoundUp_of_le (by omega)
    have hceil : pageCeil mr.size.toNat = 4096 * mr.region.pageCount := by
      rw [pageCeil, hdef]
      omega
    rw [unmapCount]
    split
    · rw [count_eq_toNat (by omega)]
      exact hdef.symm
    · rw [count_eq_toNat (by omega), hround, hceil]
      omega
  rw [entryPages, hcount]
  constructor
  · rintro ⟨k, hk, rfl⟩
    exact ⟨k, hk, rfl⟩
  · rintro ⟨k, hk, rfl⟩
    exact ⟨k, hk, rfl⟩

/-- The pages that the write-back of the entry found by `my_munmap(addr, size)` may fault in. -/
def munmapPages (s : Machine N) (p : Fin N) (addr : Word) (d : Word) (v : Vpn) : Prop :=
  d = (s.procs p).pgdir ∧ ∃ i < (s.procs p).mmaps.total.toNat,
    (s.procs p).mmaps.findEntry (pgRoundUp addr) = some i ∧
    MmapRegion.writesBack ((s.procs p).mmaps i) = true ∧
    ∃ k < ((s.procs p).mmaps i).region.pageCount, ((s.procs p).mmaps i).region.page k = v

/-- What `my_munmap(addr, size)` comes to: it fails after a write-back, or it has freed pages and
dropped an entry. -/
def Unmapped (s : Machine N) (p : Fin N) (addr size : Word) (t : Machine N) : Prop :=
  Growing (munmapPages s p addr) s t ∨
    ∃ i u w, (s.procs p).mmaps.findEntry (pgRoundUp addr) = some i ∧
      i < (s.procs p).mmaps.total.toNat ∧ Growing (munmapPages s p addr) s u ∧
      Freed (s.procs p).pgdir
        (pagesFrom addr (unmapCount ((s.procs p).mmaps i).size (pgRoundUp size))) u w ∧
      w.procs = u.procs ∧
      t = w.setTable p ((w.procs p).mmaps.dropEntry i (pgRoundUp size))

/-- A byte of a region is on one of its pages. -/
theorem vpn_byte {r : Region} (h : r.Placed) {j : ℕ} (hj : j < r.size.toNat) :
    j / 4096 < r.pageCount ∧ r.page (j / 4096) = vpn (r.virtAddr + BitVec.ofNat 32 j) := by
  have hpages := h.pages_eq
  have htop := h.hi_le
  have haligned : r.virtAddr.toNat % 4096 = 0 := h.aligned
  have hdef : r.pageCount = (r.size.toNat + 4095) / 4096 := rfl
  have hk : j / 4096 < r.pageCount := by omega
  refine ⟨hk, eq_of_toNat_eq ?_⟩
  rw [h.toNat_page hk, toNat_vpn, toNat_add, toNat_ofNat]
  omega

theorem myMunmap_unmapped {addr size : Word} (hwell : (s.procs p).mmaps.WellFormed)
    (hlive : ∀ i, (s.procs p).mmaps.findEntry (pgRoundUp addr) = some i →
      ((s.procs p).mmaps i).size ≠ 0 → i < (s.procs p).mmaps.total.toNat)
    (htabled : ∀ d, (s.pgdirs d).Tabled) :
    Triple (· = s) (myMunmap p addr size) (fun _ ↦ Unmapped s p addr size)
      fun e t ↦ e.sleeps = true → Growing (munmapPages s p addr) s t := by
  have hstart : Growing (munmapPages s p addr) s s := ⟨.refl htabled, procFrame.refl s⟩
  refine .get_at ?_
  dsimp only
  cases hfound : (s.procs p).mmaps.findEntry (pgRoundUp addr) with
  | none =>
    refine .pure_at ?_
    exact .inl hstart
  | some i =>
    dsimp only
    by_cases hsize : ((s.procs p).mmaps i).size = 0
    · rw [if_pos hsize]
      refine .pure_at ?_
      exact .inl hstart
    · rw [if_neg hsize]
      have hi := hlive i hfound hsize
      have hplaced := hwell.placed_at hi
      have hwrite : Keeps (Growing (munmapPages s p addr) s)
          (writeBack p ((s.procs p).mmaps i)) := by
        by_cases hback : MmapRegion.writesBack ((s.procs p).mmaps i) = true
        · refine keeps_writeBack_growing fun j hj ↦ .inr ⟨rfl, i, hi, hfound, hback, ?_⟩
          obtain ⟨hk, hpage⟩ := vpn_byte hplaced (hj.trans_le (count_le_toNat _))
          exact ⟨j / 4096, hk, hpage⟩
        · rw [writeBack, if_neg hback]
          exact .pure fun _ ↦ id
      refine ((hwrite.post (fun _ _ ↦ id) fun _ _ ↦ id).at_state hstart).seq (fun _ t ht _ ↦ ht)
        fun written ↦ ?_
      cases written with
      | false => exact .pure fun t ht ↦ .inl ht
      | true =>
        rw [if_pos rfl]
        refine .of_forall fun t ht ↦ ?_
        refine (freeRange_freed _ addr (ht.1.tabled _)).seq ?_ fun _ ↦ .modify_bind
          fun w hw ↦ .pure ?_
        · rintro e _ rfl hstuck
          cases hstuck
        · rintro x rfl
          exact .inr ⟨i, t, w, hfound, hi, ht, hw.1, by rw [hw.2], rfl⟩

/-! ## `delete_mmaps` -/

/-- Unmapping an entry whose write-back goes through. -/
theorem myMunmap_entry (hwell : (s.procs p).mmaps.WellFormed) {n : ℕ}
    (hn : n < (s.procs p).mmaps.total.toNat) (htabled : (s.pgdirs (s.procs p).pgdir).Tabled)
    (hwrites : MmapRegion.writesBack ((s.procs p).mmaps n) = true →
      WritesThrough s p ((s.procs p).mmaps n)) :
    Triple (· = s)
      (myMunmap p ((s.procs p).mmaps n).virtAddr ((s.procs p).mmaps n).size)
      (fun _ t ↦ Freed (s.procs p).pgdir (entryPages ((s.procs p).mmaps n)) s t ∧ FilesKept s t ∧
        t.procs = update s.procs p { s.procs p with
          mmaps := (s.procs p).mmaps.dropEntry n (pgRoundUp ((s.procs p).mmaps n).size) })
      fun e t ↦ e.sleeps = true → Quiet s t := by
  have hplaced := hwell.placed_at hn
  have hround : pgRoundUp ((s.procs p).mmaps n).virtAddr = ((s.procs p).mmaps n).virtAddr :=
    hplaced.within.pgRoundUp_virtAddr
  have hfound : (s.procs p).mmaps.findEntry (pgRoundUp ((s.procs p).mmaps n).virtAddr) = some n := by
    rw [hround]
    exact hwell.findEntry_live hn
  refine .get_at ?_
  dsimp only
  rw [hfound]
  dsimp only
  rw [if_neg (show ((s.procs p).mmaps n).size ≠ 0 from hplaced.size_ne_zero)]
  refine (writeBack_quiet hwrites).seq (fun _ t ht _ ↦ ht) fun written ↦ .of_forall ?_
  rintro t ⟨rfl, hquiet, hfiles⟩
  rw [if_pos rfl]
  have htabled' : (t.pgdirs (s.procs p).pgdir).Tabled := hquiet.pgdirs ▸ htabled
  refine (freeRange_freed _ _ htabled').seq ?_ fun _ ↦ .modify_bind fun w hw ↦ .pure ?_
  · rintro e _ rfl hstuck
    cases hstuck
  · rintro x rfl
    obtain ⟨hfreed, hpaged⟩ := hw
    have hall := (Freed.of_quiet hquiet htabled).trans hfreed
    rw [empty_union, pagesFrom_entry] at hall
    have hprocs : w.procs = s.procs := by
      rw [hpaged]
      exact hquiet.procs
    refine ⟨{ hall with }, ⟨?_, ?_⟩, ?_⟩
    · rw [hpaged]
      exact hfiles.files
    · rw [hpaged]
      exact hfiles.grows
    · simp only [hprocs]

/-- The pages of the entries from `m` on. -/
def pagesAbove (t : RegionTable) (m : ℕ) : Set Vpn :=
  { v | ∃ j, m ≤ j ∧ j < t.total.toNat ∧ v ∈ entryPages (t j) }

theorem pagesAbove_succ {t : RegionTable} (hm : m < t.total.toNat) :
    pagesAbove t (m + 1) ∪ entryPages (t m) = pagesAbove t m := by
  ext v
  constructor
  · rintro (⟨j, hj, hlt, hv⟩ | hv)
    · exact ⟨j, by omega, hlt, hv⟩
    · exact ⟨m, le_rfl, hm, hv⟩
  · rintro ⟨j, hj, hlt, hv⟩
    rcases hj.lt_or_eq with hlt' | rfl
    · exact .inl ⟨j, hlt', hlt, hv⟩
    · exact .inr hv

/-- `delete_mmaps(p)` has unmapped the entries from `m` on, none of which is counted. -/
structure FreedAbove (s : Machine N) (p : Fin N) (m : ℕ) (t : Machine N) : Prop where
  le_total : m ≤ (s.procs p).mmaps.total.toNat
  uncounted : Uncounted (s.procs p).mmaps m
  freed : Freed (s.procs p).pgdir (pagesAbove (s.procs p).mmaps m) s t
  others : ∀ q, q ≠ p → t.procs q = s.procs q
  proc : t.procs p = { s.procs p with mmaps := (t.procs p).mmaps }

/-- The loop of `delete_mmaps` after the entries from `m` on have been unmapped. -/
structure DeletedTo (s : Machine N) (p : Fin N) (m : ℕ) (t : Machine N) : Prop
    extends FreedAbove s p m t where
  files : FilesKept s t
  wellFormed : (t.procs p).mmaps.WellFormed
  total : (t.procs p).mmaps.total.toNat = m
  same : ∀ j < m, (t.procs p).mmaps j = (s.procs p).mmaps j

theorem FreedAbove.of_quiet (h : FreedAbove s p m t) (hquiet : Quiet t u) :
    FreedAbove s p m u := { h with
  freed := by
    have hall := h.freed.trans (.of_quiet hquiet h.freed.tabled)
    rwa [union_empty] at hall
  others q hq := by
    rw [hquiet.procs]
    exact h.others q hq
  proc := by
    rw [hquiet.procs]
    exact h.proc }

/-- The pages of an entry below `m` are as they were. -/
theorem DeletedTo.writesThrough {n : ℕ} (h : DeletedTo s p m t)
    (hwell : (s.procs p).mmaps.WellFormed) (hn : n < m)
    (hwrites : WritesThrough s p ((s.procs p).mmaps n)) :
    WritesThrough t p ((s.procs p).mmaps n) := by
  have hpgdir : (t.procs p).pgdir = (s.procs p).pgdir := by rw [h.proc]
  have hn' : n < (s.procs p).mmaps.total.toNat := hn.trans_le h.le_total
  refine hwrites.mono h.files fun j hj hpresent ↦ ?_
  obtain ⟨hk, hpage⟩ := vpn_byte (hwell.placed_at hn') (hj.trans_le (count_le_toNat _))
  have hout : vpn (((s.procs p).mmaps n).virtAddr + BitVec.ofNat 32 j) ∉
      pagesAbove (s.procs p).mmaps m := by
    rintro ⟨i, hi, hlt, hv⟩
    obtain ⟨l, hl, heq⟩ := (mem_entryPages (hwell.placed_at hlt)).mp hv
    have hsame := (hwell.page_injective hn' hlt hk hl (hpage.trans heq.symm)).1
    omega
  rw [present, hpgdir, h.freed.others _ _ (.inr hout)]
  exact hpresent

/-- One more entry has been unmapped. -/
theorem DeletedTo.dropped {n : ℕ} (h : DeletedTo s p (n + 1) t)
    (hcount : ((s.procs p).mmaps n).refCount = 0)
    (hfreed : Freed (t.procs p).pgdir (entryPages ((t.procs p).mmaps n)) t u)
    (hfiles : FilesKept t u) (hprocs : u.procs = update t.procs p { t.procs p with
      mmaps := (t.procs p).mmaps.dropEntry n (pgRoundUp ((t.procs p).mmaps n).size) }) :
    DeletedTo s p n u := by
  have hpgdir : (t.procs p).pgdir = (s.procs p).pgdir := by rw [h.proc]
  have hn : n < (t.procs p).mmaps.total.toNat := by
    rw [h.total]
    exact Nat.lt_succ_self n
  have hsize : ((t.procs p).mmaps n).size ≤ pgRoundUp ((t.procs p).mmaps n).size :=
    (h.wellFormed.placed_at hn).size_le_pgRoundUp
  have hself : u.procs p = { t.procs p with
      mmaps := (t.procs p).mmaps.dropEntry n (pgRoundUp ((t.procs p).mmaps n).size) } := by
    rw [hprocs, update_self]
  have hle := h.le_total
  have hbound := h.wellFormed.total_le
  have htotal := (dropEntry_live_of_le h.wellFormed hn hsize).1
  have hlast := h.total
  refine ⟨⟨by omega, ?_, ?_, ?_, ?_⟩, ?_, ?_, ?_, ?_⟩
  · intro j hj hlt
    rcases hj.lt_or_eq with hj | rfl
    · exact h.uncounted j hj hlt
    · exact hcount
  · grind [h.same, h.freed.trans, pagesAbove_succ]
  · intro q hq
    rw [hprocs, update_of_ne hq]
    exact h.others q hq
  · rw [hself, h.proc]
  · refine ⟨fun g ↦ ?_, fun ip ↦ (h.files.grows ip).trans (hfiles.grows ip)⟩
    rw [(hfiles.files g).1, (hfiles.files g).2]
    exact h.files.files g
  · rw [hself]
    exact dropEntry_wellFormed h.wellFormed hn (pgRoundUp_mod _)
  · rw [hself]
    dsimp only
    omega
  · intro j hj
    rw [hself]
    dsimp only
    rw [dropEntry_of_lt hsize hj (by omega)]
    exact h.same j (by omega)

/-- Where `delete_mmaps(p)` stops: the entry below `m` is counted. -/
def StopsAt (t : RegionTable) (m : ℕ) : Prop := ∀ j : ℕ, m = j + 1 → (t j).refCount ≠ 0

theorem StopsAt.le {t : RegionTable} {i : ℕ} (h : StopsAt t m) (hm : m ≤ t.total.toNat)
    (hi : Uncounted t i) : m ≤ i := by
  cases m with
  | zero => exact Nat.zero_le i
  | succ j =>
    by_contra hlt
    exact h j rfl (hi j (by omega) (by omega))

/-- Every write-back of `delete_mmaps(p)` goes through. -/
def WritesOut (s : Machine N) (p : Fin N) : Prop :=
  ∀ i < (s.procs p).mmaps.total.toNat, Uncounted (s.procs p).mmaps i →
    MmapRegion.writesBack ((s.procs p).mmaps i) = true → WritesThrough s p ((s.procs p).mmaps i)

theorem WritesOut.congr (h : WritesOut s p) (hmmaps : (t.procs p).mmaps = (s.procs p).mmaps)
    (hpresent : ∀ addr, present t p addr = present s p addr) (hfiles : FilesKept s t) :
    WritesOut t p := by
  rw [WritesOut, hmmaps]
  exact fun i hi huncounted hback ↦ (h i hi huncounted hback).mono hfiles
    fun j _ hin ↦ (hpresent _).trans hin

/-- **The loop of `delete_mmaps`** when every write-back goes through. -/
theorem deleteFrom_freed (hwell : (s.procs p).mmaps.WellFormed)
    (hwrites : WritesOut s p) (n m : ℕ) (hn : n ≤ m) (hstop : n < m → StopsAt (s.procs p).mmaps m) :
    Triple (DeletedTo s p m) (deleteFrom p n)
      (fun _ t ↦ ∃ m, FreedAbove s p m t ∧ StopsAt (s.procs p).mmaps m)
      fun e t ↦ e.sleeps = true → ∃ m, FreedAbove s p m t := by
  induction n generalizing m with
  | zero =>
    refine .pure fun t ht ↦ ⟨m, ht.toFreedAbove, ?_⟩
    rcases Nat.eq_zero_or_pos m with rfl | hpos
    · intro j hj
      omega
    · exact hstop hpos
  | succ n ih =>
    rw [deleteFrom]
    refine .get_bind fun t ht ↦ ?_
    dsimp only
    have htotal : (t.procs p).mmaps.total - 1 = ((m - 1 : ℕ) : ℤ) := by
      have hcast := ht.wellFormed.natCast_total
      have hnat := ht.total
      omega
    have hlast : (t.procs p).mmaps ((t.procs p).mmaps.total - 1) = (s.procs p).mmaps (m - 1 : ℕ) := by
      rw [htotal]
      exact ht.same (m - 1) (by omega)
    rw [hlast]
    by_cases hcount : ((s.procs p).mmaps (m - 1 : ℕ)).refCount = 0
    · rw [if_pos hcount]
      have hm : m = n + 1 := by
        by_contra hne
        exact hstop (by omega) (m - 1) (by omega) hcount
      subst hm
      rw [Nat.add_sub_cancel] at hcount
      have hn' : n < (t.procs p).mmaps.total.toNat := by
        rw [ht.total]
        exact Nat.lt_succ_self n
      have hle := ht.le_total
      have huncounted : Uncounted (s.procs p).mmaps n := by
        intro j hj hlt
        rcases hj.lt_or_eq with hj | rfl
        · exact ht.uncounted j hj hlt
        · exact hcount
      have hpgdir : (t.procs p).pgdir = (s.procs p).pgdir := by rw [ht.proc]
      have hmunmap := myMunmap_entry ht.wellFormed hn' (by
        rw [hpgdir]
        exact ht.freed.tabled) (by
        rw [ht.same n (Nat.lt_succ_self n)]
        exact fun hback ↦ ht.writesThrough hwell (Nat.lt_succ_self n)
          (hwrites n (by omega) huncounted hback))
      refine hmunmap.seq ?_ fun _ ↦ ?_
      · exact fun _ u hu hstuck ↦ ⟨_, ht.toFreedAbove.of_quiet (hu hstuck)⟩
      · refine (ih n le_rfl fun hlt ↦ absurd hlt (lt_irrefl n)).pre ?_
        rintro u ⟨hfreed, hfiles, hprocs⟩
        exact ht.dropped hcount hfreed hfiles hprocs
    · rw [if_neg hcount]
      refine (ih m (by omega) fun _ ↦ ?_).at_state ht
      intro j hj
      obtain rfl : j = m - 1 := by omega
      exact hcount

/-- **`delete_mmaps` when every write-back goes through**: the pages of the entries from which on
none is counted are freed. -/
theorem deleteMmaps_freed (hwell : (s.procs p).mmaps.WellFormed)
    (htabled : (s.pgdirs (s.procs p).pgdir).Tabled) (hwrites : WritesOut s p) :
    Triple (· = s) (deleteMmaps p)
      (fun _ t ↦ ∃ m, FreedAbove s p m t ∧ StopsAt (s.procs p).mmaps m)
      fun e t ↦ e.sleeps = true → ∃ m, FreedAbove s p m t := by
  refine .get_at ?_
  have hnone : pagesAbove (s.procs p).mmaps (s.procs p).mmaps.total.toNat = ∅ := by
    ext v
    simp only [pagesAbove, mem_ofPred_eq, mem_empty_iff_false, iff_false]
    rintro ⟨j, hj, hlt, _⟩
    omega
  have hstart : DeletedTo s p (s.procs p).mmaps.total.toNat s := by
    refine ⟨⟨le_rfl, fun j hj hlt ↦ absurd hlt (by omega), ?_, fun _ _ ↦ rfl, rfl⟩,
      ⟨fun _ ↦ ⟨rfl, rfl⟩, fun _ ↦ .refl _⟩, hwell, rfl, fun _ _ ↦ rfl⟩
    rw [hnone]
    exact .of_quiet (.refl s) htabled
  have hloop := deleteFrom_freed hwell hwrites (s.procs p).mmaps.total.toNat _ le_rfl
    fun hlt ↦ absurd hlt (lt_irrefl _)
  refine .bind (hloop.at_state hstart) fun _ ↦ .modify ?_
  rintro t ⟨m, ht, hstop⟩
  refine ⟨m, ⟨ht.le_total, ht.uncounted, { ht.freed with }, ?_, ?_⟩, hstop⟩
  · intro q hq
    simp only [update_of_ne hq]
    exact ht.others q hq
  · simp only [update_self]
    rw [ht.proc]

end Kernel

end Xv6Mmap
