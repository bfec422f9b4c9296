import Xv6Mmap.Machine.System
import Xv6Mmap.Region.Layout

/-!
# What the kernel functions change

A frame that allows a change of each component a group of functions writes is respected by the whole
group.  Reading through the page cache writes memory and the cache; a page fault also takes frames,
fills in page tables and updates the faulting process; writing a file back also changes files.
-/

namespace Xv6Mmap

open Function Library MmapRegion

variable {nproc : ℕ} {s : Machine nproc} {proc : Proc nproc}

/-- A frame that allows what reading through the page cache does. -/
structure CacheFrame (F : Frame (Machine nproc)) : Prop where
  mem : ∀ s mem, F.rel s { s with mem := mem }
  pagecache : ∀ s cache, (∀ i, (cache.pages i).page = (s.pagecache.pages i).page) →
    F.rel s { s with pagecache := cache }

namespace PageDir

/-- A new page directory. -/
def empty : PageDir := { tabs := fun _ ↦ none, pte := fun _ ↦ 0 }

/-- The directory with a new page-table page. -/
def withTable (dir : PageDir) (i : BitVec 10) (pgtab : Word) : PageDir :=
  { tabs := update dir.tabs i (some pgtab)
    pte := fun v ↦ if v.pdx = i then 0 else dir.pte v }

/-- The directory with one entry replaced. -/
def withPte (dir : PageDir) (v : Vpn) (pte : Word) : PageDir :=
  { dir with pte := update dir.pte v pte }

end PageDir

/-- The state with one page directory replaced. -/
def Machine.setDir (s : Machine nproc) (d : Word) (dir : PageDir) : Machine nproc :=
  { s with pgdirs := update s.pgdirs d dir }

/-- A frame that allows what mapping and freeing pages of `p` does.  An entry is only written where
there is a page-table page for it. -/
structure MapFrame (F : Frame (Machine nproc)) (p : Fin nproc) : Prop where
  mem : ∀ s mem, F.rel s { s with mem := mem }
  freelist : ∀ s frames, F.rel s { s with freelist := frames }
  reset : ∀ s d, F.rel s (s.setDir d PageDir.empty)
  table : ∀ s d i pgtab, F.rel s (s.setDir d ((s.pgdirs d).withTable i pgtab))
  entry : ∀ s d v pte, ((s.pgdirs d).tabs v.pdx).isSome = true →
    F.rel s (s.setDir d ((s.pgdirs d).withPte v pte))
  killed : ∀ s, F.rel s
    { s with procs := update s.procs p { s.procs p with killed := true } }
  storedSize : ∀ s (i : ℕ) n, F.rel s
    { s with procs := update s.procs p { s.procs p with
        mmaps := (s.procs p).mmaps.set i { (s.procs p).mmaps i with storedSize := n } } }

/-- A frame that allows what page faults of `p` do, through the page cache. -/
structure PagingFrame (F : Frame (Machine nproc)) (p : Fin nproc) : Prop
    extends CacheFrame F, MapFrame F p

/-- A frame that allows what writing files does, fetching the bytes apart. -/
structure IoFrame (F : Frame (Machine nproc)) : Prop extends CacheFrame F where
  inodes : ∀ s inodes, F.rel s { s with inodes := inodes }
  held : ∀ s held, F.rel s { s with held := held }
  files : ∀ s files, F.rel s { s with files := files }

/-- The same for a frame that looks at files: writing a file moves its offset only. -/
structure OffsetFrame (F : Frame (Machine nproc)) : Prop extends CacheFrame F where
  inodes : ∀ s inodes, F.rel s { s with inodes := inodes }
  held : ∀ s held, F.rel s { s with held := held }
  offset : ∀ s f off,
    F.rel s { s with files := update s.files f { s.files f with off := off } }

theorem IoFrame.toOffsetFrame {F : Frame (Machine nproc)} (h : IoFrame F) : OffsetFrame F :=
  { h.toCacheFrame with
    inodes := h.inodes
    held := h.held
    offset := fun s _ _ ↦ h.files s _ }

/-- A frame that allows what unmapping regions of `p` does. -/
structure UnmapFrame (F : Frame (Machine nproc)) (p : Fin nproc) : Prop
    extends PagingFrame F p, OffsetFrame F where
  mmaps : ∀ s table, F.rel s
    { s with procs := update s.procs p { s.procs p with mmaps := table } }

namespace Kernel

open Prog

variable {F : Frame (Machine nproc)} {p : Fin nproc} {I : Machine nproc → Prop}

/-! ## Reading through the page cache -/

theorem respects_bread (ip : InodeRef) (block : ℕ) :
    Respects F (bread ip block : Kernel nproc Unit) := by
  refine .get_bind fun s ↦ ?_
  split
  · exact .halt _
  · exact .pure _

theorem respects_readBlocks (hmem : ∀ s mem, F.rel s { s with mem := mem }) (ip : InodeRef) (n : ℕ)
    (dst : Word) (off left : ℕ) : Respects F (readBlocks ip n dst off left : Kernel nproc Unit) := by
  induction n generalizing dst off left with
  | zero => exact .pure _
  | succ n ih =>
    rw [readBlocks]
    split
    · exact .pure _
    · refine (respects_bread ip _).bind fun _ ↦ .get_bind fun s ↦ ?_
      exact .bind (.modify fun t ↦ hmem t _) fun _ ↦ ih _ _ _

theorem respects_readi (hmem : ∀ s mem, F.rel s { s with mem := mem }) (ip : InodeRef)
    (dst off n : Word) : Respects F (readi ip dst off n : Kernel nproc Word) := by
  refine .get_bind fun s ↦ ?_
  dsimp only
  split
  · split
    · exact .halt _
    · exact .pure _
  · split
    · exact .pure _
    · exact (respects_readBlocks hmem ip _ _ _ _).bind_pure _

section Cache

variable (h : CacheFrame F)
include h

theorem respects_memset (dst : Word) (c : Byte) (n : ℕ) :
    Respects F (memset dst c n : Kernel nproc Unit) :=
  .modify fun s ↦ h.mem s _

theorem respects_memmove (dst src : Word) (n : ℕ) :
    Respects F (memmove dst src n : Kernel nproc Unit) :=
  .modify fun s ↦ h.mem s _

theorem respects_copyIn (dst : Word) (bytes : ℕ → Byte) (n : ℕ) :
    Respects F (copyIn dst bytes n : Kernel nproc Unit) :=
  .modify fun s ↦ h.mem s _

theorem respects_setPage (i : Fin nPageCache) {f : CachedPage → CachedPage}
    (hf : ∀ page, (f page).page = page.page) : Respects F (setPage i f : Kernel nproc Unit) := by
  refine .modify fun s ↦ h.pagecache s _ fun j ↦ ?_
  by_cases hj : j = i
  · subst hj
    simp only [update_self, hf]
  · simp only [update_of_ne hj]

theorem respects_setTotalCount (n : ℕ) : Respects F (setTotalCount n : Kernel nproc Unit) :=
  .modify fun s ↦ h.pagecache s _ fun _ ↦ rfl

theorem respects_acquirePage (i : Fin nPageCache) (spinning : Bool) :
    Respects F (acquirePage i spinning : Kernel nproc Unit) := by
  refine .get_bind fun s ↦ ?_
  split
  · exact .halt _
  · exact respects_setPage h _ fun _ ↦ rfl

theorem respects_getPage (ip : InodeRef) (offset : Word) :
    Respects F (getPage ip offset : Kernel nproc _) := by
  refine .get_bind fun s ↦ ?_
  dsimp only
  split
  · exact (respects_acquirePage h _ _).bind_pure _
  · split
    · refine (respects_setTotalCount h _).bind fun _ ↦ ?_
      refine (respects_acquirePage h _ _).bind fun _ ↦ ?_
      refine (respects_setTotalCount h _).bind fun _ ↦ ?_
      refine (respects_memset h _ _ _).bind fun _ ↦ ?_
      refine (respects_readi h.mem _ _ _ _).bind fun n ↦ ?_
      split
      · exact .pure _
      · refine .bind ?_ fun _ ↦ .pure _
        exact respects_setPage h _ fun _ ↦ rfl
    · exact .halt _

theorem respects_copyPage (ip : InodeRef) (offset dest size destOffset : Word) :
    Respects F (copyPage ip offset dest size destOffset : Kernel nproc Unit) := by
  refine (respects_getPage h ip offset).bind fun found ↦ ?_
  cases found with
  | none => exact .pure _
  | some page =>
    refine .get_bind fun s ↦ ?_
    exact (respects_memmove h _ _ _).bind fun _ ↦ respects_setPage h _ fun _ ↦ rfl

theorem respects_fillPage (ip : InodeRef) (n : ℕ) (dest offset i tempsize : Word) :
    Respects F (fillPage ip n dest offset i tempsize : Kernel nproc Unit) := by
  induction n generalizing dest offset i tempsize with
  | zero => exact .halt _
  | succ n ih =>
    rw [fillPage]
    split
    · exact .pure _
    · refine .get_bind fun s ↦ ?_
      split
      · exact .pure _
      · exact (respects_copyPage h _ _ _ _ _).bind fun _ ↦ ih _ _ _ _

end Cache

/-! ## Mapping and freeing pages -/

section Mapping

variable (h : MapFrame F p) {pgdir : Word}
include h

theorem respects_kalloc : Respects F (kalloc : Kernel nproc (Option Word)) := by
  intro s
  rw [kalloc]
  split
  · exact F.refl s
  · exact h.freelist s _

theorem respects_kfree (v : Word) : Respects F (kfree v : Kernel nproc Unit) := by
  refine .get_bind fun s ↦ ?_
  split
  · exact .halt _
  · refine .bind (.modify fun s ↦ h.mem s _) fun _ ↦ ?_
    exact .modify fun s ↦ h.freelist s _

omit h in
theorem respects_readPte (pgdir : Word) (v : Vpn) :
    Respects F (readPte pgdir v : Kernel nproc Word) :=
  Respects.get.bind_pure _

theorem respects_addPageTable (pgdir : Word) (i : BitVec 10) (pgtab : Word) :
    Respects F (addPageTable pgdir i pgtab : Kernel nproc Unit) :=
  .bind (.modify fun s ↦ h.mem s _) fun _ ↦ .modify fun s ↦ h.table s _ _ _

theorem respects_walkpgdir (pgdir va : Word) (alloc : Bool) :
    Respects F (walkpgdir pgdir va alloc : Kernel nproc (Option Vpn)) := by
  refine .get_bind fun s ↦ ?_
  split
  · exact .pure _
  · split
    · refine (respects_kalloc h).bind fun found ↦ ?_
      cases found with
      | none => exact .pure _
      | some pgtab => exact (respects_addPageTable h _ _ _).bind_pure _
    · exact .pure _

/-- What follows a walk may rely on the page-table page that the walk has found or added. -/
theorem respects_walkpgdir_bind {α : Type} {k : Option Vpn → Kernel nproc α} {va : Word}
    {alloc : Bool} (hnone : Respects F (k none))
    (hsome : ∀ s, ((s.pgdirs pgdir).tabs (vpn va).pdx).isSome = true →
      F.rel s (k (some (vpn va)) s).2) :
    Respects F (walkpgdir pgdir va alloc >>= k) := by
  intro s
  have hwalk := respects_walkpgdir h pgdir va alloc s
  by_cases htable : ((s.pgdirs pgdir).tabs (vpn va).pdx).isSome = true
  · rw [bind_of_ok (a := some (vpn va)) (t := s)]
    · exact hsome s htable
    · rw [walkpgdir, bind_of_ok (get_apply s), if_pos htable]
      rfl
  · cases alloc with
    | false =>
      rw [bind_of_ok (a := none) (t := s)]
      · exact hnone s
      · rw [walkpgdir, bind_of_ok (get_apply s), if_neg htable]
        rfl
    | true =>
      cases hfree : s.freelist with
      | nil =>
        have hkalloc : (kalloc : Kernel nproc (Option Word)) s = (.ok none, s) := by
          rw [kalloc, hfree]
        rw [bind_of_ok (a := none) (t := s)]
        · exact hnone s
        · rw [walkpgdir, bind_of_ok (get_apply s), if_neg htable, if_pos rfl, bind_of_ok hkalloc]
          rfl
      | cons pgtab rest =>
        have hkalloc : (kalloc : Kernel nproc (Option Word)) s =
            (.ok (some pgtab), { s with freelist := rest }) := by
          rw [kalloc, hfree]
        have hrun : walkpgdir pgdir va true s = (.ok (some (vpn va)),
            (addPageTable pgdir (vpn va).pdx pgtab { s with freelist := rest }).2) := by
          rw [walkpgdir, bind_of_ok (get_apply s), if_neg htable, if_pos rfl, bind_of_ok hkalloc]
          rfl
        rw [hrun] at hwalk
        rw [bind_of_ok hrun]
        refine F.trans hwalk (hsome _ ?_)
        change ((update s.pgdirs pgdir _ pgdir).tabs (vpn va).pdx).isSome = true
        rw [update_self]
        simp only [update_self, Option.isSome_some]

theorem respects_mapPage (pgdir a pa perm : Word) :
    Respects F (mapPage pgdir a pa perm : Kernel nproc Bool) := by
  refine respects_walkpgdir_bind h (.pure false) fun s htable ↦ ?_
  dsimp only
  rw [readPte, bind_assoc_prog, bind_of_ok (get_apply s), bind_of_ok (pure_apply _ s)]
  split
  · exact F.refl s
  · exact h.entry s _ _ _ htable

theorem respects_mapPagesFrom (pgdir a pa perm : Word) (n : ℕ) :
    Respects F (mapPagesFrom pgdir a pa perm n : Kernel nproc Bool) := by
  induction n generalizing a pa with
  | zero => exact respects_mapPage h _ _ _ _
  | succ n ih =>
    refine (respects_mapPage h _ _ _ _).bind fun mapped ↦ ?_
    split
    · exact ih _ _
    · exact .pure _

theorem respects_mappages (pgdir va size pa perm : Word) :
    Respects F (mappages pgdir va size pa perm : Kernel nproc Bool) :=
  respects_mapPagesFrom h _ _ _ _ _

omit h in
theorem walkpgdir_false_apply (d va : Word) (s : Machine nproc) :
    walkpgdir d va false s =
      (.ok (if ((s.pgdirs d).tabs (vpn va).pdx).isSome then some (vpn va) else none), s) := by
  rw [walkpgdir, bind_of_ok (get_apply s)]
  split
  · rfl
  · rfl

omit h in
theorem getPhysicalPage_apply (d va : Word) (s : Machine nproc) :
    getPhysicalPage d va s =
      (.ok (if ((s.pgdirs d).tabs (vpn va).pdx).isSome then
        (some (vpn va), pteAddr ((s.pgdirs d).pte (vpn va))) else (none, 0)), s) := by
  rw [getPhysicalPage, bind_of_ok (walkpgdir_false_apply d va s)]
  split
  · rfl
  · rfl

theorem respects_getPhysicalPage (pgdir tempaddr : Word) :
    Respects F (getPhysicalPage pgdir tempaddr : Kernel nproc _) := by
  refine (respects_walkpgdir h _ _ _).bind fun found ↦ ?_
  cases found with
  | none => exact .pure _
  | some v => exact (respects_readPte _ _).bind_pure _

/-- Clearing an entry after its frame has been freed. -/
theorem rel_kfree_clear (pa : Word) {v : Vpn}
    (htable : ((s.pgdirs pgdir).tabs v.pdx).isSome = true) :
    F.rel s ((do kfree pa; writePte pgdir v 0 : Kernel nproc Unit) s).2 := by
  have hkfree := respects_kfree h pa s
  rw [bind_apply, kfree, bind_of_ok (get_apply s)] at *
  split
  · rename_i hrun
    rw [hrun] at hkfree
    split at hrun
    · cases hrun
    · cases hrun
      exact F.trans hkfree (h.entry _ _ _ _ htable)
  · rename_i hrun
    rw [hrun] at hkfree
    exact hkfree

theorem rel_freePage {v : Vpn} (htable : ((s.pgdirs pgdir).tabs v.pdx).isSome = true) :
    F.rel s (freePage pgdir v s : _ × Machine nproc).2 := by
  rw [freePage, readPte, bind_assoc_prog, bind_of_ok (get_apply s), bind_of_ok (pure_apply _ s)]
  split
  · split
    · exact F.refl s
    · exact rel_kfree_clear h _ htable
  · exact F.refl s

theorem respects_deallocFrom (pgdir oldsz : Word) (n : ℕ) (a : Word) :
    Respects F (deallocFrom pgdir oldsz n a : Kernel nproc Unit) := by
  induction n generalizing a with
  | zero =>
    rw [deallocFrom]
    split
    · exact .halt _
    · exact .pure _
  | succ n ih =>
    rw [deallocFrom]
    split
    · apply respects_walkpgdir_bind h (ih _)
      intro s htable
      exact rel_bind (rel_freePage h htable) fun _ ↦ ih _
    · exact .pure _

theorem respects_deallocuvm (pgdir oldsz newsz : Word) :
    Respects F (deallocuvm pgdir oldsz newsz : Kernel nproc Word) := by
  rw [deallocuvm]
  split
  · exact .pure _
  · exact (respects_deallocFrom h _ _ _ _).bind_pure _

theorem respects_mapAnonPage (q : Fin nproc) (off protection : Word) :
    Respects F (mapAnonPage q off protection) := by
  refine (respects_kalloc h).bind fun found ↦ ?_
  cases found with
  | none => exact .pure _
  | some mappedPage =>
    refine .bind (.modify fun s ↦ h.mem s _) fun _ ↦ .get_bind fun s ↦ ?_
    refine (respects_mappages h _ _ _ _ _).bind fun mapped ↦ ?_
    split
    · exact .pure _
    · refine (respects_deallocuvm h _ _ _).bind fun _ ↦ ?_
      exact (respects_kfree h _).bind_pure _

theorem respects_mapAnonPages (q : Fin nproc) (mmapaddr protection : Word) (n : ℕ) (i : Word) :
    Respects F (mapAnonPages q mmapaddr protection n i) := by
  induction n generalizing i with
  | zero => exact .pure _
  | succ n ih =>
    refine (respects_mapAnonPage h q _ _).bind fun r ↦ ?_
    split
    · exact .pure _
    · exact ih _

theorem respects_mapAnonMain (q : Fin nproc) (mmapaddr protection size : Word) :
    Respects F (mapAnonMain q mmapaddr protection size) := by
  exact (respects_mapAnonPages h q _ _ _ _).bind fun _ ↦ respects_ite_pure

theorem respects_kill : Respects F (kill p) :=
  .modify fun s ↦ h.killed s

theorem respects_addStored (i : ℕ) (n : Word) : Respects F (addStored p i n) :=
  .modify fun s ↦ h.storedSize s i _

end Mapping

/-! ## Page faults -/

section Paging

variable (h : PagingFrame F p)
include h

theorem respects_mapPagecachePageUtil (q : Fin nproc) (f mmapaddr protection offset size : Word) :
    Respects F (mapPagecachePageUtil q f mmapaddr protection offset size) := by
  refine (respects_kalloc h.toMapFrame).bind fun found ↦ ?_
  cases found with
  | none => exact .pure _
  | some temp =>
    refine (respects_memset h.toCacheFrame _ _ _).bind fun _ ↦ .get_bind fun s ↦ ?_
    refine (respects_fillPage h.toCacheFrame _ _ _ _ _ _).bind fun _ ↦ ?_
    exact (respects_mappages h.toMapFrame _ _ _ _ _).bind fun _ ↦ respects_ite_pure

theorem respects_mapPagecachePage (q : Fin nproc) (f mmapaddr protection offset size : Word) :
    Respects F (mapPagecachePage q f mmapaddr protection offset size) := by
  rw [mapPagecachePage]
  generalize (size.count + 4095) / 4096 = n
  generalize (0 : Word) = currsize
  induction n generalizing currsize size with
  | zero => exact .pure _
  | succ n ih =>
    refine (respects_mapPagecachePageUtil h q _ _ _ _ _).bind fun r ↦ ?_
    split
    · exact .pure _
    · exact ih _ _

theorem respects_mmapStoreData (q : Fin nproc) (addr size flags protection f offset : Word) :
    Respects F (mmapStoreData q addr size flags protection f offset) := by
  rw [mmapStoreData]
  split
  · refine (respects_mapAnonMain h.toMapFrame q _ _ _).bind fun r ↦ ?_
    exact respects_ite_pure
  · refine (respects_mapPagecachePage h q _ _ _ _ _).bind fun r ↦ ?_
    exact respects_ite_pure

theorem respects_handlePageFault (addr : Word) : Respects F (handlePageFault p addr) := by
  refine .get_bind fun s ↦ ?_
  dsimp only
  split
  · exact respects_kill h.toMapFrame
  · refine (respects_getPhysicalPage h.toMapFrame _ _).bind fun found ↦ ?_
    split
    · exact respects_kill h.toMapFrame
    · refine (respects_mmapStoreData h p _ _ _ _ _ _).bind fun r ↦ ?_
      split
      · exact (respects_kill h.toMapFrame).bind fun _ ↦ respects_addStored h.toMapFrame _ _
      · exact respects_addStored h.toMapFrame _ _

theorem respects_loadKernel (addr : Word) : Respects F (loadKernel p addr) := by
  have hfaulting (n : ℕ) : Respects F (loadFaulting p addr n) := by
    induction n with
    | zero =>
      refine .get_bind fun s ↦ ?_
      split
      · exact .pure _
      · exact .halt _
    | succ n ih =>
      refine .get_bind fun s ↦ ?_
      split
      · exact .pure _
      · split
        · exact (respects_handlePageFault h _).bind fun _ ↦ ih
        · exact .halt _
  exact hfaulting 2

theorem respects_pageFault (addr : Word) : Respects F (pageFault p addr) := by
  rw [pageFault]
  split
  · exact respects_handlePageFault h addr
  · exact respects_kill h.toMapFrame

theorem respects_load (addr : Word) : Respects F (load p addr) := by
  refine .get_bind fun s ↦ ?_
  split
  · exact .pure _
  · exact respects_pageFault h addr

theorem respects_store (addr : Word) (b : Byte) : Respects F (store p addr b) := by
  refine .get_bind fun s ↦ ?_
  split
  · exact .modify fun t ↦ h.mem t _
  · exact respects_pageFault h addr

theorem respects_freeRange (pgdir tempaddr : Word) (n : ℕ) :
    Respects F (freeRange pgdir tempaddr n : Kernel nproc Unit) := by
  induction n generalizing tempaddr with
  | zero => exact .pure _
  | succ n ih =>
    intro s
    rw [freeRange, bind_of_ok (getPhysicalPage_apply pgdir tempaddr s)]
    by_cases htable : ((s.pgdirs pgdir).tabs (vpn tempaddr).pdx).isSome = true
    · rw [if_pos htable]
      dsimp only
      split
      · exact ih _ s
      · rw [← bind_assoc_prog]
        exact rel_bind (rel_kfree_clear h.toMapFrame _ htable) fun _ ↦ ih _
    · rw [if_neg htable]
      exact ih _ s

theorem respects_freePageTables (pgdir : Word) (indices : List (BitVec 10)) :
    Respects F (freePageTables pgdir indices : Kernel nproc Unit) := by
  induction indices with
  | nil => exact .pure _
  | cons i rest ih =>
    refine .get_bind fun s ↦ ?_
    split
    · exact (respects_kfree h.toMapFrame _).bind fun _ ↦ ih
    · exact ih

theorem respects_freevm (pgdir : Word) : Respects F (freevm pgdir : Kernel nproc Unit) := by
  refine (respects_deallocuvm h.toMapFrame _ _ _).bind fun _ ↦ ?_
  exact (respects_freePageTables h _ _).bind fun _ ↦ respects_kfree h.toMapFrame _

theorem respects_mapKernel (pgdir : Word) (indices : List (BitVec 10)) :
    Respects F (mapKernel pgdir indices : Kernel nproc Bool) := by
  induction indices with
  | nil => exact .pure _
  | cons i rest ih =>
    refine (respects_kalloc h.toMapFrame).bind fun r ↦ ?_
    cases r with
    | none => exact .pure _
    | some pgtab => exact (respects_addPageTable h.toMapFrame _ _ _).bind fun _ ↦ ih

theorem respects_setupkvm : Respects F (setupkvm : Kernel nproc (Option Word)) := by
  refine (respects_kalloc h.toMapFrame).bind fun r ↦ ?_
  cases r with
  | none => exact .pure _
  | some pgdir =>
    refine (respects_memset h.toCacheFrame _ _ _).bind fun _ ↦ ?_
    refine .bind (.modify fun s ↦ h.reset s _) fun _ ↦ ?_
    refine (respects_mapKernel h _ _).bind fun mapped ↦ ?_
    split
    · exact .pure _
    · exact (respects_freevm h _).bind_pure _

theorem respects_allocFrom (pgdir oldsz newsz : Word) (n : ℕ) (a : Word) :
    Respects F (allocFrom pgdir oldsz newsz n a : Kernel nproc Bool) := by
  induction n generalizing a with
  | zero =>
    rw [allocFrom]
    split
    · exact .halt _
    · exact .pure _
  | succ n ih =>
    rw [allocFrom]
    split
    · refine (respects_kalloc h.toMapFrame).bind fun r ↦ ?_
      cases r with
      | none => exact (respects_deallocuvm h.toMapFrame _ _ _).bind_pure _
      | some mem =>
        refine (respects_memset h.toCacheFrame _ _ _).bind fun _ ↦ ?_
        refine (respects_mappages h.toMapFrame _ _ _ _ _).bind fun mapped ↦ ?_
        split
        · exact ih _
        · refine (respects_deallocuvm h.toMapFrame _ _ _).bind fun _ ↦ ?_
          exact (respects_kfree h.toMapFrame _).bind_pure _
    · exact .pure _

theorem respects_allocuvm (pgdir oldsz newsz : Word) :
    Respects F (allocuvm pgdir oldsz newsz : Kernel nproc Word) := by
  rw [allocuvm]
  split
  · exact .pure _
  · split
    · exact .pure _
    · refine (respects_allocFrom h _ _ _ _ _).bind fun mapped ↦ ?_
      exact respects_ite_pure

theorem respects_copyPageTo (pgdir d i : Word) :
    Respects F (copyPageTo pgdir d i : Kernel nproc Bool) := by
  refine (respects_walkpgdir h.toMapFrame _ _ _).bind fun found ↦ ?_
  cases found with
  | none => exact .halt _
  | some v =>
    refine (respects_readPte _ _).bind fun pte ↦ ?_
    split
    · refine (respects_kalloc h.toMapFrame).bind fun r ↦ ?_
      cases r with
      | none => exact .pure _
      | some mem =>
        refine (respects_memmove h.toCacheFrame _ _ _).bind fun _ ↦ ?_
        refine (respects_mappages h.toMapFrame _ _ _ _ _).bind fun mapped ↦ ?_
        split
        · exact .pure _
        · exact (respects_kfree h.toMapFrame _).bind_pure _
    · exact .halt _

theorem respects_copyFrom (pgdir d sz : Word) (n : ℕ) (i : Word) :
    Respects F (copyFrom pgdir d sz n i : Kernel nproc Bool) := by
  induction n generalizing i with
  | zero =>
    rw [copyFrom]
    split
    · exact .halt _
    · exact .pure _
  | succ n ih =>
    rw [copyFrom]
    split
    · refine (respects_copyPageTo h _ _ _).bind fun copied ↦ ?_
      split
      · exact ih _
      · exact .pure _
    · exact .pure _

theorem respects_copyuvm (pgdir sz : Word) :
    Respects F (copyuvm pgdir sz : Kernel nproc (Option Word)) := by
  refine (respects_setupkvm h).bind fun r ↦ ?_
  cases r with
  | none => exact .pure _
  | some d =>
    refine (respects_copyFrom h _ _ _ _ _).bind fun copied ↦ ?_
    split
    · exact .pure _
    · exact (respects_freevm h _).bind_pure _

theorem respects_clearpteu (pgdir uva : Word) :
    Respects F (clearpteu pgdir uva : Kernel nproc Unit) := by
  apply respects_walkpgdir_bind h.toMapFrame (.halt _)
  intro s htable
  exact h.entry s _ _ _ htable

theorem respects_loadSegments (pgdir : Word) (headers : List (Option ProgHdr)) (sz : Word) :
    Respects F (loadSegments pgdir headers sz : Kernel nproc (Option Word)) := by
  induction headers generalizing sz with
  | nil => exact .pure _
  | cons header rest ih =>
    cases header with
    | none => exact .pure _
    | some ph =>
      rw [loadSegments]
      split
      · exact ih _
      · split
        · exact .pure _
        · refine (respects_allocuvm h _ _ _).bind fun sz ↦ ?_
          split
          · exact .pure _
          · split
            · exact .pure _
            · exact ih _

theorem respects_buildImage (pgdir : Word) (image : ExecImage) :
    Respects F (buildImage pgdir image : Kernel nproc (Option Word)) := by
  refine (respects_loadSegments h _ _ _).bind fun r ↦ ?_
  cases r with
  | none => exact .pure _
  | some sz =>
    refine (respects_allocuvm h _ _ _).bind fun sz ↦ ?_
    split
    · exact .pure _
    · refine (respects_clearpteu h _ _).bind fun _ ↦ ?_
      exact respects_ite_pure

theorem respects_sharePage (child : Fin nproc) (i : ℕ) (start : Word) :
    Respects F (sharePage p child i start) := by
  refine .get_bind fun s ↦ (respects_getPhysicalPage h.toMapFrame _ _).bind fun found ↦ ?_
  dsimp only
  split
  · refine (respects_mmapStoreData h _ _ _ _ _ _ _).bind fun r ↦ ?_
    split
    · exact .pure _
    · refine (respects_addStored h.toMapFrame _ _).bind fun _ ↦ ?_
      refine (respects_getPhysicalPage h.toMapFrame _ _).bind fun found ↦ ?_
      exact (respects_mappages h.toMapFrame _ _ _ _ _).bind_pure _
  · exact (respects_mappages h.toMapFrame _ _ _ _ _).bind_pure _

theorem respects_copyPrivatePage (child : Fin nproc) (i : ℕ) (start : Word) :
    Respects F (copyPrivatePage p child i start) := by
  refine .get_bind fun s ↦ (respects_getPhysicalPage h.toMapFrame _ _).bind fun found ↦ ?_
  dsimp only
  split
  · exact .pure _
  · refine (respects_kalloc h.toMapFrame).bind fun r ↦ ?_
    cases r with
    | none => exact .pure _
    | some mem =>
      exact (respects_memmove h.toCacheFrame _ _ _).bind fun _ ↦
        respects_mappages h.toMapFrame _ _ _ _ _

theorem respects_copyRegionPages (child : Fin nproc) (i : ℕ) (isshared : Bool) (stop : Word)
    (n : ℕ) (start : Word) :
    Respects F (copyRegionPages p child i isshared stop n start) := by
  induction n generalizing start with
  | zero =>
    rw [copyRegionPages]
    split
    · exact .halt _
    · exact .pure _
  | succ n ih =>
    have hpage : Respects F (if isshared then sharePage p child i start
        else copyPrivatePage p child i start) := by
      split
      · exact respects_sharePage h child i start
      · exact respects_copyPrivatePage h child i start
    rw [copyRegionPages]
    split
    · refine hpage.bind fun copied ↦ ?_
      split
      · exact ih _
      · exact .pure _
    · exact .pure _

end Paging

/-- **A byte read by the kernel**, by what the page faults on the way do: the page is present in the
end, or the call does not return. -/
theorem loadKernel_of_fault {E : Halt → Machine nproc → Prop} {addr : Word}
    (hfault : ∀ t, I t → ¬ present t p addr = true → mmapBase ≤ addr →
      Triple (· = t) (handlePageFault p addr) (fun _ ↦ I) E)
    (hstuck : ∀ t, I t → E .stuck t) (hpanic : ∀ t, I t → E .panic t) :
    Triple I (loadKernel p addr) (fun _ t ↦ I t ∧ present t p addr = true) E := by
  have hfaulting (n : ℕ) :
      Triple I (loadFaulting p addr n) (fun _ t ↦ I t ∧ present t p addr = true) E := by
    induction n with
    | zero =>
      refine .get_bind fun t ht ↦ ?_
      split
      · rename_i hpresent
        exact .pure fun u hu ↦ hu ▸ ⟨ht, hpresent⟩
      · exact .halt fun u hu ↦ hu ▸ hstuck t ht
    | succ n ih =>
      refine .get_bind fun t ht ↦ ?_
      split
      · rename_i hpresent
        exact .pure fun u hu ↦ hu ▸ ⟨ht, hpresent⟩
      · rename_i habsent
        split
        · rename_i harea
          have hbase : mmapBase ≤ addr := by
            simp only [isMmapAddr, Bool.and_eq_true, decide_eq_true_eq] at harea
            exact harea.1
          exact .bind (hfault t ht habsent hbase) fun _ ↦ ih
        · exact .halt fun u hu ↦ hu ▸ hpanic t ht
  exact hfaulting 2

theorem keeps_loadKernel_of_fault {addr : Word}
    (hfault : ∀ t, I t → ¬ present t p addr = true → mmapBase ≤ addr →
      Triple (· = t) (handlePageFault p addr) (fun _ ↦ I) fun _ ↦ I) :
    Keeps I (loadKernel p addr) :=
  (loadKernel_of_fault hfault (fun _ ↦ id) fun _ ↦ id).post (fun _ _ ht ↦ ht.1) fun _ _ ↦ id

/-! ## Writing files -/

section Files

variable (h : OffsetFrame F)
include h

omit h in
theorem respects_fetchBytes {fetch : ℕ → Kernel nproc Byte} {bound : ℕ}
    (hfetch : ∀ j < bound, Respects F (fetch j)) (i m : ℕ) (him : i + m ≤ bound) :
    Respects F (fetchBytes fetch i m) := by
  induction m generalizing i with
  | zero => exact .pure _
  | succ m ih =>
    refine (hfetch i (by omega)).bind fun b ↦ ?_
    exact (ih _ (by omega)).bind_pure _

theorem respects_setInode (ip : InodeRef) (f : Inode → Inode) :
    Respects F (setInode ip f : Kernel nproc Unit) :=
  .modify fun s ↦ h.inodes s _

theorem respects_setOffset (f : Word) (off : File → Word) :
    Respects F (setFile f fun file ↦ { file with off := off file } : Kernel nproc Unit) :=
  .modify fun s ↦ h.offset s f _

-- the bytes that `writei` and `updatePage` fetch are those below `bound`
variable {fetch : ℕ → Kernel nproc Byte} {bound : ℕ} (hfetch : ∀ j < bound, Respects F (fetch j))
include hfetch

theorem respects_writeBlocks (ip : InodeRef) (n i off left : ℕ) (hleft : i + left ≤ bound) :
    Respects F (writeBlocks ip fetch n i off left) := by
  induction n generalizing i off left with
  | zero => exact .pure _
  | succ n ih =>
    rw [writeBlocks]
    split
    · exact .pure _
    · refine (respects_bread ip _).bind fun _ ↦ ?_
      refine .bind (.modify fun s ↦ h.held s _) fun _ ↦ ?_
      refine (respects_fetchBytes hfetch _ _ (by omega)).bind fun bytes ↦ ?_
      refine (respects_setInode h _ _).bind fun _ ↦ ?_
      exact .bind (.modify fun s ↦ h.held s _) fun _ ↦ ih _ _ _ (by omega)

omit h in
theorem respects_consolewrite (i : ℕ) (n : Word) (hn : i + n.toNat ≤ bound) :
    Respects F (consolewrite fetch i n) :=
  (respects_fetchBytes hfetch _ _ (by have := count_le_toNat n; omega)).bind_pure _

theorem respects_writei (ip : InodeRef) (i : ℕ) (off n : Word) (hn : i + n.toNat ≤ bound) :
    Respects F (writei ip fetch i off n) := by
  refine .get_bind fun s ↦ ?_
  split
  · split
    · exact respects_consolewrite hfetch i n hn
    · exact .pure _
  · split
    · exact .pure _
    · split
      · exact .pure _
      · refine (respects_writeBlocks h hfetch _ _ _ _ _ hn).bind fun _ ↦ ?_
        exact (respects_setInode h _ _).bind_pure _

omit h in
theorem respects_updatePage (hcache : CacheFrame F) (offset inum dev : Word) (i : ℕ) (size : Word)
    (hsize : i + size.toNat ≤ bound) : Respects F (updatePage offset inum dev fetch i size) := by
  refine .get_bind fun s ↦ ?_
  split
  · exact .pure _
  · refine (respects_acquirePage hcache _ _).bind fun _ ↦ ?_
    refine (respects_fetchBytes hfetch _ _ hsize).bind fun bytes ↦ ?_
    exact (respects_copyIn hcache _ _ _).bind fun _ ↦ respects_setPage hcache _ fun _ ↦ rfl

theorem respects_writeChunks (f : Word) (n i left : ℕ) (hleft : i + left ≤ bound) :
    Respects F (writeChunks f fetch n i left) := by
  induction n generalizing i left with
  | zero => exact .pure _
  | succ n ih =>
    rw [writeChunks]
    split
    · exact .pure _
    · have hchunk := toNat_chunk left
      refine .get_bind fun s ↦ ?_
      refine (respects_writei h hfetch _ _ _ _ (by omega)).bind fun r ↦ ?_
      split
      · exact .pure _
      · by_cases hshort : (r != BitVec.ofNat 32 (min left writeMax)) = true
        · rw [if_pos hshort]
          exact .halt _
        · rw [if_neg hshort]
          have hr : r = BitVec.ofNat 32 (min left writeMax) := by simpa using hshort
          refine .bind (respects_updatePage hfetch h.toCacheFrame _ _ _ _ _ (by rw [hr]; omega)) ?_
          exact fun _ ↦ (respects_setOffset h _ _).bind fun _ ↦ ih _ _ (by rw [hr]; omega)

theorem respects_filewrite (f n : Word) (hn : n.count ≤ bound) :
    Respects F (filewrite f fetch n) := by
  refine .get_bind fun s ↦ ?_
  split
  · exact .pure _
  · split
    · exact .halt _
    · refine (respects_writeChunks h hfetch _ _ _ _ (by omega)).bind fun written ↦ ?_
      exact respects_ite_pure

omit hfetch in
/-- The write-back of a region reads the addresses of the region only. -/
theorem respects_writeBack_of_region (mr : MmapRegion)
    (hload : ∀ j < mr.size.count, Respects F (loadKernel p (mr.virtAddr + BitVec.ofNat 32 j))) :
    Respects F (writeBack p mr) := by
  rw [writeBack]
  split
  · refine (respects_setOffset h _ _).bind fun _ ↦ ?_
    exact (respects_filewrite h hload _ _ le_rfl).bind_pure _
  · exact .pure _

omit hfetch in
theorem respects_writeBack (hload : ∀ addr, Respects F (loadKernel p addr)) (mr : MmapRegion) :
    Respects F (writeBack p mr) :=
  respects_writeBack_of_region h mr fun _ _ ↦ hload _

end Files

end Kernel

/-! ## Unmapping regions -/

namespace UnmapFrame

open Kernel Prog

variable {F : Frame (Machine nproc)} {p : Fin nproc} (h : UnmapFrame F p)
include h

theorem respects_setMmaps (f : RegionTable → RegionTable) : Respects F (setMmaps p f) :=
  .modify fun s ↦ h.mmaps s _

theorem respects_myMunmap (addr size : Word) : Respects F (myMunmap p addr size) := by
  have hload (a : Word) := respects_loadKernel h.toPagingFrame a
  refine .get_bind fun s ↦ ?_
  dsimp only
  split
  · exact .pure _
  · split
    · exact .pure _
    · refine (respects_writeBack h.toOffsetFrame hload _).bind fun written ↦ ?_
      split
      · refine (respects_freeRange h.toPagingFrame _ _ _).bind fun _ ↦ ?_
        exact (h.respects_setMmaps _).bind_pure _
      · exact .pure _

theorem respects_deleteFrom (n : ℕ) : Respects F (deleteFrom p n) := by
  induction n with
  | zero => exact .pure _
  | succ n ih =>
    refine .get_bind fun s ↦ ?_
    dsimp only
    split
    · exact (h.respects_myMunmap _ _).bind fun _ ↦ ih
    · exact ih

theorem respects_deleteMmaps : Respects F (deleteMmaps p) :=
  .get_bind fun _ ↦ (h.respects_deleteFrom _).bind fun _ ↦ h.respects_setMmaps _

theorem respects_exec (hspace : ∀ s d sz, F.rel s
    { s with procs := update s.procs p { s.procs p with pgdir := d, sz := sz } })
    (image : ExecImage) : Respects F (exec p image) := by
  have hpaging := h.toPagingFrame
  rw [exec]
  split
  · exact .pure _
  · refine (respects_setupkvm hpaging).bind fun r ↦ ?_
    cases r with
    | none => exact .pure _
    | some d =>
      refine (respects_buildImage hpaging d image).bind fun r ↦ ?_
      cases r with
      | none => exact (respects_freevm hpaging d).bind_pure _
      | some sz =>
        refine h.respects_deleteMmaps.bind fun _ ↦ .get_bind fun s ↦ ?_
        refine .bind (.modify fun t ↦ hspace t d sz) fun _ ↦ ?_
        exact (respects_freevm hpaging _).bind_pure _

end UnmapFrame

/-! ## What page faults change in a process -/

/-- A table entry up to its stored size. -/
def MmapRegion.settled (mr : MmapRegion) : MmapRegion := { mr with storedSize := 0 }

/-- A process up to what page faults change in it. -/
def Proc.settled (proc : Proc nproc) : Proc nproc :=
  { proc with killed := false, mmaps := fun k ↦ (proc.mmaps k).settled }

/-- Nothing changes in a process but stored sizes and the killed mark. -/
def procFrame : Frame (Machine nproc) := Frame.ofEq fun s q ↦ (s.procs q).settled

theorem settled_update (procs : Fin nproc → Proc nproc) (p : Fin nproc)
    (h : proc.settled = (procs p).settled) :
    (fun q ↦ (update procs p proc q).settled) = fun q ↦ (procs q).settled := by grind

theorem ioFrame_procFrame : IoFrame (procFrame : Frame (Machine nproc)) where
  mem _ _ := rfl
  pagecache _ _ _ := rfl
  inodes _ _ := rfl
  held _ _ := rfl
  files _ _ := rfl

theorem pagingFrame_procFrame (p : Fin nproc) : PagingFrame procFrame p where
  mem _ _ := rfl
  pagecache _ _ _ := rfl
  freelist _ _ := rfl
  reset _ _ := rfl
  table _ _ _ _ := rfl
  entry _ _ _ _ _ := rfl
  killed s := settled_update s.procs p rfl
  storedSize s i n := by
    apply settled_update
    simp only [Proc.settled]
    congr 1
    funext k
    by_cases hk : k = i
    · subst hk
      simp [settled]
    · rw [RegionTable.set_of_ne _ _ hk]

theorem region_of_settled {proc' : Proc nproc} (h : proc'.settled = proc.settled) (k : ℤ) :
    (proc'.mmaps k).region = (proc.mmaps k).region := by
  have hentry : (proc'.mmaps k).settled = (proc.mmaps k).settled :=
    congrFun (congrArg Proc.mmaps h) k
  have hregion := congrArg MmapRegion.region hentry
  exact hregion

section ProcFrame

variable {s s' : Machine nproc} (h : procFrame.rel s s') (p : Fin nproc)
include h

theorem settled_of_procFrame : (s'.procs p).settled = (s.procs p).settled := congrFun h p

theorem region_of_procFrame (k : ℤ) :
    ((s'.procs p).mmaps k).region = ((s.procs p).mmaps k).region :=
  region_of_settled (settled_of_procFrame h p) k

theorem pgdir_of_procFrame : (s'.procs p).pgdir = (s.procs p).pgdir := by
  have hpgdir := congrArg Proc.pgdir (settled_of_procFrame h p)
  exact hpgdir

theorem state_of_procFrame : (s'.procs p).state = (s.procs p).state := by
  have hstate := congrArg Proc.state (settled_of_procFrame h p)
  exact hstate

theorem refCount_of_procFrame (k : ℤ) :
    ((s'.procs p).mmaps k).refCount = ((s.procs p).mmaps k).refCount := by
  have hentry : ((s'.procs p).mmaps k).settled = ((s.procs p).mmaps k).settled :=
    congrFun (congrArg Proc.mmaps (settled_of_procFrame h p)) k
  have hcount := congrArg MmapRegion.refCount hentry
  exact hcount

end ProcFrame

/-! ## What unmapping changes in a process -/

/-- A process without its region table, up to what page faults change in it. -/
def Proc.outer (proc : Proc nproc) : Proc nproc :=
  { proc with killed := false, mmaps := fun _ ↦ MmapRegion.blank }

/-- Nothing changes in the processes but the region table of `p`, stored sizes and killed marks. -/
def tableFrame (p : Fin nproc) : Frame (Machine nproc) where
  rel s s' := (∀ q, q ≠ p → (s'.procs q).settled = (s.procs q).settled) ∧
    (s'.procs p).outer = (s.procs p).outer
  refl _ := ⟨fun _ _ ↦ rfl, rfl⟩
  trans hst htu := ⟨fun q hq ↦ (htu.1 q hq).trans (hst.1 q hq), htu.2.trans hst.2⟩

theorem tableFrame_of_procFrame {s' : Machine nproc} (h : procFrame.rel s s') (p : Fin nproc) :
    (tableFrame p).rel s s' := by
  refine ⟨fun q _ ↦ settled_of_procFrame h q, ?_⟩
  have hproc := settled_of_procFrame h p
  have houter := congrArg (fun proc : Proc nproc ↦
    { proc with mmaps := fun _ ↦ blank }) hproc
  exact houter

theorem tableFrame_setMmaps (s : Machine nproc) (p : Fin nproc) (t : RegionTable) :
    (tableFrame p).rel s
      { s with procs := update s.procs p { s.procs p with mmaps := t } } := by
  refine ⟨fun q hq ↦ ?_, ?_⟩
  · simp only [update_of_ne hq]
  · simp only [update_self]
    rfl

section TableFrame

variable {s s' : Machine nproc} {p : Fin nproc} (h : (tableFrame p).rel s s') (q : Fin nproc)
include h

theorem outer_of_tableFrame : (s'.procs q).outer = (s.procs q).outer := by
  by_cases hq : q = p
  · subst hq
    exact h.2
  · have houter := congrArg (fun proc : Proc nproc ↦
      { proc with mmaps := fun _ ↦ blank }) (h.1 q hq)
    exact houter

theorem pgdir_of_tableFrame : (s'.procs q).pgdir = (s.procs q).pgdir := by
  have hpgdir := congrArg Proc.pgdir (outer_of_tableFrame h q)
  exact hpgdir

theorem state_of_tableFrame : (s'.procs q).state = (s.procs q).state := by
  have hstate := congrArg Proc.state (outer_of_tableFrame h q)
  exact hstate

theorem sz_of_tableFrame : (s'.procs q).sz = (s.procs q).sz := by
  have hsz := congrArg Proc.sz (outer_of_tableFrame h q)
  exact hsz

end TableFrame

/-! ## Process table and open files -/

/-- A file without its reference count and type. -/
def Kernel.uncounted (file : File) : File := { file with ref := 0, type := .none }

/-- A frame that allows changes of reference counts and of the open files of `p`. -/
structure HandleFrame (F : Frame (Machine nproc)) (p : Fin nproc) : Prop where
  files : ∀ s f file, Kernel.uncounted file = Kernel.uncounted (s.files f) →
    F.rel s { s with files := update s.files f file }
  ofile : ∀ s ofile, F.rel s
    { s with procs := update s.procs p { s.procs p with ofile := ofile } }

namespace HandleFrame

open Kernel Prog

variable {F : Frame (Machine nproc)} {p : Fin nproc}

theorem respects_forFiles {body : Fin nOfile → Word → Kernel nproc Unit}
    (hbody : ∀ fd f, Respects F (body fd f)) (fds : List (Fin nOfile)) :
    Respects F (forFiles p body fds) := by
  induction fds with
  | nil => exact .pure _
  | cons fd rest ih =>
    refine .get_bind fun s ↦ ?_
    split
    · exact ih
    · exact (hbody fd _).bind fun _ ↦ ih

variable (h : HandleFrame F p)
include h

theorem respects_dupFiles (q : Fin nproc) (fds : List (Fin nOfile)) :
    Respects F (dupFiles q p fds) := by
  refine respects_forFiles (fun fd f ↦ .bind ?_ fun _ ↦ .modify fun t ↦ h.ofile t _) fds
  refine .get_bind fun t ↦ ?_
  split
  · exact .halt _
  · exact .modify fun t ↦ h.files t _ _ rfl

theorem respects_closeFiles (fds : List (Fin nOfile)) : Respects F (closeFiles p fds) := by
  refine respects_forFiles (fun fd f ↦ .bind ?_ fun _ ↦ .modify fun t ↦ h.ofile t _) fds
  refine .get_bind fun t ↦ ?_
  split
  · exact .halt _
  · refine .modify fun t ↦ h.files t _ _ ?_
    dsimp only
    split
    · rfl
    · rfl

end HandleFrame

/-- A frame that allows the changes of processes that keep their open files and their directory. -/
structure SlotFrame (F : Frame (Machine nproc)) : Prop where
  paging : ∀ p, PagingFrame F p
  nextpid : ∀ s pid, F.rel s { s with nextpid := pid }
  slot : ∀ s p proc, proc.ofile = (s.procs p).ofile → proc.pgdir = (s.procs p).pgdir →
    F.rel s { s with procs := update s.procs p proc }

namespace SlotFrame

open Kernel Prog

variable {F : Frame (Machine nproc)} (h : SlotFrame F)
include h

theorem respects_allocproc : Respects F (allocproc : Kernel nproc (Option (Fin nproc))) := by
  refine .get_bind fun s ↦ ?_
  split
  · exact .pure _
  · rename_i p _
    refine .bind (.modify fun t ↦ h.slot t p _ rfl rfl) fun _ ↦ ?_
    refine .bind (.modify fun t ↦ h.nextpid t _) fun _ ↦ ?_
    refine (respects_kalloc (h.paging p).toMapFrame).bind fun r ↦ ?_
    cases r with
    | none | some kstack =>
      exact .bind (.modify fun t ↦ h.slot t p _ rfl rfl) fun _ ↦ .pure _

theorem respects_setMmaps (p : Fin nproc) (f : RegionTable → RegionTable) :
    Respects F (setMmaps p f) :=
  .modify fun s ↦ h.slot s p _ rfl rfl

theorem respects_copyRegions (p np : Fin nproc) (i n : ℕ) : Respects F (copyRegions p np i n) := by
  induction n generalizing i with
  | zero => exact .pure _
  | succ n ih =>
    refine .get_bind fun s ↦ ?_
    refine (respects_copyRegionPages (h.paging p) np _ _ _ _ _).bind fun copied ↦ ?_
    split
    · refine .get_bind fun t ↦ (h.respects_setMmaps np _).bind fun _ ↦ ?_
      split
      · exact (h.respects_setMmaps np _).bind fun _ ↦ ih _
      · exact ih _
    · exact .pure _

theorem respects_copyMaps (p np : Fin nproc) : Respects F (copyMaps p np) := by
  refine .get_bind fun s ↦ (h.respects_copyRegions p np _ _).bind fun copied ↦ ?_
  split
  · exact (h.respects_setMmaps np _).bind_pure _
  · exact .pure _

theorem respects_abandon (np : Fin nproc) : Respects F (abandon np) := by
  refine .get_bind fun s ↦ (respects_kfree (h.paging np).toMapFrame _).bind fun _ ↦ ?_
  exact .modify fun t ↦ h.slot t np _ rfl rfl

theorem respects_wait (p : Fin nproc) : Respects F (wait p) := by
  refine .get_bind fun s ↦ ?_
  split
  · exact .pure _
  · refine (respects_kfree (h.paging p).toMapFrame _).bind fun _ ↦ ?_
    refine .bind (.modify fun t ↦ h.slot t _ _ rfl rfl) fun _ ↦ ?_
    refine (respects_freevm (h.paging p) _).bind fun _ ↦ ?_
    exact .bind (.modify fun t ↦ h.slot t _ _ rfl rfl) fun _ ↦ .pure _

end SlotFrame

end Xv6Mmap
