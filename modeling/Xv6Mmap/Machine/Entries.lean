import Xv6Mmap.Machine.FrameFaults

/-!
# Page-table entries

Entries are only written where there is a page-table page, so adding a page-table page never loses
one.  With that, the functions that fill in entries have exact descriptions: `mapPage` adds a
page-table page if there is none and writes one entry, and `mmap_store_data` of at most one page
takes a frame and maps it.
-/

namespace Xv6Mmap

open Library Prog List Function

variable {N : ℕ} {d : Word} {s u : Machine N}

namespace PageDir

variable {dir : PageDir}

theorem Tabled.empty : empty.Tabled := fun _ _ ↦ rfl

theorem Tabled.withTable (h : dir.Tabled) (i : BitVec 10) (pgtab : Word) :
    (dir.withTable i pgtab).Tabled := by
  intro v hv
  simp only [PageDir.withTable] at hv ⊢
  by_cases hpdx : v.pdx = i
  · rw [if_pos hpdx]
  · rw [update_of_ne hpdx] at hv
    rw [if_neg hpdx]
    exact h v hv

theorem Tabled.withPte (h : dir.Tabled) {v : Vpn} (hv : (dir.tabs v.pdx).isSome = true)
    (pte : Word) : (dir.withPte v pte).Tabled := by
  intro v' hv'
  simp only [PageDir.withPte] at hv' ⊢
  by_cases hsame : v' = v
  · subst hsame
    rw [hv] at hv'
    cases hv'
  · rw [update_of_ne hsame]
    exact h v' hv'

/-- A page-table page is added where no entry is filled in. -/
theorem Tabled.pte_withTable (h : dir.Tabled) {i : BitVec 10} (hi : (dir.tabs i).isSome = false)
    (pgtab : Word) : (dir.withTable i pgtab).pte = dir.pte := by
  funext v
  simp only [PageDir.withTable]
  by_cases hpdx : v.pdx = i
  · subst hpdx
    rw [if_pos rfl, h v hi]
  · rw [if_neg hpdx]

end PageDir

namespace Machine

theorem pgdirs_setDir_self (s : Machine N) (d : Word) (dir : PageDir) :
    (s.setDir d dir).pgdirs d = dir := by
  simp [setDir]

theorem pgdirs_setDir_of_ne (s : Machine N) {d' : Word} (dir : PageDir) (h : d' ≠ d) :
    (s.setDir d dir).pgdirs d' = s.pgdirs d' := by
  simp [setDir, h]

end Machine

/-! ## What every operation respects -/

/-- A frame that does not look at processes, memory or files, and allows the changes of page tables
that the kernel makes. -/
structure SystemFrame (F : Frame (Machine N)) : Prop extends IoFrame F where
  freelist : ∀ s frames, F.rel s { s with freelist := frames }
  reset : ∀ s d, F.rel s (s.setDir d PageDir.empty)
  table : ∀ s d i pgtab, F.rel s (s.setDir d ((s.pgdirs d).withTable i pgtab))
  entry : ∀ s d v pte, ((s.pgdirs d).tabs v.pdx).isSome = true →
    F.rel s (s.setDir d ((s.pgdirs d).withPte v pte))
  procs : ∀ s procs, F.rel s { s with procs := procs }
  nextpid : ∀ s pid, F.rel s { s with nextpid := pid }

namespace SystemFrame

open Kernel

variable {F : Frame (Machine N)} (h : SystemFrame F)
include h

theorem paging (p : Fin N) : PagingFrame F p :=
  { h.toCacheFrame with
    freelist := h.freelist
    reset := h.reset
    table := h.table
    entry := h.entry
    killed := fun s ↦ h.procs s _
    storedSize := fun s _ _ ↦ h.procs s _ }

theorem respects_setProc (p : Fin N) (f : Proc N → Proc N) : Respects F (setProc p f) :=
  .modify fun s ↦ h.procs s _

theorem respects_setMmaps (p : Fin N) (f : RegionTable → RegionTable) :
    Respects F (setMmaps p f) :=
  h.respects_setProc p _

theorem unmap (p : Fin N) : UnmapFrame F p :=
  { h.paging p, h.toOffsetFrame with mmaps := fun s _ ↦ h.procs s _ }

theorem respects_myMunmap (p : Fin N) (addr size : Word) : Respects F (myMunmap p addr size) :=
  (h.unmap p).respects_myMunmap addr size

theorem respects_deleteMmaps (p : Fin N) : Respects F (deleteMmaps p) :=
  (h.unmap p).respects_deleteMmaps

theorem handles (p : Fin N) : HandleFrame F p := ⟨fun s _ _ _ ↦ h.files s _, fun s _ ↦ h.procs s _⟩

theorem slots : SlotFrame F := ⟨h.paging, h.nextpid, fun s _ _ _ _ ↦ h.procs s _⟩

theorem respects_fork (p : Fin N) : Respects F (fork p) := by
  refine h.slots.respects_allocproc.bind fun r ↦ ?_
  cases r with
  | none => exact .pure _
  | some np =>
    refine .get_bind fun s ↦ (respects_copyuvm (h.paging p) _ _).bind fun r ↦ ?_
    cases r with
    | none =>
      refine (h.respects_setProc np _).bind fun _ ↦ ?_
      exact (h.slots.respects_abandon np).bind_pure _
    | some d =>
      refine (h.respects_setProc np _).bind fun _ ↦ ?_
      refine (h.slots.respects_copyMaps p np).bind fun copied ↦ ?_
      split
      · refine (h.respects_setProc np _).bind fun _ ↦ ?_
        refine ((h.handles np).respects_dupFiles p _).bind fun _ ↦ ?_
        exact (h.respects_setProc np _).bind_pure _
      · exact (h.slots.respects_abandon np).bind_pure _

theorem respects_exit (p : Fin N) : Respects F (exit p) := by
  refine .get_bind fun s ↦ ?_
  split
  · exact .halt _
  · refine ((h.handles p).respects_closeFiles _).bind fun _ ↦ (h.respects_deleteMmaps p).bind fun _ ↦ ?_
    exact .bind (.modify fun t ↦ h.procs t _) fun _ ↦ h.respects_setProc p _

theorem respects_exec (p : Fin N) (image : ExecImage) : Respects F (exec p image) :=
  (h.unmap p).respects_exec (fun s _ _ ↦ h.procs s _) image

theorem respects_body (op : Op N) : Respects F op.body := by
  cases op with
  | load p addr => exact respects_load (h.paging p) addr
  | store p addr b => exact respects_store (h.paging p) addr b
  | mmap p call =>
    refine .bind ?_ fun _ ↦ .pure _
    exact .get_bind fun s ↦ (h.respects_setMmaps p _).bind_pure _
  | munmap p addr size => exact (h.respects_myMunmap p addr size).bind_pure _
  | fork p => exact (h.respects_fork p).bind_pure _
  | exec p image => exact (h.respects_exec p image).bind_pure _
  | exit p => exact h.respects_exit p
  | wait p => exact (h.slots.respects_wait p).bind_pure _

/-- **Every step of the system respects such a frame.** -/
theorem rel_step {t : Machine N} {op : Op N} (hstep : s.step op = some t) : F.rel s t := by
  obtain ⟨-, hrun | ⟨u, e, hrun, -, rfl⟩⟩ := Machine.step_cases hstep
  · exact (h.respects_body op).of_eq hrun
  · exact F.trans ((h.respects_body op).of_eq hrun) (h.procs u _)

end SystemFrame

/-- Entries of `d` are only filled in where there is a page-table page. -/
def tabledFrame (d : Word) : Frame (Machine N) := Frame.ofInvariant fun s ↦ (s.pgdirs d).Tabled

theorem tabled_setDir {d' : Word} {dir : PageDir}
    (hdir : (s.pgdirs d').Tabled → dir.Tabled) (h : (s.pgdirs d).Tabled) :
    ((s.setDir d' dir).pgdirs d).Tabled := by
  grind [Machine.pgdirs_setDir_self, Machine.pgdirs_setDir_of_ne]

theorem systemFrame_tabled (d : Word) : SystemFrame (tabledFrame d : Frame (Machine N)) where
  mem _ _ := id
  pagecache _ _ _ := id
  inodes _ _ := id
  held _ _ := id
  files _ _ := id
  freelist _ _ := id
  procs _ _ := id
  nextpid _ _ := id
  reset _ _ h := tabled_setDir (fun _ ↦ .empty) h
  table _ _ i pgtab h := tabled_setDir (fun hdir ↦ hdir.withTable i pgtab) h
  entry _ _ _ pte htable h := tabled_setDir (fun hdir ↦ hdir.withPte htable pte) h

/-! ## Mapping one page -/

/-- Nothing but memory and the page cache changes, and no cached page moves. -/
def bufferFrame : Frame (Machine N) where
  rel s t := t = { s with mem := t.mem, pagecache := t.pagecache } ∧
    ∀ i, (t.pagecache.pages i).page = (s.pagecache.pages i).page
  refl s := ⟨rfl, fun _ ↦ rfl⟩
  trans := by
    intro s t u hst htu
    refine ⟨?_, fun i ↦ (htu.2 i).trans (hst.2 i)⟩
    rw [htu.1, hst.1]

theorem cacheFrame_bufferFrame : CacheFrame (bufferFrame : Frame (Machine N)) where
  mem _ _ := ⟨rfl, fun _ ↦ rfl⟩
  pagecache _ _ h := ⟨rfl, h⟩

namespace Machine

/-- The state after a walk for `va` that adds a page-table page if there is none; `none` if there is
no frame for it. -/
def walked (s : Machine N) (d va : Word) : Option (Machine N) :=
  if ((s.pgdirs d).tabs (vpn va).pdx).isSome then some s
  else
    match s.freelist with
    | [] => none
    | pgtab :: rest =>
      some ({ s with
        mem := fun a ↦ if (a - pgtab).toNat < 4096 then 0 else s.mem a
        freelist := rest }.setDir d ((s.pgdirs d).withTable (vpn va).pdx pgtab))

/-- What a walk may change: directory `d` gets a page-table page, taken from the free list. -/
structure Grown (s : Machine N) (d : Word) (u : Machine N) : Prop where
  others : ∀ d', d' ≠ d → u.pgdirs d' = s.pgdirs d'
  entries : (s.pgdirs d).Tabled → (u.pgdirs d).pte = (s.pgdirs d).pte
  free : u.freelist <:+ s.freelist
  mem : ∀ a, (∀ f ∈ s.freelist, 4096 ≤ (a - f).toNat) → u.mem a = s.mem a
  rest : u = { s with mem := u.mem, freelist := u.freelist, pgdirs := u.pgdirs }
  count : s.freelist.length ≤ u.freelist.length + 1

variable {va : Word}

theorem grown_of_walked (h : s.walked d va = some u) :
    Grown s d u := by
  rw [walked] at h
  split at h
  · cases h
    exact ⟨fun _ _ ↦ rfl, fun _ ↦ rfl, suffix_refl _, fun _ _ ↦ rfl, rfl, Nat.le_succ _⟩
  · rename_i htable
    cases hfree : s.freelist with
    | nil =>
      rw [hfree] at h
      cases h
    | cons pgtab rest =>
      rw [hfree] at h
      cases h
      refine ⟨fun d' hne ↦ pgdirs_setDir_of_ne _ _ hne, ?_, ?_, ?_, rfl, ?_⟩
      · intro htabled
        rw [pgdirs_setDir_self]
        exact htabled.pte_withTable (by simpa using htable) pgtab
      · rw [hfree]
        exact suffix_cons pgtab rest
      · intro a ha
        have hfar := ha pgtab (hfree ▸ mem_cons_self)
        exact if_neg (by omega)
      · rw [hfree]
        exact le_rfl

/-- After a walk there is a page-table page. -/
theorem isSome_of_walked (h : s.walked d va = some u) :
    ((u.pgdirs d).tabs (vpn va).pdx).isSome = true := by
  rw [walked] at h
  split at h
  · rename_i htable
    cases h
    exact htable
  · split at h
    · cases h
    · cases h
      rw [pgdirs_setDir_self, PageDir.withTable]
      simp only [update_self, Option.isSome_some]

theorem tabled_of_walked (h : s.walked d va = some u)
    (htabled : (s.pgdirs d).Tabled) : (u.pgdirs d).Tabled := by
  rw [walked] at h
  split at h
  · cases h
    exact htabled
  · split at h
    · cases h
    · cases h
      rw [pgdirs_setDir_self]
      exact htabled.withTable _ _

end Machine

namespace Kernel

open Machine

variable {p : Fin N} {d va pa perm : Word} {s t : Machine N} {rest : List Word}

theorem walkpgdir_true_apply (d va : Word) (s : Machine N) :
    walkpgdir d va true s =
      match s.walked d va with
      | none => (.ok none, s)
      | some u => (.ok (some (vpn va)), u) := by
  rw [walkpgdir, bind_of_ok (get_apply s), walked]
  by_cases htable : ((s.pgdirs d).tabs (vpn va).pdx).isSome = true
  · rw [if_pos htable, if_pos htable]
    rfl
  · rw [if_neg htable, if_neg htable, if_pos rfl, bind_apply, kalloc]
    cases hfree : s.freelist with
    | nil | cons pgtab rest => rfl

/-- `mapPage` walks, refuses to map a page twice, and writes one entry. -/
theorem mapPage_apply (d va pa perm : Word) (s : Machine N) :
    mapPage d va pa perm s =
      match s.walked d va with
      | none => (.ok false, s)
      | some u =>
        if ((u.pgdirs d).pte (vpn va)).has pteP then (.error .panic, u)
        else (.ok true, u.setPte d (vpn va) (pa ||| perm ||| pteP)) := by
  rw [mapPage, bind_apply, walkpgdir_true_apply]
  cases s.walked d va with
  | none => rfl
  | some u =>
    dsimp only
    rw [readPte, bind_assoc_prog, bind_of_ok (get_apply u), bind_of_ok (pure_apply _ u)]
    split
    · rfl
    · rfl

theorem mapPage_run (d va pa perm : Word) (s : Machine N) :
    Triple (· = s) (mapPage d va pa perm)
      (fun mapped t ↦ if mapped then ∃ u, s.walked d va = some u ∧
          ((u.pgdirs d).pte (vpn va)).has pteP = false ∧
          t = u.setPte d (vpn va) (pa ||| perm ||| pteP)
        else s.walked d va = none ∧ t = s)
      fun _ t ↦ s.walked d va = some t ∧ ((t.pgdirs d).pte (vpn va)).has pteP = true := by
  rintro t rfl
  rw [mapPage_apply]
  cases hwalked : t.walked d va with
  | none => exact ⟨rfl, rfl⟩
  | some u => grind

/-- Going on after `kalloc` from a known state. -/
theorem kalloc_rule {α : Type} {P : Machine N → Prop} {k : Option Word → Kernel N α}
    {Q : α → Machine N → Prop} {E : Halt → Machine N → Prop}
    (hnone : ∀ s, P s → s.freelist = [] → Triple (· = s) (k none) Q E)
    (hsome : ∀ s frame rest, P s → s.freelist = frame :: rest →
      Triple (fun t ↦ t = { s with freelist := rest }) (k (some frame)) Q E) :
    Triple P (kalloc >>= k) Q E := by
  intro s hs
  cases hfree : s.freelist with
  | nil =>
    have hkalloc : kalloc s = (.ok none, s) := by rw [kalloc, hfree]
    rw [bind_of_ok hkalloc]
    exact hnone s hs hfree s rfl
  | cons frame rest =>
    have hkalloc : kalloc s = (.ok (some frame), { s with freelist := rest }) := by
      rw [kalloc, hfree]
    rw [bind_of_ok hkalloc]
    exact hsome s frame rest hs hfree _ rfl

/-- The entries of all page tables and the processes are as they were. -/
def SameEntries (s t : Machine N) : Prop :=
  (∀ d v, (t.pgdirs d).pte v = (s.pgdirs d).pte v) ∧ t.procs = s.procs

theorem SameEntries.refl (s : Machine N) : SameEntries s s := ⟨fun _ _ ↦ rfl, rfl⟩

theorem SameEntries.trans (hst : SameEntries s t) (htu : SameEntries t u) :
    SameEntries s u :=
  ⟨fun d v ↦ (htu.1 d v).trans (hst.1 d v), htu.2.trans hst.2⟩

theorem SameEntries.of_grown (h : Grown s d t) (htabled : (s.pgdirs d).Tabled) :
    SameEntries s t := by
  refine ⟨fun d' v ↦ ?_, ?_⟩
  · by_cases hd : d' = d
    · subst hd
      rw [h.entries htabled]
    · rw [h.others d' hd]
  · rw [h.rest]

/-- Since `s`, the first free frame has been mapped at `va` in directory `d`. -/
structure Installed (s : Machine N) (d va perm frame : Word) (t : Machine N) : Prop where
  taken : s.freelist.head? = some frame
  free : t.freelist <:+ s.freelist.tail
  entry : (t.pgdirs d).pte (vpn va) = frame ||| perm ||| pteP
  absent : ((s.pgdirs d).pte (vpn va)).has pteP = false
  others : ∀ d' v, d' ≠ d ∨ v ≠ vpn va → (t.pgdirs d').pte v = (s.pgdirs d').pte v
  procs : t.procs = s.procs
  count : s.freelist.length ≤ t.freelist.length + 2

theorem sameEntries_of_buffer
    (h : bufferFrame.rel { s with freelist := rest } u) : SameEntries s u := by
  rw [h.1]
  exact ⟨fun _ _ ↦ rfl, rfl⟩

/-- Mapping a frame that has just been taken. -/
theorem mapPage_installs (va perm : Word) {frame : Word}
    (hfree : s.freelist = frame :: rest) (htabled : (s.pgdirs d).Tabled) :
    Triple (bufferFrame.rel { s with freelist := rest }) (mapPage d va frame perm)
      (fun mapped t ↦ bif mapped then Installed s d va perm frame t else SameEntries s t)
      fun _ t ↦ SameEntries s t := by
  refine .of_forall fun u hbuffer ↦ ?_
  have hsame := sameEntries_of_buffer hbuffer
  have hdir : u.pgdirs = s.pgdirs := by rw [hbuffer.1]
  have hrest : u.freelist = rest := by rw [hbuffer.1]
  have hentries {w : Machine N} (hwalked : u.walked d va = some w) : SameEntries s w :=
    hsame.trans (.of_grown (grown_of_walked hwalked) (by rwa [hdir]))
  refine (mapPage_run d va frame perm u).post ?_ fun _ t ht ↦ hentries ht.1
  intro mapped t ht
  cases mapped with
  | false =>
    obtain ⟨_, rfl⟩ := ht
    exact hsame
  | true =>
    obtain ⟨w, hwalked, habsent, rfl⟩ := ht
    have hgrown := grown_of_walked hwalked
    have hkept := hentries hwalked
    refine ⟨by rw [hfree]; rfl, ?_, pte_setPte_self w d _ _, ?_, ?_, hkept.2, ?_⟩
    · rw [hfree, tail_cons, ← hrest]
      exact hgrown.free
    · rw [← hkept.1]
      exact habsent
    · intro d' v hne
      rw [pte_setPte_of_ne w _ hne]
      exact hkept.1 d' v
    · have hcount := hgrown.count
      rw [hfree, length_cons, ← hrest]
      exact Nat.succ_le_succ hcount

/-- The outcome of storing at most one page: it has been mapped in the first free frame, or no entry
has changed, and then the call has failed or there was nothing to store. -/
def StoredPage (s : Machine N) (d va perm size : Word) (r : Word) (t : Machine N) : Prop :=
  (∃ frame, Installed s d va perm frame t) ∨
    SameEntries s t ∧ (r.slt 0 = true ∨ size.count = 0 ∧ t = s)

theorem kalloc_nil (hfree : s.freelist = []) : kalloc s = (.ok none, s) := by
  rw [kalloc, hfree]

theorem kalloc_cons {frame : Word} (hfree : s.freelist = frame :: rest) :
    kalloc s = (.ok (some frame), { s with freelist := rest }) := by
  rw [kalloc, hfree]

theorem mapPagecachePageUtil_stored (haligned : va.toNat % 4096 = 0)
    (htabled : (s.pgdirs (s.procs p).pgdir).Tabled) (f offset size : Word) :
    Triple (· = s) (mapPagecachePageUtil p f va perm offset size)
      (fun r t ↦ (∃ frame, Installed s (s.procs p).pgdir va perm frame t) ∨
        (r = -1 ∧ SameEntries s t)) fun _ t ↦ SameEntries s t := by
  have hbuffer := cacheFrame_bufferFrame (N := N)
  apply kalloc_rule
  · rintro t rfl _
    exact .pure fun u hu ↦ .inr ⟨rfl, hu ▸ .refl t⟩
  · rintro t frame rest rfl hfree
    refine (Triple.of_frame (respects_memset hbuffer frame 0 4096) _).seq
      (fun _ _ ↦ sameEntries_of_buffer) fun _ ↦ .get_bind fun u hu ↦ ?_
    have hdir : (u.procs p).pgdir = (t.procs p).pgdir := by rw [(sameEntries_of_buffer hu).2]
    refine ((Triple.since (respects_fillPage hbuffer (u.files f).ip (size.toNat + 1) frame offset 0
      size) _).at_state hu).seq (fun _ _ ↦ sameEntries_of_buffer) fun _ ↦ ?_
    rw [mappages_page haligned, hdir]
    refine .bind (mapPage_installs va perm hfree htabled) fun mapped ↦ ?_
    cases mapped with
    | true => exact .pure fun w hw ↦ .inl ⟨frame, hw⟩
    | false => exact .pure fun w hw ↦ .inr ⟨rfl, hw⟩

section

variable (haligned : va.toNat % 4096 = 0) (hlow : 4096 ≤ va.toNat)
  (htabled : (s.pgdirs (s.procs p).pgdir).Tabled)
include haligned hlow htabled

theorem mapAnonPage_stored :
    Triple (· = s) (mapAnonPage p va perm)
      (fun r t ↦ (∃ frame, Installed s (s.procs p).pgdir va perm frame t) ∨
        (r = -1 ∧ SameEntries s t)) fun _ t ↦ SameEntries s t := by
  apply kalloc_rule
  · rintro t rfl _
    exact .pure fun u hu ↦ .inr ⟨rfl, hu ▸ .refl t⟩
  · rintro t frame rest rfl hfree
    refine (Triple.of_frame (respects_memset (cacheFrame_bufferFrame (N := N)) frame 0 4096) _).seq
      (fun _ _ ↦ sameEntries_of_buffer) fun _ ↦ .get_bind fun u hu ↦ ?_
    have hdir : (u.procs p).pgdir = (t.procs p).pgdir := by rw [(sameEntries_of_buffer hu).2]
    rw [mappages_page haligned, deallocuvm_swapped hlow, hdir]
    refine .bind ((mapPage_installs va perm hfree htabled).at_state hu) fun mapped ↦ ?_
    cases mapped with
    | true => exact .pure fun w hw ↦ .inl ⟨frame, hw⟩
    | false =>
      refine .bind (Q := fun _ ↦ SameEntries t) (.pure fun _ hw ↦ hw) fun _ ↦
        .bind (Q := fun _ ↦ SameEntries t) ?_ fun _ ↦ .pure fun w hw ↦ .inr ⟨rfl, hw⟩
      intro w hw
      rw [kfree_apply]
      by_cases hrejected : (frame % pgSize != 0 || frame < w.kend || physTop ≤ frame) = true
      · rw [if_pos hrejected]
        exact hw
      · rw [if_neg hrejected]
        exact hw

/-- **`mmap_store_data` of at most one page** maps the first free frame, or changes no entry. -/
theorem mmapStoreData_stored {size : Word} (hsize : size.count ≤ 4096) (flags perm f offset : Word)
    :
    Triple (· = s) (mmapStoreData p va size flags perm f offset)
      (StoredPage s (s.procs p).pgdir va perm size) fun _ t ↦ SameEntries s t := by
  refine mmapStoreData_cases hsize ?_ (fun _ ↦ mapAnonPage_stored haligned hlow htabled)
    (fun _ _ ↦ mapPagecachePageUtil_stored haligned htabled f offset size) ?_ ?_
  · rintro hzero r t rfl
    exact .inr ⟨.refl t, .inr ⟨hzero, rfl⟩⟩
  · rintro r t (hinstalled | ⟨_, hsame⟩) _
    · exact .inl hinstalled
    · exact .inr ⟨hsame, .inl rfl⟩
  · rintro r r' t (hinstalled | ⟨rfl, _⟩) hpositive
    · exact .inl hinstalled
    · cases hpositive

end

theorem vpn_pgRoundDown (addr : Word) : vpn (pgRoundDown addr) = vpn addr := by
  apply BitVec.eq_of_toNat_eq
  rw [toNat_vpn, toNat_vpn, toNat_pgRoundDown]
  omega

/-- The outcome of a page fault of `p` at `addr`: no entry has changed, or the page of `addr` has
been mapped in the first free frame with the protection of the entry that the handler has picked. -/
def Faulted (s : Machine N) (p : Fin N) (addr : Word) (t : Machine N) : Prop :=
  (∀ d v, (t.pgdirs d).pte v = (s.pgdirs d).pte v) ∨
    ∃ i frame u, faultEntry (s.procs p).mmaps addr = some i ∧
      Installed s (s.procs p).pgdir (pgRoundDown addr) ((s.procs p).mmaps i).protection frame u ∧
      t.pgdirs = u.pgdirs ∧ t.freelist = u.freelist

theorem Faulted.congr {addr : Word} (h : Faulted s p addr t)
    (hdirs : u.pgdirs = t.pgdirs) (hfree : u.freelist = t.freelist) : Faulted s p addr u := by
  rcases h with hsame | ⟨i, frame, w, hentry, hinstalled, hdirs', hfree'⟩
  · refine .inl fun d v ↦ ?_
    rw [hdirs]
    exact hsame d v
  · exact .inr ⟨i, frame, w, hentry, hinstalled, hdirs.trans hdirs', hfree.trans hfree'⟩

/-- **A page fault maps the first free frame**, or changes no entry. -/
theorem handlePageFault_faulted {addr : Word} (hbase : mmapBase ≤ addr)
    (htabled : (s.pgdirs (s.procs p).pgdir).Tabled) :
    Triple (· = s) (handlePageFault p addr) (fun _ ↦ Faulted s p addr)
      fun _ ↦ Faulted s p addr := by
  obtain ⟨haligned, hlow⟩ := le_toNat_pgRoundDown hbase
  refine handlePageFault_cases (.inl fun _ _ ↦ rfl) (.modify fun t ht ↦ ht.congr rfl rfl)
    (fun i _ ↦ .modify fun t ht ↦ ht.congr rfl rfl) fun i hentry ↦ ?_
  have hsize := count_le_of_toNat_le (MmapRegion.faultSize_le ((s.procs p).mmaps i))
  refine (mmapStoreData_stored haligned hlow htabled hsize _ _ _ _).post ?_ fun _ t ht ↦ .inl ht.1
  rintro r t (⟨frame, hinstalled⟩ | ⟨hsame, _⟩)
  · exact .inr ⟨i, frame, t, hentry, hinstalled, rfl, rfl⟩
  · exact .inl hsame.1

/-! ## The handler as an equation -/

theorem handlePageFault_unserved {addr : Word} (h : faultEntry (t.procs p).mmaps addr = none) :
    handlePageFault p addr t = kill p t := by
  rw [handlePageFault, bind_of_ok (get_apply t)]
  dsimp only
  rw [h]

/-- `get_physical_page` finds no frame for the page of `addr`. -/
def Frameless (t : Machine N) (p : Fin N) (addr : Word) : Prop :=
  ((t.pgdirs (t.procs p).pgdir).tabs (vpn addr).pdx).isSome = true →
    pteAddr ((t.pgdirs (t.procs p).pgdir).pte (vpn addr)) = 0

instance (addr : Word) : Decidable (Frameless t p addr) := inferInstanceAs (Decidable (_ → _))

section Handler

variable {addr : Word} {e : ℕ} (hentry : faultEntry (t.procs p).mmaps addr = some e)
include hentry

/-- A page that has a frame makes the handler kill the process. -/
theorem handlePageFault_stale (hframe : ¬ Frameless t p addr) :
    handlePageFault p addr t = kill p t := by
  obtain ⟨htable, hstale⟩ := Classical.not_imp.mp hframe
  rw [handlePageFault, bind_of_ok (get_apply t)]
  dsimp only
  rw [hentry]
  dsimp only
  rw [bind_of_ok (getPhysicalPage_apply _ _ _), vpn_pgRoundDown, if_pos htable]
  dsimp only
  rw [if_pos (bne_iff_ne.mpr hstale)]

variable (hclear : Frameless t p addr)
include hclear

/-- The handler goes on to store data for the entry that it has picked. -/
theorem handlePageFault_stores :
    handlePageFault p addr t = (do
      let r ← serve p addr ((t.procs p).mmaps e)
      if r.slt 0 then
        kill p
        addStored p e pgSize
      else addStored p e pgSize) t := by
  rw [handlePageFault, bind_of_ok (get_apply t)]
  dsimp only
  rw [hentry]
  dsimp only
  rw [bind_of_ok (getPhysicalPage_apply _ _ _), vpn_pgRoundDown]
  by_cases htable : ((t.pgdirs (t.procs p).pgdir).tabs (vpn addr).pdx).isSome = true
  · rw [if_pos htable, hclear htable]
    rfl
  · rw [if_neg htable]
    rfl

omit hentry hclear in
theorem mmapStoreData_zero (addr flags protection f offset : Word) :
    mmapStoreData p addr 0 flags protection f offset t = (.ok 0, t) := by
  have hnone : ((0 : Word).count + 4095) / 4096 = 0 := by decide
  rw [mmapStoreData, mapAnonMain, mapPagecachePage, hnone]
  split
  · rfl
  · rfl

/-- With no bytes left to store, a fault maps nothing and is charged all the same. -/
theorem handlePageFault_nothing (hsize : MmapRegion.faultSize ((t.procs p).mmaps e) = 0) :
    handlePageFault p addr t = (.ok (), (addStored p e pgSize t).2) := by
  rw [handlePageFault_stores hentry hclear, serve, hsize, bind_of_ok (mmapStoreData_zero _ _ _ _ _),
    if_neg (by decide)]
  rfl

end Handler

end Kernel

end Xv6Mmap
