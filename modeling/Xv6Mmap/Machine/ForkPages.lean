import Xv6Mmap.Machine.ForkEntries

/-!
# The pages that `copy_maps` copies

One iteration of the inner loop of `copy_maps` looks at one page of one region of the parent.  This
module says what it does to the entries of both page tables, to the free list and to memory, and
carries that through the loops: after a successful `fork`, every page of a live region has been
shared or copied, and nothing else of the mapping area has changed.
-/

namespace Xv6Mmap

open Function Library Prog Memory RegionTable List

variable {N : ℕ}

namespace Kernel

open Machine

variable {s t : Machine N} {d : Word} {u : Machine N} {frame : Word} {k j : ℕ}

/-! ## Frames handed out -/

/-- The frames that `kalloc` has handed out since `s`. -/
def Issued (s t : Machine N) (frame : Word) : Prop :=
  ∃ issued, s.freelist = issued ++ t.freelist ∧ frame ∈ issued

theorem Issued.of_suffix (h : Issued s t frame)
    (hfree : u.freelist <:+ t.freelist) : Issued s u frame := by
  obtain ⟨issued, hsplit, hmem⟩ := h
  obtain ⟨more, hmore⟩ := hfree
  refine ⟨issued ++ more, ?_, mem_append_left more hmem⟩
  rw [hsplit, ← hmore, append_assoc]

theorem Issued.since (h : Issued t u frame)
    (hfree : t.freelist <:+ s.freelist) : Issued s u frame := by
  obtain ⟨issued, hsplit, hmem⟩ := h
  obtain ⟨more, hmore⟩ := hfree
  refine ⟨more ++ issued, ?_, mem_append_right more hmem⟩
  rw [← hmore, hsplit, append_assoc]

theorem issued_head (hhead : s.freelist.head? = some frame)
    (hfree : t.freelist <:+ s.freelist.tail) : Issued s t frame := by
  obtain ⟨more, hmore⟩ := hfree
  obtain ⟨rest, hrest⟩ := List.head?_eq_some_iff.mp hhead
  refine ⟨frame :: more, ?_, mem_cons_self⟩
  rw [cons_append, hmore, hrest, tail_cons]

theorem mem_of_issued (h : Issued s t frame) : frame ∈ s.freelist := by
  obtain ⟨issued, hsplit, hmem⟩ := h
  rw [hsplit]
  exact mem_append_left _ hmem

/-- An issued frame has left the free list. -/
theorem not_mem_of_issued (h : Issued s t frame) (hnodup : s.freelist.Nodup) :
    frame ∉ t.freelist := by
  obtain ⟨issued, hsplit, hmem⟩ := h
  rw [hsplit] at hnodup
  exact disjoint_of_nodup_append hnodup hmem

/-! ## One page -/

section Page

variable {p np : Fin N} {i : ℕ} {start : Word} {w : Machine N}

/-- `get_physical_page` tells the frame address of the entry, also where there is no table. -/
theorem getPhysicalPage_tabled {α : Type} {k : Option Vpn × Word → Kernel N α}
    {Q : α → Machine N → Prop} {E : Halt → Machine N → Prop} (va : Word)
    (htabled : (s.pgdirs d).Tabled) (h : ∀ found, Triple (· = s)
      (k (found, pteAddr ((s.pgdirs d).pte (vpn va)))) Q E) :
    Triple (· = s) (getPhysicalPage d va >>= k) Q E := by
  rintro t rfl
  rw [bind_of_ok (getPhysicalPage_apply d va t)]
  by_cases htable : ((t.pgdirs d).tabs (vpn va).pdx).isSome = true
  · rw [if_pos htable]
    exact h _ t rfl
  · have habsent := htabled (vpn va) (by simpa using htable)
    have hnone := h none t rfl
    rw [habsent] at hnone
    rwa [if_neg htable]

/-- The bytes of an absent shared page that `copy_maps` loads. -/
def loadSize (mr : MmapRegion) : Word :=
  if (mr.size - mr.storedSize).slt pgSize then mr.size - mr.storedSize else pgSize

/-- The state after `addStored`. -/
def withStored (t : Machine N) (p : Fin N) (i : ℕ) (n : Word) : Machine N :=
  { t with procs := update t.procs p { t.procs p with
      mmaps := (t.procs p).mmaps.set i { (t.procs p).mmaps i with
        storedSize := ((t.procs p).mmaps i).storedSize + n } } }

/-- What `copy_maps` relies on while it copies: the two directories are apart and in order, and so
are the free frames and those of the page cache. -/
structure CopyReady (p np : Fin N) (t : Machine N) : Prop where
  apart : (t.procs p).pgdir ≠ (t.procs np).pgdir
  parent_tabled : (t.pgdirs (t.procs p).pgdir).Tabled
  child_tabled : (t.pgdirs (t.procs np).pgdir).Tabled
  free_ok : ∀ f ∈ t.freelist, f ≠ 0 ∧ f.toNat % 4096 = 0
  free_nodup : t.freelist.Nodup
  cache_apart : ∀ i, (t.pagecache.pages i).page.toNat % 4096 = 0 ∧
    (t.pagecache.pages i).page ∉ t.freelist

/-- What is known before `copy_maps` comes to the page at `start`. -/
structure PageReady (p np : Fin N) (start : Word) (t : Machine N) : Prop
    extends CopyReady p np t where
  child_empty : (t.pgdirs (t.procs np).pgdir).pte (vpn start) = 0

/-- The outcome of mapping frame `pa` at the empty page `start` of directory `d`. -/
structure ChildMapped (w : Machine N) (d start perm pa : Word) (mapped : Bool) (u : Machine N) :
    Prop where
  taking : w.Taking u
  count : w.freelist.length ≤ u.freelist.length + 1
  procs : u.procs = w.procs
  entry : mapped = true → (u.pgdirs d).pte (vpn start) = pa ||| perm ||| pteP
  failed : mapped = false → (u.pgdirs d).pte (vpn start) = 0 ∧ u.freelist = []
  others : ∀ d' v, d' ≠ d ∨ v ≠ vpn start → (u.pgdirs d').pte v = (w.pgdirs d').pte v

/-- `memmove` as one write. -/
theorem memmove_eq (dst src : Word) (n : ℕ) : (memmove dst src n : Kernel N Unit) =
    .modify fun s : Machine N ↦ { s with
      mem := blit s.mem dst n fun k ↦ s.mem (src + BitVec.ofNat 32 k) } := by
  funext s
  rw [memmove_apply, modify_apply]

theorem freelist_of_walked {va : Word} (h : s.walked d va = none) : s.freelist = [] := by
  grind [walked]

/-- Mapping a page of the child. -/
theorem mapChild_run (perm pa : Word) (haligned : start.toNat % 4096 = 0)
    (htabled : (w.pgdirs d).Tabled) (hempty : (w.pgdirs d).pte (vpn start) = 0) :
    Triple (· = w) (mappages d start pgSize pa perm) (ChildMapped w d start perm pa)
      fun _ _ ↦ True := by
  rw [mappages_page haligned]
  refine (mapPage_run d start pa perm w).post ?_ fun _ _ _ ↦ trivial
  intro mapped u hu
  cases mapped with
  | true =>
    obtain ⟨x, hwalked, _, rfl⟩ := hu
    have hgrown := grown_of_walked hwalked
    have hsame := SameEntries.of_grown hgrown htabled
    constructor
    case taking => exact (Taking.of_grown hgrown).congr rfl rfl fun _ ↦ rfl
    case count => exact hgrown.count
    case procs => exact hsame.2
    case entry => exact fun _ ↦ pte_setPte_self x d _ _
    case failed => exact nofun
    case others =>
      intro d' v hne
      rw [pte_setPte_of_ne x _ hne]
      exact hsame.1 d' v
  | false =>
    obtain ⟨hwalked, rfl⟩ := hu
    constructor
    case taking => exact .refl u
    case count => exact Nat.le_succ _
    case procs => rfl
    case entry => exact nofun
    case failed => exact fun _ ↦ ⟨hempty, freelist_of_walked hwalked⟩
    case others => exact fun _ _ _ ↦ rfl

theorem count_loadSize {mr : MmapRegion} (h : 0 < (mr.size - mr.storedSize).toInt) :
    (loadSize mr).count ≠ 0 := by
  rw [loadSize]
  split
  · rw [Word.count]
    omega
  · decide

/-- What copying page `start` of region `i` does, whatever the kind of the region: at most three
frames are taken, and the entries of other pages stay as they were. -/
structure PageStep (p np : Fin N) (i : ℕ) (start : Word) (t u : Machine N) : Prop where
  taking : t.Taking u
  count : t.freelist.length ≤ u.freelist.length + 3
  others : ∀ d v, (d ≠ (t.procs p).pgdir ∧ d ≠ (t.procs np).pgdir) ∨ v ≠ vpn start →
    (u.pgdirs d).pte v = (t.pgdirs d).pte v
  procs : u.procs = if ((t.procs p).mmaps i).flags.has mapShared = true ∧
      pteAddr ((t.pgdirs (t.procs p).pgdir).pte (vpn start)) = 0 then
    (withStored t p i (loadSize ((t.procs p).mmaps i))).procs else t.procs

/-- Page `v` of region `r`, copied since `b` from directory `pd` to directory `cd`.  Of a shared page
parent and child map one frame, or there was no frame left for a page table of the child; of a private
page that the parent has, the child has a frame of its own with the same bytes. -/
structure CopiedPage (b : Machine N) (pd cd : Word) (r : Region) (v : Vpn) (t : Machine N) :
    Prop where
  kept : pteAddr ((b.pgdirs pd).pte v) ≠ 0 ∨ r.flags.has mapShared = false →
    (t.pgdirs pd).pte v = (b.pgdirs pd).pte v
  loaded : r.flags.has mapShared = true → pteAddr ((b.pgdirs pd).pte v) = 0 →
    ∃ frame, Issued b t frame ∧ (t.pgdirs pd).pte v = frame ||| r.protection ||| pteP
  shared : r.flags.has mapShared = true → ((t.pgdirs cd).pte v = 0 ∧ t.freelist = []) ∨
    (t.pgdirs cd).pte v = pteAddr ((t.pgdirs pd).pte v) ||| r.protection ||| pteP
  absent : r.flags.has mapShared = false → pteAddr ((b.pgdirs pd).pte v) = 0 →
    (t.pgdirs cd).pte v = 0
  copied : r.flags.has mapShared = false → pteAddr ((b.pgdirs pd).pte v) ≠ 0 →
    ∃ frame, Issued b t frame ∧ (t.pgdirs cd).pte v = frame ||| r.protection ||| pteP ∧
      ∀ j < 4096, t.mem (frame + BitVec.ofNat 32 j) =
        b.mem (pteAddr ((b.pgdirs pd).pte v) + BitVec.ofNat 32 j)

/-- The page at `start` of region `i` has been copied. -/
structure PageDone (p np : Fin N) (i : ℕ) (start : Word) (t u : Machine N) : Prop
    extends PageStep p np i start t u where
  page : CopiedPage t (t.procs p).pgdir (t.procs np).pgdir ((t.procs p).mmaps i).region (vpn start) u

theorem Taking.withStored (h : s.Taking w) (p : Fin N) (i : ℕ) (n : Word) :
    s.Taking (withStored w p i n) :=
  h.congr rfl rfl fun _ ↦ rfl

/-- The end of `sharePage` for a page that has just been loaded. -/
theorem shareLoaded (hready : PageReady p np start t) (haligned : start.toNat % 4096 = 0)
    (hshared : ((t.procs p).mmaps i).flags.has mapShared = true)
    (habsent : pteAddr ((t.pgdirs (t.procs p).pgdir).pte (vpn start)) = 0) (htaking : t.Taking w)
    (hinstalled : Installed t (t.procs p).pgdir start ((t.procs p).mmaps i).protection frame w)
    (hparent : (w.pgdirs (t.procs p).pgdir).Tabled) (hchild : (w.pgdirs (t.procs np).pgdir).Tabled)
    :
    Triple (fun u ↦ u = withStored w p i (loadSize ((t.procs p).mmaps i)))
      (do
        let (_, pa) ← getPhysicalPage (t.procs p).pgdir start
        let _ ← mappages (t.procs np).pgdir start pgSize pa ((t.procs p).mmaps i).protection
        return true)
      (fun _ ↦ PageDone p np i start t) fun _ _ ↦ True := by
  have hempty : (w.pgdirs (t.procs np).pgdir).pte (vpn start) = 0 := by
    rw [hinstalled.others _ _ (.inl hready.apart.symm)]
    exact hready.child_empty
  refine getPhysicalPage_tabled start hparent fun _ ↦
    .bind (mapChild_run _ _ haligned hchild hempty) fun mapped ↦ .pure fun x hx ↦ ?_
  have hkept : (x.pgdirs (t.procs p).pgdir).pte (vpn start) =
      (w.pgdirs (t.procs p).pgdir).pte (vpn start) := hx.others _ _ (.inl hready.apart)
  have hfree : x.freelist <:+ w.freelist := hx.taking.free
  have hcount : w.freelist.length ≤ x.freelist.length + 1 := hx.count
  have hnotPrivate {C : Prop} (h : ((t.procs p).mmaps i).flags.has mapShared = false) : C :=
    absurd (hshared.symm.trans h) (by decide)
  refine ⟨⟨?taking, ?count, ?others, ?procs⟩, ?kept, ?loaded, ?shared, hnotPrivate, hnotPrivate⟩
  case taking => exact (Taking.withStored htaking p i _).trans hx.taking
  case count =>
    have hinstall := hinstalled.count
    omega
  case others =>
    intro d v hne
    have hchildNe : d ≠ (t.procs np).pgdir ∨ v ≠ vpn start := hne.imp And.right id
    have hparentNe : d ≠ (t.procs p).pgdir ∨ v ≠ vpn start := hne.imp And.left id
    exact (hx.others d v hchildNe).trans (hinstalled.others d v hparentNe)
  case procs =>
    rw [if_pos ⟨hshared, habsent⟩, hx.procs, withStored, withStored, hinstalled.procs]
  case kept => exact fun h ↦ h.elim (absurd habsent) hnotPrivate
  case loaded =>
    intro _ _
    refine ⟨frame, issued_head hinstalled.taken (hfree.trans hinstalled.free), ?_⟩
    rw [hkept, hinstalled.entry]
    rfl
  case shared =>
    rw [hkept]
    intro _
    cases mapped with
    | true => exact .inr (hx.entry rfl)
    | false => exact .inl (hx.failed rfl)

/-- **A shared page**: the parent gets a frame if it had none, and the child maps it too. -/
theorem sharePage_entries (hready : PageReady p np start t) (haligned : start.toNat % 4096 = 0)
    (hlow : 4096 ≤ start.toNat) (hshared : ((t.procs p).mmaps i).flags.has mapShared = true)
    (hload : pteAddr ((t.pgdirs (t.procs p).pgdir).pte (vpn start)) = 0 →
      0 < (((t.procs p).mmaps i).size - ((t.procs p).mmaps i).storedSize).toInt) :
    Triple (· = t) (sharePage p np i start)
      (fun copied u ↦ copied = true → PageDone p np i start t u) fun _ _ ↦ True := by
  refine .get_at (getPhysicalPage_tabled start hready.parent_tabled fun _ ↦ ?_)
  dsimp only
  by_cases habsent : pteAddr ((t.pgdirs (t.procs p).pgdir).pte (vpn start)) = 0
  · rw [if_pos habsent]
    have hcount : (loadSize ((t.procs p).mmaps i)).count ≤ 4096 := count_min_le _
    have hstored := ((mmapStoreData_stored haligned hlow hready.parent_tabled
      hcount ((t.procs p).mmaps i).flags ((t.procs p).mmaps i).protection
      ((t.procs p).mmaps i).f ((t.procs p).mmaps i).offset).carry
      (respects_mmapStoreData ((systemFrame_tabled (t.procs p).pgdir).paging p) p
        _ _ _ _ _ _)).carry
      (respects_mmapStoreData ((systemFrame_tabled (t.procs np).pgdir).paging p) p _ _ _ _ _ _)
    have htaking := mmapStoreData_taking (s := t) (p := p) haligned hcount
      ((t.procs p).mmaps i).flags ((t.procs p).mmaps i).protection ((t.procs p).mmaps i).f
      ((t.procs p).mmaps i).offset
    refine ((hstored.and htaking).pre fun w hw ↦ ?_).seq (fun _ _ _ ↦ trivial) fun r ↦ ?_
    · rw [hw]
      exact ⟨⟨⟨rfl, hready.parent_tabled⟩, hready.child_tabled⟩, .refl t⟩
    · split
      · exact .pure nofun
      · rename_i hpositive
        refine .modify_bind fun w hw ↦ ?_
        obtain ⟨⟨⟨hstored, hparentTabled⟩, hchildTabled⟩, htaken⟩ := hw
        obtain ⟨frame, hinstalled⟩ : ∃ frame, Installed t (t.procs p).pgdir start
            ((t.procs p).mmaps i).protection frame w := by
          rcases hstored with hinstalled | ⟨_, hnegative | ⟨hzero, _⟩⟩
          · exact hinstalled
          · exact absurd hnegative hpositive
          · exact absurd hzero (count_loadSize (hload habsent))
        exact (shareLoaded hready haligned hshared habsent (htaken (by simpa using hpositive))
          hinstalled hparentTabled hchildTabled).post (fun _ _ h _ ↦ h) fun _ _ ↦ id
  · rw [if_neg habsent]
    refine .bind (mapChild_run _ _ haligned hready.child_tabled hready.child_empty)
      fun mapped ↦ .pure ?_
    intro w hw _
    have hparent := hw.others _ (vpn start) (.inl hready.apart)
    have hnotPrivate {C : Prop} (h : ((t.procs p).mmaps i).flags.has mapShared = false) : C :=
      absurd (hshared.symm.trans h) (by decide)
    refine ⟨⟨?taking, ?count, ?others, ?procs⟩, ?kept, ?loaded, ?shared, hnotPrivate, hnotPrivate⟩
    case taking => exact hw.taking
    case count =>
      have hcount := hw.count
      omega
    case others => exact fun d v hne ↦ hw.others d v (hne.imp And.right id)
    case procs =>
      rw [if_neg fun h ↦ habsent h.2]
      exact hw.procs
    case kept => exact fun _ ↦ hparent
    case loaded => exact fun _ h ↦ absurd h habsent
    case shared =>
      rw [hparent]
      intro _
      cases mapped with
      | true => exact .inr (hw.entry rfl)
      | false => exact .inl (hw.failed rfl)

/-- A frame that is on no free list later keeps its bytes. -/
theorem Taking.mem_frame (h : u.Taking w) (hk : k < 4096)
    (hfree : ∀ f ∈ u.freelist, f.toNat % 4096 = 0 ∧ f ≠ frame)
    (hcache : ∀ i, (u.pagecache.pages i).page.toNat % 4096 = 0 ∧
      (u.pagecache.pages i).page ≠ frame) (haligned : frame.toNat % 4096 = 0) :
    w.mem (frame + BitVec.ofNat 32 k) = u.mem (frame + BitVec.ofNat 32 k) := by
  grind [h.mem, frame_apart]

/-- **A private page**: the child gets a copy of its own. -/
theorem copyPrivatePage_entries (hready : PageReady p np start t)
    (haligned : start.toNat % 4096 = 0)
    (hprivate : ((t.procs p).mmaps i).flags.has mapShared = false) :
    Triple (· = t) (copyPrivatePage p np i start)
      (fun copied u ↦ copied = true → PageDone p np i start t u) fun _ _ ↦ True := by
  have hnotShared {C : Prop} (h : ((t.procs p).mmaps i).flags.has mapShared = true) : C :=
    absurd (hprivate.symm.trans h) (by decide)
  refine .get_at (getPhysicalPage_tabled start hready.parent_tabled fun _ ↦ ?_)
  dsimp only
  by_cases habsent : pteAddr ((t.pgdirs (t.procs p).pgdir).pte (vpn start)) = 0
  · rw [if_pos habsent]
    refine .pure fun w hw _ ↦ ?_
    subst hw
    exact ⟨⟨.refl w, Nat.le_add_right _ 3, fun _ _ _ ↦ rfl, (if_neg fun h ↦ hnotShared h.1).symm⟩,
      fun _ ↦ rfl, hnotShared, hnotShared, fun _ _ ↦ hready.child_empty, fun _ h ↦ absurd habsent h⟩
  · rw [if_neg habsent]
    refine kalloc_rule (fun _ _ _ ↦ .pure nofun) ?_
    intro w frame rest hw hfree
    subst hw
    dsimp only
    rw [memmove_eq]
    refine .modify_bind fun x hx ↦ .of_forall fun z hz ↦ ?_
    have hdirs : z.pgdirs = w.pgdirs := by rw [hz, hx]
    have hsame : z.procs = w.procs := by rw [hz, hx]
    have hrest : z.freelist = rest := by rw [hz, hx]
    have hcache : z.pagecache = w.pagecache := by rw [hz, hx]
    have hmem : ∀ k < 4096, z.mem (frame + BitVec.ofNat 32 k) =
        w.mem (pteAddr ((w.pgdirs (w.procs p).pgdir).pte (vpn start)) + BitVec.ofNat 32 k) := by
      intro k hk
      rw [hz, hx]
      dsimp only
      rw [blit_offset hk (show 4096 ≤ 2 ^ 32 by decide)]
    have hmap := mapChild_run ((w.procs p).mmaps i).protection frame (d := (w.procs np).pgdir)
      (w := z) haligned
      (by rw [hdirs]; exact hready.child_tabled) (by rw [hdirs]; exact hready.child_empty)
    refine hmap.post ?_ fun _ _ _ ↦ trivial
    intro mapped y hy hmapped
    have htaken : w.Taking z := by
      obtain ⟨htaking, hframe⟩ := (Taking.refl w).pop hfree
      rw [hz, hx]
      exact htaking.blit (writable_frame hframe) _
    have hothers := hy.others
    rw [hdirs] at hothers
    have hframe : frame ∈ w.freelist := by
      rw [hfree]
      exact mem_cons_self
    have hsuffix : y.freelist <:+ w.freelist.tail := by
      rw [hfree, tail_cons, ← hrest]
      exact hy.taking.free
    refine ⟨⟨htaken.trans hy.taking, ?count, fun d v hne ↦ hothers d v (hne.imp And.right id), ?procs⟩,
      fun _ ↦ hothers _ _ (.inl hready.apart), hnotShared, hnotShared, fun _ h ↦ absurd h habsent,
      ?copied⟩
    case count =>
      have hcount := hy.count
      rw [hrest] at hcount
      rw [hfree, length_cons]
      omega
    case procs => rw [if_neg fun h ↦ hnotShared h.1, hy.procs, hsame]
    case copied =>
      intro _ _
      refine ⟨frame, issued_head (by rw [hfree]; rfl) hsuffix, hy.entry hmapped, ?_⟩
      intro k hk
      rw [← hmem k hk]
      apply Taking.mem_frame hy.taking hk _ _ (hready.free_ok frame hframe).2
      · grind [hready.free_nodup, hready.free_ok]
      · grind [hready.cache_apart]

end Page

/-! ## All pages -/

section Loops

variable {b u : Machine N} {p np : Fin N} {r : Region} {i l : ℕ} {pd cd : Word} {v : Vpn}

/-- The absent pages of region `r` from page `k` on. -/
def absentFrom (dir : PageDir) (r : Region) (k : ℕ) : ℕ :=
  (List.range' k (r.pageCount - k)).countP fun l ↦ pteAddr (dir.pte (r.page l)) = 0

/-- The bytes that `stored_size` leaves to load suffice for `n` more pages. -/
def LoadsFit (mr : MmapRegion) (n : ℕ) : Prop :=
  n = 0 ∨ 4096 * (n - 1 : ℤ) < (mr.size - mr.storedSize).toInt

/-- What is known when `copy_maps` starts. -/
structure CopyBase (b : Machine N) (p np : Fin N) : Prop extends CopyReady p np b where
  distinct : p ≠ np
  area : ∀ v, mmapVpn ≤ v → (b.pgdirs (b.procs np).pgdir).pte v = 0
  held : ∀ v, pteAddr ((b.pgdirs (b.procs p).pgdir).pte v) ≠ 0 →
    pteAddr ((b.pgdirs (b.procs p).pgdir).pte v) ∉ b.freelist ∧
      ∀ i, (b.pagecache.pages i).page ≠ pteAddr ((b.pgdirs (b.procs p).pgdir).pte v)
  wellFormed : (b.procs p).mmaps.WellFormed
  loads : ∀ i : ℕ, i < (b.procs p).mmaps.total.toNat →
    ((b.procs p).mmaps i).flags.has mapShared = true →
    LoadsFit ((b.procs p).mmaps i)
      (absentFrom (b.pgdirs (b.procs p).pgdir) ((b.procs p).mmaps i).region 0)

/-- Page `l` of region `j` comes before page `k` of region `i`. -/
def Visited (T : RegionTable) (i k j l : ℕ) : Prop :=
  (j < i ∧ l < (T j).region.pageCount) ∨ (j = i ∧ l < k)

/-- The pages of the regions below `i`. -/
def pagesBelow (T : RegionTable) (i : ℕ) : ℕ :=
  ((List.range i).map fun j : ℕ ↦ (T j).region.pageCount).sum

/-- `copy_maps` has come to page `k` of region `i`. -/
structure Copying (b : Machine N) (p np : Fin N) (i k : ℕ) (t : Machine N) : Prop where
  taking : b.Taking t
  parent_dir : (t.procs p).pgdir = (b.procs p).pgdir
  child_dir : (t.procs np).pgdir = (b.procs np).pgdir
  regions : ∀ j : ℕ, ((t.procs p).mmaps j).region = ((b.procs p).mmaps j).region
  ahead : ∀ j : ℕ, i < j → (t.procs p).mmaps j = (b.procs p).mmaps j
  load : ((b.procs p).mmaps i).flags.has mapShared = true → i < (b.procs p).mmaps.total.toNat →
    LoadsFit ((t.procs p).mmaps i)
      (absentFrom (b.pgdirs (b.procs p).pgdir) ((b.procs p).mmaps i).region k)
  parent_tabled : (t.pgdirs (b.procs p).pgdir).Tabled
  child_tabled : (t.pgdirs (b.procs np).pgdir).Tabled
  others : ∀ d v, (∀ j l, Visited (b.procs p).mmaps i k j l → v ≠ ((b.procs p).mmaps j).region.page l) →
    (t.pgdirs d).pte v = (b.pgdirs d).pte v
  done : ∀ j l, Visited (b.procs p).mmaps i k j l →
    CopiedPage b (b.procs p).pgdir (b.procs np).pgdir ((b.procs p).mmaps j).region
      (((b.procs p).mmaps j).region.page l) t
  count : b.freelist.length ≤ t.freelist.length + 3 * (pagesBelow (b.procs p).mmaps i + k)

theorem absentFrom_succ (dir : PageDir) (hk : k < r.pageCount) :
    absentFrom dir r k =
      absentFrom dir r (k + 1) + if pteAddr (dir.pte (r.page k)) = 0 then 1 else 0 := by
  obtain ⟨m, hm⟩ : ∃ m, r.pageCount - k = m + 1 := ⟨r.pageCount - k - 1, by omega⟩
  have hm' : r.pageCount - (k + 1) = m := by omega
  rw [absentFrom, absentFrom, hm, hm', range'_succ, countP_cons]
  simp only [decide_eq_true_eq]

/-- One page has been loaded. -/
theorem LoadsFit.succ {mr : MmapRegion} {n : ℕ} (h : LoadsFit mr (n + 1)) :
    0 < (mr.size - mr.storedSize).toInt ∧
      LoadsFit { mr with storedSize := mr.storedSize + loadSize mr } n := by
  have hfit : 4096 * (n : ℤ) < (mr.size - mr.storedSize).toInt := by
    rcases h with hzero | hfit
    · cases hzero
    · push_cast at hfit
      omega
  refine ⟨by omega, ?_⟩
  by_cases hn : n = 0
  · exact .inl hn
  · refine .inr ?_
    have hpage : pgSize.toInt = 4096 := rfl
    have hfull : loadSize mr = pgSize := by
      apply if_neg
      simp only [BitVec.slt, decide_eq_true_eq, not_lt]
      omega
    have hrest : mr.size - (mr.storedSize + pgSize) = mr.size - mr.storedSize - pgSize := by
      bv_omega
    have hsub : (mr.size - mr.storedSize - pgSize).toInt =
        (mr.size - mr.storedSize).toInt - 4096 := by grind
    rw [hfull]
    dsimp only
    rw [hrest, hsub]
    omega

theorem visited_succ {T : RegionTable} :
    Visited T i (k + 1) j l ↔ Visited T i k j l ∨ (j = i ∧ l = k) := by
  rw [Visited, Visited]
  omega

theorem visited_next {T : RegionTable} :
    Visited T (i + 1) 0 j l ↔ Visited T i (T i).region.pageCount j l := by
  rw [Visited, Visited]
  constructor
  · grind
  · grind

/-- A visited page is not the next one. -/
theorem CopyBase.page_ne (hb : CopyBase b p np)
    (hi : i < (b.procs p).mmaps.total.toNat) (hk : k < ((b.procs p).mmaps i).region.pageCount)
    (hvisited : Visited (b.procs p).mmaps i k j l) :
    ((b.procs p).mmaps i).region.page k ≠ ((b.procs p).mmaps j).region.page l := by
  intro hequal
  have hj : j < (b.procs p).mmaps.total.toNat := by
    rcases hvisited with ⟨hlt, _⟩ | ⟨rfl, _⟩
    · omega
    · exact hi
  have hl : l < ((b.procs p).mmaps j).region.pageCount := by
    rcases hvisited with ⟨_, hlt⟩ | ⟨rfl, hlt⟩
    · exact hlt
    · omega
  obtain ⟨rfl, rfl⟩ := hb.wellFormed.page_injective hi hj hk hl hequal
  rcases hvisited with ⟨hlt, _⟩ | ⟨_, hlt⟩
  · exact lt_irrefl _ hlt
  · exact lt_irrefl _ hlt

/-- A frame that has been handed out is not on the free list any more, nor in the page cache. -/
theorem CopyBase.issued_apart (hb : CopyBase b p np) (h : Issued b t frame) :
    frame.toNat % 4096 = 0 ∧ frame ∉ t.freelist ∧
      ∀ i, (b.pagecache.pages i).page ≠ frame := by
  grind [mem_of_issued, hb.free_ok, not_mem_of_issued, hb.free_nodup, hb.cache_apart]

/-- Bytes of a frame that was not free, or has been handed out, survive what follows. -/
theorem CopyBase.mem_eq (hb : CopyBase b p np) (hbt : b.Taking t) (htu : t.Taking u)
    (haligned : frame.toNat % 4096 = 0) (hfree : frame ∉ t.freelist)
    (hcache : ∀ i, (b.pagecache.pages i).page ≠ frame) (hj : j < 4096) :
    u.mem (frame + BitVec.ofNat 32 j) = t.mem (frame + BitVec.ofNat 32 j) := by
  apply Taking.mem_frame htu hj _ _ haligned
  · grind [hb.free_ok, hbt.free.subset]
  · intro i
    rw [hbt.pages i]
    exact ⟨(hb.cache_apart i).1, hcache i⟩

/-- A copied page stays as it is while its entries and the frames handed out do. -/
theorem CopiedPage.later (h : CopiedPage b pd cd r v t)
    (hpte : ∀ d, (u.pgdirs d).pte v = (t.pgdirs d).pte v)
    (hfree : u.freelist <:+ t.freelist) (hmem : ∀ frame, Issued b t frame → ∀ j < 4096,
      u.mem (frame + BitVec.ofNat 32 j) = t.mem (frame + BitVec.ofNat 32 j)) :
    CopiedPage b pd cd r v u := by
  constructor
  case kept =>
    rw [hpte]
    exact h.kept
  case loaded =>
    intro hshared habsent
    obtain ⟨frame, hissued, hentry⟩ := h.loaded hshared habsent
    exact ⟨frame, hissued.of_suffix hfree, (hpte pd).trans hentry⟩
  case shared => grind [h.shared]
  case absent =>
    rw [hpte]
    exact h.absent
  case copied =>
    intro hprivate hpresent
    obtain ⟨frame, hissued, hentry, hbytes⟩ := h.copied hprivate hpresent
    refine ⟨frame, hissued.of_suffix hfree, (hpte cd).trans hentry, fun j hj ↦ ?_⟩
    rw [hmem frame hissued j hj]
    exact hbytes j hj

/-- A page that has been copied since `t`, seen from an earlier state. -/
theorem CopiedPage.since (h : CopiedPage t pd cd r v u)
    (hpte : (t.pgdirs pd).pte v = (b.pgdirs pd).pte v) (hfree : t.freelist <:+ b.freelist)
    (hmem : pteAddr ((b.pgdirs pd).pte v) ≠ 0 → ∀ j < 4096,
      t.mem (pteAddr ((b.pgdirs pd).pte v) + BitVec.ofNat 32 j) =
        b.mem (pteAddr ((b.pgdirs pd).pte v) + BitVec.ofNat 32 j)) :
    CopiedPage b pd cd r v u := by
  obtain ⟨hkept, hloaded, hshared, habsent, hcopied⟩ := h
  rw [hpte] at hkept hloaded habsent hcopied
  refine ⟨hkept, ?_, hshared, habsent, ?_⟩
  · intro hflags hzero
    obtain ⟨frame, hissued, hentry⟩ := hloaded hflags hzero
    exact ⟨frame, hissued.since hfree, hentry⟩
  · intro hflags hpresent
    obtain ⟨frame, hissued, hentry, hbytes⟩ := hcopied hflags hpresent
    refine ⟨frame, hissued.since hfree, hentry, fun j hj ↦ ?_⟩
    rw [hbytes j hj]
    exact hmem hpresent j hj

/-- It stays as it is while another page is copied. -/
theorem CopiedPage.step (hb : CopyBase b p np) {start : Word} (h : CopiedPage b pd cd r v t)
    (hbt : b.Taking t) (hstep : PageStep p np i start t u) (hne : v ≠ vpn start) :
    CopiedPage b pd cd r v u := by
  refine h.later (fun d ↦ hstep.others d _ (.inr hne)) hstep.taking.free fun frame hissued _ ↦ ?_
  obtain ⟨haligned, hnotfree, hcache⟩ := hb.issued_apart hissued
  exact hb.mem_eq hbt hstep.taking haligned hnotfree hcache

namespace Copying

variable {i k : ℕ}

/-- The regions of the parent stay as they are when a page is loaded. -/
theorem withStored_region (t : Machine N) (p : Fin N) (i : ℕ) (n : Word) (j : ℕ) :
    (((withStored t p i n).procs p).mmaps j).region = ((t.procs p).mmaps j).region := by
  rw [withStored]
  dsimp only
  rw [update_self]
  dsimp only
  by_cases hj : j = i
  · subst hj
    rw [set_self]
    rfl
  · rw [set_of_ne _ _ (by omega)]

/-- Going on to the next region. -/
theorem next (h : Copying b p np i ((b.procs p).mmaps i).region.pageCount t)
    (hb : CopyBase b p np) : Copying b p np (i + 1) 0 t := by
  refine { h with ahead := ?ahead, load := ?load, others := ?others, done := ?done, count := ?count }
  case ahead => exact fun j hj ↦ h.ahead j (by omega)
  case load =>
    intro hshared hi
    have hsame := h.ahead (i + 1) (by omega)
    rw [hsame]
    exact hb.loads (i + 1) hi hshared
  case others =>
    exact fun d v hv ↦ h.others d v fun j l hvisited ↦ hv j l (visited_next.mpr hvisited)
  case done => exact fun j l hvisited ↦ h.done j l (visited_next.mp hvisited)
  case count =>
    have hcount := h.count
    rw [pagesBelow, range_succ, map_append, sum_append, map_singleton,
      sum_singleton, Nat.add_zero]
    exact hcount

/-- The table of the child does not matter. -/
theorem setTable (h : Copying b p np i k t) (hb : CopyBase b p np) (table : RegionTable) :
    Copying b p np i k
      { t with procs := update t.procs np { t.procs np with mmaps := table } } := by
  have hp : update t.procs np { t.procs np with mmaps := table } p = t.procs p :=
    update_of_ne hb.distinct _ _
  exact { h with
    taking := h.taking.congr rfl rfl fun _ ↦ rfl
    parent_dir := by simpa only [hp] using h.parent_dir
    child_dir := by simpa only [update_self] using h.child_dir
    regions := by simpa only [hp] using h.regions
    ahead := by simpa only [hp] using h.ahead
    load := by simpa only [hp] using h.load
    done := fun j l hvisited ↦
      (h.done j l hvisited).later (fun _ ↦ rfl) (suffix_refl _) fun _ _ _ _ ↦ rfl }

theorem start (hb : CopyBase b p np) : Copying b p np 0 0 b := by
  have hnone {j l : ℕ} (hvisited : Visited (b.procs p).mmaps 0 0 j l) : False := by
    rw [Visited] at hvisited
    omega
  constructor
  case taking => exact .refl b
  case parent_dir => rfl
  case child_dir => rfl
  case regions => exact fun _ ↦ rfl
  case ahead => exact fun _ _ ↦ rfl
  case load => exact fun hshared hi ↦ hb.loads 0 hi hshared
  case parent_tabled => exact hb.parent_tabled
  case child_tabled => exact hb.child_tabled
  case others => exact fun _ _ _ ↦ rfl
  case done => exact fun _ _ hvisited ↦ (hnone hvisited).elim
  case count => exact Nat.le_add_right _ _

section Page

variable (hb : CopyBase b p np) (hi : i < (b.procs p).mmaps.total.toNat)
  (hk : k < ((b.procs p).mmaps i).region.pageCount)
include hb hi hk

section

variable (h : Copying b p np i k t)
include h

/-- The next page is as it was when `copy_maps` started. -/
theorem page_eq (d : Word) :
    (t.pgdirs d).pte (((b.procs p).mmaps i).region.page k) =
      (b.pgdirs d).pte (((b.procs p).mmaps i).region.page k) :=
  h.others d _ fun _ _ hvisited ↦ hb.page_ne hi hk hvisited

theorem pageReady :
    PageReady p np (pageAddr ((b.procs p).mmaps i).virtAddr k) t := by
  have hplaced := hb.wellFormed.placed_at hi
  refine ⟨⟨?apart, ?parent_tabled, ?child_tabled, ?free_ok, ?free_nodup, ?cache_apart⟩, ?child_empty⟩
  case apart =>
    rw [h.parent_dir, h.child_dir]
    exact hb.apart
  case parent_tabled =>
    rw [h.parent_dir]
    exact h.parent_tabled
  case child_tabled =>
    rw [h.child_dir]
    exact h.child_tabled
  case free_ok => exact fun f hf ↦ hb.free_ok f (h.taking.free.subset hf)
  case free_nodup => exact hb.free_nodup.sublist h.taking.free.sublist
  case cache_apart =>
    intro j
    rw [h.taking.pages j]
    exact ⟨(hb.cache_apart j).1, fun hf ↦ (hb.cache_apart j).2 (h.taking.free.subset hf)⟩
  case child_empty =>
    rw [h.child_dir]
    have hpage := h.page_eq hb hi hk (b.procs np).pgdir
    rw [hb.area _ (hplaced.mmapVpn_le_page hk)] at hpage
    exact hpage

/-- What a page does to the table of the parent. -/
theorem step_table (hstep : PageStep p np i (pageAddr ((b.procs p).mmaps i).virtAddr k) t u) :
    (u.procs p).pgdir = (t.procs p).pgdir ∧ (u.procs np) = t.procs np ∧
      (∀ j : ℕ, ((u.procs p).mmaps j).region = ((t.procs p).mmaps j).region) ∧
      (∀ j : ℕ, j ≠ i → (u.procs p).mmaps j = (t.procs p).mmaps j) ∧
      (((b.procs p).mmaps i).flags.has mapShared = true →
        LoadsFit ((u.procs p).mmaps i)
          (absentFrom (b.pgdirs (b.procs p).pgdir) ((b.procs p).mmaps i).region (k + 1))) := by
  have hflags : ((t.procs p).mmaps i).flags = ((b.procs p).mmaps i).flags :=
    congrArg Region.flags (h.regions i)
  have hpage : (t.pgdirs (t.procs p).pgdir).pte (((b.procs p).mmaps i).region.page k) =
      (b.pgdirs (b.procs p).pgdir).pte (((b.procs p).mmaps i).region.page k) := by
    rw [h.parent_dir]
    exact h.page_eq hb hi hk _
  have hprocs : u.procs = if ((b.procs p).mmaps i).flags.has mapShared = true ∧
      pteAddr ((b.pgdirs (b.procs p).pgdir).pte (((b.procs p).mmaps i).region.page k)) = 0 then
      (withStored t p i (loadSize ((t.procs p).mmaps i))).procs else t.procs := by
    rw [← hflags, ← hpage]
    exact hstep.procs
  have habsent := absentFrom_succ (b.pgdirs (b.procs p).pgdir) hk
  by_cases hload : ((b.procs p).mmaps i).flags.has mapShared = true ∧
      pteAddr ((b.pgdirs (b.procs p).pgdir).pte (((b.procs p).mmaps i).region.page k)) = 0
  · rw [if_pos hload] at hprocs
    rw [if_pos hload.2] at habsent
    have hfit := h.load hload.1 hi
    rw [habsent] at hfit
    rw [hprocs]
    refine ⟨?_, ?_, fun j ↦ withStored_region t p i _ j, ?_, fun _ ↦ ?_⟩
    · simp only [withStored, update_self]
    · exact update_of_ne hb.distinct.symm _ _
    · intro j hj
      simp only [withStored, update_self]
      exact set_of_ne _ _ (by omega)
    · simp only [withStored, update_self, set_self]
      exact hfit.succ.2
  · rw [if_neg hload] at hprocs
    rw [hprocs]
    refine ⟨rfl, rfl, fun _ ↦ rfl, fun _ _ ↦ rfl, fun hshared ↦ ?_⟩
    have hpresent : ¬ pteAddr ((b.pgdirs (b.procs p).pgdir).pte
        (((b.procs p).mmaps i).region.page k)) = 0 := fun hzero ↦ hload ⟨hshared, hzero⟩
    rw [if_neg hpresent, Nat.add_zero] at habsent
    rw [← habsent]
    exact h.load hshared hi

/-- **One page of `copy_maps`.** -/
theorem step (hdone : PageDone p np i (pageAddr ((b.procs p).mmaps i).virtAddr k) t u)
    (hparent : (u.pgdirs (b.procs p).pgdir).Tabled) (hchild : (u.pgdirs (b.procs np).pgdir).Tabled) :
    Copying b p np i (k + 1) u := by
  obtain ⟨hstep, hpage⟩ := hdone
  obtain ⟨hpgdir, hnp, hregions, hahead, hload⟩ := h.step_table hb hi hk hstep
  rw [h.parent_dir, h.child_dir, h.regions i] at hpage
  constructor
  case taking => exact h.taking.trans hstep.taking
  case parent_dir => exact hpgdir.trans h.parent_dir
  case child_dir =>
    rw [hnp]
    exact h.child_dir
  case regions => exact fun j ↦ (hregions j).trans (h.regions j)
  case ahead => exact fun j hj ↦ (hahead j (by omega)).trans (h.ahead j hj)
  case load => exact fun hshared _ ↦ hload hshared
  case parent_tabled => exact hparent
  case child_tabled => exact hchild
  case others =>
    intro d v hv
    have hnext : v ≠ ((b.procs p).mmaps i).region.page k :=
      hv i k (visited_succ.mpr (.inr ⟨rfl, rfl⟩))
    rw [hstep.others d v (.inr hnext)]
    exact h.others d v fun j l hvisited ↦ hv j l (visited_succ.mpr (.inl hvisited))
  case done =>
    intro j l hvisited
    rcases visited_succ.mp hvisited with hbefore | ⟨rfl, rfl⟩
    · have hne := hb.page_ne hi hk hbefore
      exact (h.done j l hbefore).step hb h.taking hstep hne.symm
    · refine hpage.since (h.page_eq hb hi hk _) h.taking.free fun hpresent _ ↦ ?_
      obtain ⟨hfree, hcache⟩ := hb.held _ hpresent
      refine hb.mem_eq (.refl b) h.taking ?_ hfree hcache
      rw [toNat_pteAddr]
      omega
  case count =>
    have hcount := h.count
    have hcount' := hstep.count
    omega

/-- The step, for a program that keeps the page tables in order. -/
theorem of_page {c : Kernel N Bool} (hkeeps : ∀ d, Respects (tabledFrame d) c)
    (hpage : Triple (· = t) c (fun copied u ↦ copied = true →
      PageDone p np i (pageAddr ((b.procs p).mmaps i).virtAddr k) t u) fun _ _ ↦ True) :
    Triple (· = t) c (fun copied u ↦ copied = true → Copying b p np i (k + 1) u)
      fun _ _ ↦ True := by
  refine ((hpage.carry (hkeeps (b.procs p).pgdir)).carry (hkeeps (b.procs np).pgdir)).weaken
    (fun u hu ↦ ?_) (fun copied u hu hcopied ↦ ?_) fun _ _ _ ↦ trivial
  · rw [hu]
    exact ⟨⟨rfl, h.parent_tabled⟩, h.child_tabled⟩
  · exact h.step hb hi hk (hu.1.1 hcopied) hu.1.2 hu.2

end

/-- **One iteration of the inner loop of `copy_maps`.** -/
theorem page_run :
    Triple (Copying b p np i k)
      (if ((b.procs p).mmaps i).flags.has mapShared then
        sharePage p np i (pageAddr ((b.procs p).mmaps i).virtAddr k)
        else copyPrivatePage p np i (pageAddr ((b.procs p).mmaps i).virtAddr k))
      (fun copied t ↦ copied = true → Copying b p np i (k + 1) t) fun _ _ ↦ True := by
  have hplaced := hb.wellFormed.placed_at hi
  have haligned := hplaced.pageAddr_mod hk
  have hlow : 4096 ≤ (pageAddr ((b.procs p).mmaps i).virtAddr k).toNat := by
    have hbase : 0x60000000 ≤ ((b.procs p).mmaps i).region.virtAddr.toNat := hplaced.base_le
    have haddr := hplaced.toNat_pageAddr hk
    change (pageAddr ((b.procs p).mmaps i).virtAddr k).toNat = _ at haddr
    omega
  have htabled (d : Word) := systemFrame_tabled (N := N) d
  refine .of_forall fun t ht ↦ ?_
  have hready := ht.pageReady hb hi hk
  have hflags : ((t.procs p).mmaps i).flags = ((b.procs p).mmaps i).flags :=
    congrArg Region.flags (ht.regions i)
  by_cases hshared : ((b.procs p).mmaps i).flags.has mapShared = true
  · rw [if_pos hshared]
    have hload : pteAddr ((t.pgdirs (t.procs p).pgdir).pte
        (vpn (pageAddr ((b.procs p).mmaps i).virtAddr k))) = 0 →
        0 < (((t.procs p).mmaps i).size - ((t.procs p).mmaps i).storedSize).toInt := by
      intro habsent
      have hfit := ht.load hshared hi
      rw [ht.parent_dir] at habsent
      have hzero := (congrArg pteAddr (ht.page_eq hb hi hk (b.procs p).pgdir)).symm.trans habsent
      rw [absentFrom_succ _ hk, if_pos hzero] at hfit
      exact hfit.succ.1
    rw [← hflags] at hshared
    exact ht.of_page hb hi hk (fun d ↦ respects_sharePage ((htabled d).paging p) np i _)
      (sharePage_entries hready haligned hlow hshared hload)
  · rw [if_neg hshared]
    rw [← hflags, Bool.not_eq_true] at hshared
    exact ht.of_page hb hi hk (fun d ↦ respects_copyPrivatePage ((htabled d).paging p) np i _)
      (copyPrivatePage_entries hready haligned hshared)

end Page

/-- **`copy_maps` copies every page of every live region.** -/
theorem copyMaps_run (hb : CopyBase b p np) :
    Triple (· = b) (copyMaps p np)
      (fun copied t ↦ copied = true → Copying b p np (b.procs p).mmaps.total.toNat 0 t)
      fun _ _ ↦ True := by
  refine .get_at ?_
  have hloop : Triple (Copying b p np 0 0) (copyRegions p np 0 (b.procs p).mmaps.total.toNat)
      (fun copied t ↦ bif copied then Copying b p np (b.procs p).mmaps.total.toNat 0 t else True)
      fun _ _ ↦ True := by
    refine copyRegions_pages hb.wellFormed (fun _ _ _ ht ↦ ht.regions) (fun i k hi hk ↦ ?_)
      (fun i t _ ht ↦ ht.next hb) fun i t table ht ↦ ht.setTable hb table
    refine (page_run hb hi hk).post (fun copied t ht ↦ ?_) fun _ _ ↦ id
    cases copied with
    | true => exact ht rfl
    | false => trivial
  refine .bind (hloop.at_state (start hb)) fun copied ↦ ?_
  cases copied with
  | false => exact .pure nofun
  | true =>
    refine .modify_bind fun t ht ↦ .pure fun u hu _ ↦ ?_
    subst hu
    exact .setTable ht hb _

end Copying

end Loops

/-! ## `fork` -/

/-- For every shared region of `p`, what `stored_size` leaves to load suffices for its absent
pages. -/
def ForkLoads (s : Machine N) (p : Fin N) : Prop :=
  ∀ i : ℕ, i < (s.procs p).mmaps.total.toNat → ((s.procs p).mmaps i).flags.has mapShared = true →
    LoadsFit ((s.procs p).mmaps i)
      (absentFrom (s.pgdirs (s.procs p).pgdir) ((s.procs p).mmaps i).region 0)

/-- What a successful `fork` by `p` has done to the mapping areas of `p` and its child `np`. -/
structure ForkCopied (s : Machine N) (p np : Fin N) (t : Machine N) : Prop where
  distinct : p ≠ np
  taking : s.Taking t
  parent_dir : (t.procs p).pgdir = (s.procs p).pgdir
  apart : (t.procs np).pgdir ≠ (s.procs p).pgdir
  pages : ∀ i k : ℕ, i < (s.procs p).mmaps.total.toNat → k < ((s.procs p).mmaps i).region.pageCount →
    CopiedPage s (s.procs p).pgdir (t.procs np).pgdir ((s.procs p).mmaps i).region
      (((s.procs p).mmaps i).region.page k) t
  others : ∀ v, mmapVpn ≤ v → (∀ i k : ℕ, i < (s.procs p).mmaps.total.toNat →
      k < ((s.procs p).mmaps i).region.pageCount → v ≠ ((s.procs p).mmaps i).region.page k) →
    (t.pgdirs (s.procs p).pgdir).pte v = (s.pgdirs (s.procs p).pgdir).pte v ∧
      (t.pgdirs (t.procs np).pgdir).pte v = 0
  count : s.freelist.length ≤ t.freelist.length + (66 +
    2 * (((s.procs p).sz.toNat + 4095) / 4096) +
    3 * pagesBelow (s.procs p).mmaps (s.procs p).mmaps.total.toNat)

section Fork

variable {p np : Fin N} {u : Machine N}

/-- The frame of an entry in use is neither free nor in the page cache. -/
theorem held_of_frameSafe (hsafe : FrameSafe s) (hp : (s.procs p).state = .runnable) {v : Vpn}
    (hv : pteAddr ((s.pgdirs (s.procs p).pgdir).pte v) ≠ 0) :
    pteAddr ((s.pgdirs (s.procs p).pgdir).pte v) ∉ s.freelist ∧
      ∀ i, (s.pagecache.pages i).page ≠ pteAddr ((s.pgdirs (s.procs p).pgdir).pte v) := by
  have hdir := mem_liveDirs (live_of_runnable hp)
  have hne : (s.pgdirs (s.procs p).pgdir).pte v ≠ 0 := by
    intro hzero
    rw [hzero] at hv
    exact hv rfl
  have howns : s.Owns s.liveDirs ∅ (.page (s.procs p).pgdir v)
      (pteAddr ((s.pgdirs (s.procs p).pgdir).pte v)) :=
    ⟨hdir, hsafe.sound.entries _ hdir v hne, rfl, hv⟩
  refine ⟨hsafe.sound.not_free howns, fun i hi ↦ ?_⟩
  have hcache : s.Owns s.liveDirs ∅ (.cache i)
      (pteAddr ((s.pgdirs (s.procs p).pgdir).pte v)) := hi
  rcases hsafe.sound.owners.exclusive _ _ _ howns hcache with hsame | hsharing
  · cases hsame
  · exact hsharing

/-- The bytes of a frame in use outlast work that only takes free frames. -/
theorem mem_held (hsafe : FrameSafe s) (hp : (s.procs p).state = .runnable) (htaking : s.Taking t)
    {v : Vpn} (hv : pteAddr ((s.pgdirs (s.procs p).pgdir).pte v) ≠ 0) (hj : j < 4096) :
    t.mem (pteAddr ((s.pgdirs (s.procs p).pgdir).pte v) + BitVec.ofNat 32 j) =
      s.mem (pteAddr ((s.pgdirs (s.procs p).pgdir).pte v) + BitVec.ofNat 32 j) := by
  obtain ⟨hnotfree, hcache⟩ := held_of_frameSafe hsafe hp hv
  apply Taking.mem_frame htaking hj
  · intro f hf
    refine ⟨(hsafe.sound.free_ok f hf).2, ?_⟩
    rintro rfl
    exact hnotfree hf
  · intro l
    have howns : s.Owns s.liveDirs ∅ (.cache l) (s.pagecache.pages l).page := rfl
    exact ⟨(hsafe.sound.held_ok _ _ howns).2, hcache l⟩
  · rw [toNat_pteAddr]
    omega

theorem ForkReady.apart (hready : ForkReady s np u) (hsafe : FrameSafe s)
    (hp : (s.procs p).state = .runnable) : (u.procs np).pgdir ≠ (s.procs p).pgdir := by
  intro hequal
  have hdir : s.Owns s.liveDirs ∅ (.dir (s.procs p).pgdir) (s.procs p).pgdir :=
    ⟨mem_liveDirs (live_of_runnable hp), rfl⟩
  apply hsafe.sound.not_free hdir
  rw [← hequal]
  exact hready.fresh

theorem ForkReady.copyBase (hready : ForkReady s np u) (hne : p ≠ np) (hsafe : FrameSafe s)
    (htabled : ∀ d, (s.pgdirs d).Tabled) (hp : (s.procs p).state = .runnable)
    (hloads : ForkLoads s p) : CopyBase u p np := by
  have hparent : u.procs p = s.procs p := hready.others p hne
  have happart := hready.apart hsafe hp
  have hdir : u.pgdirs (s.procs p).pgdir = s.pgdirs (s.procs p).pgdir :=
    hready.dirs _ happart.symm
  have hcache : u.pagecache = s.pagecache := by rw [hready.rest]
  have hfree := hready.taking.free
  refine ⟨⟨?apart, ?parent_tabled, ?child_tabled, ?free_ok, ?free_nodup, ?cache_apart⟩, hne,
    hready.area, ?held, ?wellFormed, ?loads⟩
  case apart =>
    rw [hparent]
    exact happart.symm
  case parent_tabled =>
    rw [hparent, hdir]
    exact htabled _
  case child_tabled => exact hready.tabled
  case free_ok => exact fun f hf ↦ hsafe.sound.free_ok f (hfree.subset hf)
  case free_nodup => exact hsafe.sound.owners.nodup.sublist hfree.sublist
  case cache_apart =>
    intro i
    have howns : s.Owns s.liveDirs ∅ (.cache i) (s.pagecache.pages i).page := rfl
    rw [hcache]
    refine ⟨(hsafe.sound.held_ok _ _ howns).2, fun hf ↦ ?_⟩
    exact hsafe.sound.not_free howns (hfree.subset hf)
  case held =>
    intro v hv
    rw [hparent, hdir] at hv ⊢
    obtain ⟨hnotfree, hapart⟩ := held_of_frameSafe hsafe hp hv
    rw [hcache]
    exact ⟨fun hf ↦ hnotfree (hfree.subset hf), hapart⟩
  case wellFormed =>
    rw [hparent]
    exact (hsafe.fit p hp).1.1
  case loads =>
    rw [hparent, hdir]
    exact hloads

/-- **A successful `fork` shares or copies every page of every live region.** -/
theorem fork_copied (hsafe : FrameSafe s) (htabled : ∀ d, (s.pgdirs d).Tabled)
    (hp : (s.procs p).state = .runnable) (hloads : ForkLoads s p)
    (hrun : fork p s = (.ok (some np), t)) : ForkCopied s p np t := by
  obtain ⟨u, v, hne, hready, hspent, hmaps, hdone⟩ := fork_run (hsafe.fit p hp).2 hp hrun
  have hbase := hready.copyBase hne hsafe htabled hp hloads
  have hcopying := Copying.copyMaps_run hbase u rfl
  rw [hmaps] at hcopying
  have hcopied := hcopying rfl
  have hparent : u.procs p = s.procs p := hready.others p hne
  have happart := hready.apart hsafe hp
  have hdir : u.pgdirs (s.procs p).pgdir = s.pgdirs (s.procs p).pgdir :=
    hready.dirs _ happart.symm
  have hdirs : t.pgdirs = v.pgdirs := by rw [hdone.rest]
  have hchild : (t.procs np).pgdir = (u.procs np).pgdir :=
    hdone.pgdir.trans hcopied.child_dir
  have hlist : t.freelist = v.freelist := by rw [hdone.rest]
  have hvmem : t.mem = v.mem := by rw [hdone.rest]
  have hvisited {i k : ℕ} (hi : i < (s.procs p).mmaps.total.toNat)
      (hk : k < ((s.procs p).mmaps i).region.pageCount) :
      Visited (s.procs p).mmaps (s.procs p).mmaps.total.toNat 0 i k := .inl ⟨hi, hk⟩
  have hregion := hcopied.done
  have hother := hcopied.others
  have hcount := hcopied.count
  rw [hparent] at hregion hother hcount
  constructor
  case distinct => exact hne
  case taking =>
    apply (hready.taking.trans hcopied.taking).congr hlist hvmem
    intro i
    rw [hdone.rest]
  case parent_dir =>
    have hpgdir := congrArg Proc.pgdir (hdone.others p hne)
    change (t.procs p).pgdir = (v.procs p).pgdir at hpgdir
    rw [hpgdir, hcopied.parent_dir, hparent]
  case apart =>
    rw [hchild]
    exact happart
  case pages =>
    intro i k hi hk
    have hpage := hregion i k (hvisited hi hk)
    rw [hchild]
    have hpageT := hpage.later (u := t) (fun d ↦ by rw [hdirs]) (hlist ▸ suffix_refl _)
      fun _ _ _ _ ↦ by rw [hvmem]
    refine hpageT.since (by rw [hdir]) hready.taking.free fun hpresent j hj ↦ ?_
    exact mem_held hsafe hp hready.taking hpresent hj
  case others =>
    intro w hw hfar
    have hsame (d : Word) : (t.pgdirs d).pte w = (u.pgdirs d).pte w := by
      rw [hdirs]
      apply hother
      intro j l hvisited
      rcases hvisited with ⟨hj, hl⟩ | ⟨_, hl⟩
      · exact hfar j l hj hl
      · exact absurd hl (Nat.not_lt_zero l)
    constructor
    · rw [hsame, hdir]
    · rw [hsame, hchild]
      exact hready.area w hw
  case count =>
    rw [Spent] at hspent
    rw [hlist]
    omega

end Fork

end Kernel

end Xv6Mmap
