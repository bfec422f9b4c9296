import Xv6Mmap.Library.Requests
import Xv6Mmap.Machine.Entries
import Xv6Mmap.Machine.FrameSpaces
import Xv6Mmap.Machine.PageUpdates

/-!
# When a write-back deadlocks

`writei` holds the buffer of the block that it fills while it copies the bytes from user memory.  A
page fault on the way may read a page of a file, block by block, and the process then waits for
itself if one of the blocks is the one that it holds.  So `my_munmap` deadlocks if and only if there
is a byte of the region whose page is absent when the byte is copied, and the fault on it comes to
read the block that is being written.  `ReadsHeld` says of a state when the read of a page asks for
the buffer that is held, and `Clashes` when the fault on an address comes to such a read.
-/

namespace Xv6Mmap.Kernel

open Library Prog Machine Function
open BitVec (eq_of_toNat_eq lt_def le_def toNat_add toNat_ofNat)

variable {N : ℕ} {α β : Type} {p : Fin N} {s t u : Machine N} {ip : InodeRef}

/-! ## Programs that deadlock -/

def Deadlocks (c : Kernel N α) (s : Machine N) : Prop := (c s).1 = .error .deadlock

section Deadlocks

variable {c : Kernel N α} {f : α → Kernel N β} {C : Prop}

theorem not_deadlocks_pure (a : α) : ¬ Deadlocks (pure a : Kernel N α) s := nofun

theorem not_deadlocks_modify (g : Machine N → Machine N) :
    ¬ Deadlocks (modify g : Kernel N Unit) s := nofun

theorem not_deadlocks_halt {e : Halt} (h : e ≠ .deadlock) : ¬ Deadlocks (halt e : Kernel N α) s :=
  fun hhalts ↦ h (Except.error.inj hhalts)

theorem NeverStuck.not_deadlocks (h : NeverStuck c) : ¬ Deadlocks c s :=
  fun hhalts ↦ by cases h s .deadlock hhalts

theorem deadlocks_bind_of_ok {a : α} (h : c s = (.ok a, t)) :
    Deadlocks (c >>= f) s ↔ Deadlocks (f a) t := by
  rw [Deadlocks, bind_of_ok h, Deadlocks]

theorem deadlocks_bind_iff : Deadlocks (c >>= f) s ↔
    Deadlocks c s ∨ ∃ a t, c s = (.ok a, t) ∧ Deadlocks (f a) t := by
  unfold Deadlocks
  rw [bind_apply]
  rcases c s with ⟨outcome, t⟩
  cases outcome with
  | ok a => simp
  | error e => simp

/-- If the rest never deadlocks, the first part decides. -/
theorem deadlocks_bind (hf : ∀ a t, ¬ Deadlocks (f a) t) : Deadlocks (c >>= f) s ↔ Deadlocks c s := by
  rw [deadlocks_bind_iff]
  exact or_iff_left fun ⟨a, t, _, hrest⟩ ↦ hf a t hrest

/-- The condition as a pair of postconditions. -/
theorem deadlocks_iff : (Deadlocks c s ↔ C) ↔
    Triple (· = s) c (fun _ _ ↦ ¬ C) fun e _ ↦ e = .deadlock ↔ C := by
  unfold Deadlocks Triple
  rw [forall_eq]
  rcases c s with ⟨outcome, t⟩
  cases outcome with
  | ok a => simp
  | error e => simp

end Deadlocks

/-! ## Reading a page -/

/-- The loop of `readi` asks for the blocks from `off` on, which starts a block. -/
theorem deadlocks_readBlocks {n : ℕ} (dst : Word) {off left : ℕ} (hn : left ≤ n)
    (hoff : left ≠ 0 → off % bSize = 0) : Deadlocks (readBlocks ip n dst off left) s ↔
      ∃ b, s.held = some (ip, b) ∧ off ≤ b * bSize ∧ b * bSize < off + left := by
  have hblock : bSize = 512 := rfl
  induction n generalizing s dst off left with
  | zero =>
    refine iff_of_false (not_deadlocks_pure ()) ?_
    rintro ⟨b, -, hfrom, hbelow⟩
    omega
  | succ n ih =>
    rw [readBlocks]
    split
    · refine iff_of_false (not_deadlocks_pure ()) ?_
      rintro ⟨b, -, hfrom, hbelow⟩
      omega
    rename_i hleft
    have haligned := hoff hleft
    have hstart : off / bSize * bSize = off := Nat.div_mul_cancel (Nat.dvd_of_mod_eq_zero haligned)
    have hnext : left - min left (bSize - off % bSize) ≠ 0 →
        (off + min left (bSize - off % bSize)) % bSize = 0 := by
      rw [hblock] at *
      omega
    by_cases hheld : s.held = some (ip, off / bSize)
    · refine iff_of_true (bind_error ?_) ⟨_, hheld, by omega, by omega⟩
      rw [bread, bind_of_ok (get_apply s), if_pos hheld]
      rfl
    · have hbread : bread ip (off / bSize) s = (.ok (), s) := by
        rw [bread, bind_of_ok (get_apply s), if_neg hheld]
        rfl
      rw [deadlocks_bind_of_ok hbread]
      dsimp only
      rw [deadlocks_bind_of_ok (get_apply s), deadlocks_bind_of_ok (copyIn_apply _ _ _ _)]
      refine (ih _ (by omega) hnext).trans (exists_congr fun b ↦ and_congr_right fun hb ↦ ?_)
      have hother : b ≠ off / bSize := by
        rintro rfl
        exact hheld hb
      rw [hblock] at *
      omega

/-- `readi` of a file asks for the blocks up to the end of the file. -/
theorem deadlocks_readi (dst : Word) {off n : Word} (haligned : off.toNat % bSize = 0) (hn : n ≠ 0) :
    Deadlocks (readi ip dst off n) s ↔ (s.inodes ip).major = none ∧ off.toNat + n.toNat < 2 ^ 32 ∧
      ∃ b, s.held = some (ip, b) ∧ off.toNat ≤ b * bSize ∧
        b * bSize < min (off.toNat + n.toNat) (s.inodes ip).size.toNat := by
  rw [readi, deadlocks_bind_of_ok (get_apply s)]
  cases hmajor : (s.inodes ip).major with
  | some major =>
    dsimp only
    refine iff_of_false ?_ fun h ↦ by cases h.1
    split
    · exact not_deadlocks_halt (by decide)
    · exact not_deadlocks_pure _
  | none =>
    dsimp only
    have hpos : 0 < n.toNat := Nat.pos_of_ne_zero fun hzero ↦ hn (eq_of_toNat_eq hzero)
    have hsum := toNat_add off n
    have hsize := (s.inodes ip).size.isLt
    split
    · rename_i hrefused
      rw [Bool.or_eq_true, decide_eq_true_eq, decide_eq_true_eq, lt_def, lt_def, hsum] at hrefused
      refine iff_of_false (not_deadlocks_pure _) ?_
      rintro ⟨-, hwraps, b, -, hfrom, hbelow⟩
      omega
    · rename_i hread
      rw [Bool.or_eq_true, decide_eq_true_eq, decide_eq_true_eq, lt_def, lt_def, hsum] at hread
      have hwraps : off.toNat + n.toNat < 2 ^ 32 := by omega
      have hend : off.toNat + (if (s.inodes ip).size < off + n then (s.inodes ip).size - off
          else n).toNat = min (off.toNat + n.toNat) (s.inodes ip).size.toNat := by
        rw [Nat.mod_eq_of_lt hwraps] at hsum
        split
        · rename_i hshort
          rw [lt_def, hsum] at hshort
          rw [BitVec.toNat_sub_of_le (by rw [le_def]; omega)]
          omega
        · rename_i hlong
          rw [lt_def, hsum] at hlong
          omega
      rw [deadlocks_bind fun _ _ ↦ not_deadlocks_pure _,
        deadlocks_readBlocks _ le_rfl fun _ ↦ haligned, hend]
      exact ⟨fun h ↦ ⟨rfl, hwraps, h⟩, fun h ↦ h.2.2⟩

/-- The read of the page around `offset` asks for the buffer that is held: the page is not cached,
there is a page to replace, the file is no device, and the block that is held is one of the page's
and of the file's. -/
def ReadsHeld (s : Machine N) (ip : InodeRef) (offset : Word) : Prop :=
  s.pagecache.findPage ip.inum (pageStart offset) ip.dev = none ∧
  (∃ h : s.pagecache.totalCount < nPageCache,
    (s.pagecache.pages ⟨s.pagecache.totalCount, h⟩).locked = false) ∧
  (s.inodes ip).major = none ∧ (pageStart offset).toNat + 4096 < 2 ^ 32 ∧
  ∃ b, s.held = some (ip, b) ∧ (pageStart offset).toNat ≤ b * bSize ∧
    b * bSize < min ((pageStart offset).toNat + 4096) (s.inodes ip).size.toNat

/-- A page that is locked stops the call for another reason. -/
theorem not_deadlocks_locked {i : Fin nPageCache} {spinning : Bool} {f : Unit → Kernel N α}
    (h : (s.pagecache.pages i).locked = true) : ¬ Deadlocks (acquirePage i spinning >>= f) s := by
  have hhalts : (acquirePage i spinning s).1 = .error (if spinning then .panic else .stuck) := by
    rw [acquirePage, bind_of_ok (get_apply s), if_pos h]
    rfl
  intro hdeadlock
  have hequal := (bind_error hhalts).symm.trans hdeadlock
  cases spinning with
  | true | false => cases hequal

theorem deadlocks_getPage (offset : Word) :
    Deadlocks (getPage ip offset) s ↔ ReadsHeld s ip offset := by
  cases hfound : s.pagecache.findPage ip.inum (pageStart offset) ip.dev with
  | some page =>
    refine iff_of_false ?_ fun h ↦ by rw [h.1] at hfound; cases hfound
    rw [getPage, deadlocks_bind_of_ok (get_apply s)]
    dsimp only
    rw [← pageStart, hfound]
    dsimp only
    cases hlocked : (s.pagecache.pages page).locked with
    | true => exact not_deadlocks_locked hlocked
    | false =>
      rw [deadlocks_bind_of_ok (acquirePage_apply hlocked true)]
      exact not_deadlocks_pure _
  | none =>
    by_cases hroom : s.pagecache.totalCount < nPageCache
    · cases hlocked : (s.pagecache.pages ⟨s.pagecache.totalCount, hroom⟩).locked with
      | true =>
        refine iff_of_false ?_ fun h ↦ ?_
        · rw [getPage, deadlocks_bind_of_ok (get_apply s)]
          dsimp only
          rw [← pageStart, hfound]
          dsimp only
          rw [dif_pos hroom, setTotalCount, deadlocks_bind_of_ok (modify_apply _ s)]
          exact not_deadlocks_locked hlocked
        · obtain ⟨_, hfree⟩ := h.2.1
          rw [hlocked] at hfree
          cases hfree
      | false =>
        have hgo : Deadlocks (getPage ip offset) s ↔
            Deadlocks (readi ip (s.pagecache.pages ⟨s.pagecache.totalCount, hroom⟩).page
              (pageStart offset) pgSize) (wiped s ⟨s.pagecache.totalCount, hroom⟩) := by
          rw [Deadlocks, getPage_victim hroom hlocked hfound]
          refine deadlocks_bind fun n t ↦ ?_
          split
          · exact not_deadlocks_pure _
          · rw [deadlocks_bind fun _ _ ↦ not_deadlocks_pure _]
            exact not_deadlocks_modify _
        have haligned : (pageStart offset).toNat % bSize = 0 := by
          have hpage := pageStart_mod offset
          rw [show bSize = 512 from rfl]
          omega
        rw [hgo, deadlocks_readi _ haligned (by decide)]
        exact ⟨fun h ↦ ⟨hfound, ⟨hroom, hlocked⟩, h⟩, fun h ↦ h.2.2⟩
    · refine iff_of_false ?_ fun h ↦ hroom h.2.1.1
      rw [getPage, deadlocks_bind_of_ok (get_apply s)]
      dsimp only
      rw [← pageStart, hfound]
      dsimp only
      rw [dif_neg hroom]
      exact not_deadlocks_halt (by decide)

theorem deadlocks_copyPage (offset dest size destOffset : Word) :
    Deadlocks (copyPage ip offset dest size destOffset) s ↔ ReadsHeld s ip offset := by
  rw [← deadlocks_getPage]
  refine deadlocks_bind fun page t ↦ ?_
  cases page with
  | none => exact not_deadlocks_pure _
  | some page => exact nofun

/-! ## A page fault -/

/-- Filling a page asks for the buffer that is held: with the first copy, or, if that leaves bytes
over, with the second one, which is from offset `PGSIZE` of the file. -/
def FillReadsHeld (s : Machine N) (ip : InodeRef) (dest offset size : Word) : Prop :=
  size ≠ 0 ∧ offset.srem pgSize ≤ (s.inodes ip).size ∧
    (ReadsHeld s ip offset ∨ fillChunk offset size ≠ size ∧ ∃ u,
      copyPage ip offset dest (fillChunk offset size) (offset.srem pgSize) s = (.ok (), u) ∧
        ReadsHeld u ip pgSize)

theorem deadlocks_fillPage (dest : Word) {offset size : Word} (hsize : size.toNat ≤ 4096) :
    Deadlocks (fillPage ip (size.toNat + 1) dest offset 0 size) s ↔
      FillReadsHeld s ip dest offset size := by
  by_cases hnone : size = 0 ∨ (s.inodes ip).size < offset.srem pgSize
  · refine iff_of_false ?_ fun h ↦ hnone.elim h.1 (BitVec.not_lt.mpr h.2.1)
    rw [fillPage]
    split
    · exact not_deadlocks_pure _
    · rename_i hpos
      rw [deadlocks_bind_of_ok (get_apply s), if_pos (hnone.resolve_left hpos)]
      exact not_deadlocks_pure _
  · obtain ⟨hpos, hinside⟩ := not_or.mp hnone
    have hinside := BitVec.not_lt.mp hinside
    rw [deadlocks_iff]
    refine fillPage_cases (M := fun u ↦ ¬ ReadsHeld s ip offset ∧
        copyPage ip offset dest (fillChunk offset size) (offset.srem pgSize) s = (.ok (), u))
      hsize ?_ ?_ ?_ ?_
    · rintro _ rfl habsent
      exact absurd habsent hnone
    · have hfirst := (deadlocks_copyPage offset dest (fillChunk offset size) (offset.srem pgSize) :
        _ ↔ ReadsHeld s ip offset)
      refine ((deadlocks_iff.mp hfirst).both (.ran s)).post (fun _ _ h ↦ h) fun e u hu ↦ ?_
      obtain ⟨hiff, hrun⟩ := hu
      rw [hiff]
      refine ⟨fun h ↦ ⟨hpos, hinside, .inl h⟩, fun h ↦ h.2.2.resolve_right ?_⟩
      rintro ⟨-, v, hok, -⟩
      rw [hok] at hrun
      cases hrun
    · rintro hall u ⟨hno, -⟩ ⟨-, -, hreads | ⟨hpart, -⟩⟩
      · exact hno hreads
      · exact hpart hall
    · refine fun hpart ↦ .of_forall fun u hu ↦ ?_
      obtain ⟨hno, hrun⟩ := hu
      have hsecond := (deadlocks_copyPage pgSize (dest + fillChunk offset size)
        (size - fillChunk offset size) 0 : _ ↔ ReadsHeld u ip pgSize)
      have hiff : ReadsHeld u ip pgSize ↔ FillReadsHeld s ip dest offset size := by
        refine ⟨fun h ↦ ⟨hpos, hinside, .inr ⟨hpart, u, hrun, h⟩⟩, fun h ↦ ?_⟩
        obtain ⟨-, v, hv, hreads⟩ := h.2.2.resolve_left hno
        obtain rfl : u = v := congrArg Prod.snd (hrun.symm.trans hv)
        exact hreads
      exact deadlocks_iff.mp (hsecond.trans hiff)

/-- Mapping a page of a file asks for the buffer that is held: there is a frame for the page, and
filling it asks for the buffer. -/
def MapReadsHeld (s : Machine N) (f offset size : Word) : Prop :=
  ∃ frame rest, s.freelist = frame :: rest ∧
    FillReadsHeld (memset frame 0 4096 { s with freelist := rest }).2 (s.files f).ip frame offset size

theorem deadlocks_mapPagecachePageUtil (f va protection : Word) {offset size : Word}
    (hsize : size.toNat ≤ 4096) :
    Deadlocks (mapPagecachePageUtil p f va protection offset size) s ↔
      MapReadsHeld s f offset size := by
  rw [mapPagecachePageUtil]
  cases hfree : s.freelist with
  | nil =>
    rw [deadlocks_bind_of_ok (kalloc_nil hfree)]
    refine iff_of_false (not_deadlocks_pure _) ?_
    rintro ⟨frame, rest, hcons, -⟩
    rw [hfree] at hcons
    cases hcons
  | cons frame rest =>
    rw [deadlocks_bind_of_ok (kalloc_cons hfree)]
    dsimp only
    rw [memset, deadlocks_bind_of_ok (modify_apply _ _), deadlocks_bind_of_ok (get_apply _)]
    have hmap (b : Bool) (t : Machine N) :
        ¬ Deadlocks (if b = true then return size else return -1 : Kernel N Word) t := by
      split
      · exact not_deadlocks_pure _
      · exact not_deadlocks_pure _
    rw [deadlocks_bind fun _ _ ↦ ?_, deadlocks_fillPage _ hsize]
    · constructor
      · exact fun h ↦ ⟨frame, rest, hfree, h⟩
      · rintro ⟨frame', rest', hcons, h⟩
        rw [hfree] at hcons
        cases hcons
        exact h
    · rw [deadlocks_bind hmap]
      exact (neverStuck_mappages _ _ _ _).not_deadlocks

theorem not_deadlocks_mapAnonPage {va : Word} (hlow : 4096 ≤ va.toNat) (protection : Word) :
    ¬ Deadlocks (mapAnonPage p va protection) s := by
  refine NeverStuck.not_deadlocks (neverStuck_kalloc.bind fun page ↦ ?_)
  cases page with
  | none => exact .pure _
  | some page =>
    refine .bind (.modify _) fun _ ↦ .get_bind fun s ↦ ?_
    refine (neverStuck_mappages _ _ _ _).bind fun mapped ↦ ?_
    rw [deallocuvm_swapped hlow]
    split
    · exact .pure _
    · exact .bind (.pure _) fun _ ↦ (neverStuck_kfree _).bind_pure _

theorem deadlocks_mmapStoreData {va : Word} (hlow : 4096 ≤ va.toNat) (flags protection f : Word)
    {offset size : Word} (hsize : size.toNat ≤ 4096) :
    Deadlocks (mmapStoreData p va size flags protection f offset) s ↔
      flags.has mapAnonymous = false ∧ MapReadsHeld s f offset size := by
  rw [deadlocks_iff]
  refine mmapStoreData_cases (M := fun _ _ ↦ ¬ (flags.has mapAnonymous = false ∧
    MapReadsHeld s f offset size)) (count_le_of_toNat_le hsize) ?_ ?_ ?_ (fun _ _ h _ ↦ h)
    fun _ _ _ h _ ↦ h
  · rintro hzero _ t rfl ⟨-, _, _, -, hpos, -⟩
    rw [count_eq_toNat (by omega)] at hzero
    exact hpos (eq_of_toNat_eq hzero)
  · intro hanon
    rw [← deadlocks_iff]
    exact iff_of_false (not_deadlocks_mapAnonPage hlow protection)
      fun h ↦ by rw [hanon] at h; cases h.1
  · intro hfile _
    rw [← deadlocks_iff, deadlocks_mapPagecachePageUtil f va protection hsize]
    exact ⟨fun h ↦ ⟨hfile, h⟩, And.right⟩

/-- The fault on `addr` comes to a read that asks for the buffer that is held: the handler picks an
entry for the address, the page has no frame, and the entry maps a file. -/
def FaultReadsHeld (t : Machine N) (p : Fin N) (addr : Word) : Prop :=
  ∃ i, faultEntry (t.procs p).mmaps addr = some i ∧
    Frameless t p addr ∧ ((t.procs p).mmaps i).flags.has mapAnonymous = false ∧
    MapReadsHeld t ((t.procs p).mmaps i).f (MmapRegion.faultOffset ((t.procs p).mmaps i) addr)
      (MmapRegion.faultSize ((t.procs p).mmaps i))

theorem deadlocks_handlePageFault {addr : Word} (hbase : mmapBase ≤ addr) :
    Deadlocks (handlePageFault p addr) t ↔ FaultReadsHeld t p addr := by
  cases hentry : faultEntry (t.procs p).mmaps addr with
  | none =>
    refine iff_of_false ?_ fun ⟨i, hi, _⟩ ↦ by rw [hentry] at hi; cases hi
    rw [Deadlocks, handlePageFault_unserved hentry]
    exact not_deadlocks_modify _
  | some i =>
    by_cases hclear : Frameless t p addr
    · have hlow : 4096 ≤ (pgRoundDown addr).toNat := by
        have hnat : (0x60000000 : ℕ) ≤ addr.toNat := hbase
        rw [toNat_pgRoundDown]
        omega
      rw [Deadlocks, handlePageFault_stores hentry hclear]
      refine (deadlocks_bind fun r u ↦ ?_).trans
        ((deadlocks_mmapStoreData hlow _ _ _ (MmapRegion.faultSize_le _)).trans ?_)
      · split
        · exact nofun
        · exact not_deadlocks_modify _
      · constructor
        · exact fun h ↦ ⟨i, hentry, hclear, h⟩
        · rintro ⟨j, hj, -, h⟩
          obtain rfl : i = j := Option.mem_unique hentry hj
          exact h
    · refine iff_of_false ?_ fun ⟨_, _, h, _⟩ ↦ hclear h
      rw [Deadlocks, handlePageFault_stale hentry hclear]
      exact not_deadlocks_modify _

/-- **Reading a byte at `addr` asks for the buffer that is held**: its page is absent, and the fault
comes to such a read, or it maps nothing and the one that follows does. -/
def Clashes (t : Machine N) (p : Fin N) (addr : Word) : Prop :=
  present t p addr = false ∧ isMmapAddr addr = true ∧ (FaultReadsHeld t p addr ∨
    ∃ u, handlePageFault p addr t = (.ok (), u) ∧ present u p addr = false ∧
      FaultReadsHeld u p addr)

theorem deadlocks_loadFaulting_succ (addr : Word) (n : ℕ) :
    Deadlocks (loadFaulting p addr (n + 1)) t ↔ present t p addr = false ∧ isMmapAddr addr = true ∧
      (FaultReadsHeld t p addr ∨
        ∃ u, handlePageFault p addr t = (.ok (), u) ∧ Deadlocks (loadFaulting p addr n) u) := by
  rw [loadFaulting, deadlocks_bind_of_ok (get_apply t)]
  split
  · rename_i hpresent
    exact iff_of_false (not_deadlocks_pure _) fun h ↦ by rw [hpresent] at h; cases h.1
  rename_i habsent
  rw [Bool.not_eq_true] at habsent
  split
  · rename_i harea
    have hbase : mmapBase ≤ addr := by
      rw [isMmapAddr, Bool.and_eq_true, decide_eq_true_eq] at harea
      exact harea.1
    rw [deadlocks_bind_iff, deadlocks_handlePageFault hbase]
    constructor
    · rintro (h | ⟨_, u, hu⟩)
      · exact ⟨habsent, harea, .inl h⟩
      · exact ⟨habsent, harea, .inr ⟨u, hu⟩⟩
    · rintro ⟨_, _, h | ⟨u, hu⟩⟩
      · exact .inl h
      · exact .inr ⟨(), u, hu⟩
  · rename_i harea
    exact iff_of_false (not_deadlocks_halt (by decide)) fun h ↦ harea h.2.1

theorem deadlocks_loadKernel (addr : Word) : Deadlocks (loadKernel p addr) t ↔ Clashes t p addr := by
  have hlast (u : Machine N) : ¬ Deadlocks (loadFaulting p addr 0) u := by
    rw [loadFaulting, deadlocks_bind_of_ok (get_apply u)]
    split
    · exact not_deadlocks_pure _
    · exact not_deadlocks_halt (by decide)
  rw [loadKernel, deadlocks_loadFaulting_succ, Clashes]
  refine and_congr_right fun _ ↦ and_congr_right fun harea ↦ or_congr_right ?_
  refine exists_congr fun u ↦ and_congr_right fun _ ↦ ?_
  rw [deadlocks_loadFaulting_succ]
  constructor
  · rintro ⟨habsent, _, h | ⟨v, _, hv⟩⟩
    · exact ⟨habsent, h⟩
    · exact absurd hv (hlast v)
  · rintro ⟨habsent, h⟩
    exact ⟨habsent, harea, .inl h⟩

/-! ## No deadlock without a buffer -/

/-- What leaves the held buffer alone. -/
def heldFrame : Frame (Machine N) := .ofEq fun t ↦ t.held

theorem pagingFrame_held (p : Fin N) : PagingFrame heldFrame p where
  mem _ _ := rfl
  pagecache _ _ _ := rfl
  freelist _ _ := rfl
  reset _ _ := rfl
  table _ _ _ _ := rfl
  entry _ _ _ _ _ := rfl
  killed _ := rfl
  storedSize _ _ _ := rfl

theorem ReadsHeld.held_ne {offset : Word} (h : ReadsHeld s ip offset) : s.held ≠ none := by
  obtain ⟨-, -, -, -, b, hb, -⟩ := h
  rw [hb]
  exact Option.some_ne_none _

theorem FaultReadsHeld.held_ne {addr : Word} (h : FaultReadsHeld t p addr) : t.held ≠ none := by
  obtain ⟨i, -, -, -, frame, rest, -, -, -, hreads | ⟨-, u, hcopy, hreads⟩⟩ := h
  · exact hreads.held_ne
  · have hkept := (respects_copyPage (pagingFrame_held p).toCacheFrame _ _ _ _ _).of_eq hcopy
    exact fun hnone ↦ hreads.held_ne (Eq.trans hkept hnone)

theorem Clashes.held_ne {addr : Word} (h : Clashes t p addr) : t.held ≠ none := by
  obtain ⟨-, -, hreads | ⟨u, hfault, -, hreads⟩⟩ := h
  · exact hreads.held_ne
  · have hkept := (respects_handlePageFault (pagingFrame_held p) addr).of_eq hfault
    exact fun hnone ↦ hreads.held_ne (Eq.trans hkept hnone)

/-! ## The bytes that a write asks for -/

/-- A buffer is held. -/
def holding (s : Machine N) : Bool := s.held.isSome

instance : Nontrivial Halt := ⟨.panic, .stuck, by decide⟩

/-- Where the bytes of a write come from: fetching one leaves the held buffer alone, and deadlocks
with a buffer held only. -/
structure Source (fetch : ℕ → Kernel N Byte) : Prop where
  keeps : ∀ k, Respects heldFrame (fetch k)
  calm : ∀ k s, s.held = none → ¬ Deadlocks (fetch k) s

theorem source_loadKernel (p : Fin N) (addr : Word) :
    Source fun j ↦ loadKernel p (addr + BitVec.ofNat 32 j) where
  keeps _ := respects_loadKernel (pagingFrame_held p) _
  calm _ _ hnone h := Clashes.held_ne ((deadlocks_loadKernel _).mp h) hnone

section Scanning

variable {fetch : ℕ → Kernel N Byte} (h : Source fetch)
include h

theorem Source.held_fetch {i : ℕ} {b : Byte} (hrun : fetch i s = (.ok b, t)) : t.held = s.held :=
  (h.keeps i).of_eq hrun

/-- Filling a buffer asks for its bytes. -/
theorem scans_fetchBytes (i m : ℕ) (hs : holding s = true) :
    Scans holding fetch .deadlock i (i + m) (fun g ↦ fetchBytes g i m) s := by
  induction m generalizing i s with
  | zero => exact .pure _
  | succ m ih =>
    refine (Scans.request hs).bind (fun b t hrun ↦ ?_) (Nat.le_succ i) (by omega)
    have ht : holding t = true := by
      rw [holding, h.held_fetch hrun]
      exact hs
    refine (ih (i + 1) ht |>.mono le_rfl (by omega)).bind (fun _ _ _ ↦ ?_) (by omega) le_rfl
    exact .pure _

/-- With no buffer held there is nothing to be counted. -/
theorem scans_fetchBytes_idle {lo : ℕ} (i m : ℕ) (hs : s.held = none) :
    Scans holding fetch .deadlock lo lo (fun g ↦ fetchBytes g i m) s := by
  induction m generalizing i s with
  | zero => exact .pure _
  | succ m ih =>
    have hidle : holding s = false := by rw [holding, hs]; rfl
    have hfirst : Scans holding fetch .deadlock lo lo (fun g ↦ g i) s :=
      .quiet (fun _ _ ↦ cut_of_idle hidle) (h.calm i s hs)
    refine hfirst.bind (fun b t hrun ↦ ?_) le_rfl le_rfl
    refine (ih (i + 1) ((h.held_fetch hrun).trans hs)).bind (fun _ _ _ ↦ ?_) le_rfl le_rfl
    exact .pure _

/-- The block loop of `writei` asks for its bytes with a buffer held. -/
theorem scans_writeBlocks (n i off left : ℕ) (hs : s.held = none) :
    Scans holding fetch .deadlock i (i + left) (fun g ↦ writeBlocks ip g n i off left) s := by
  induction n generalizing s i off left with
  | zero => exact .pure _
  | succ n ih =>
    by_cases hleft : left = 0
    · refine Scans.congr (.pure ()) fun g ↦ ?_
      rw [writeBlocks, if_pos hleft]
    have hbread : bread ip (off / bSize) s = (.ok (), s) := by
      rw [bread, bind_of_ok (get_apply s), hs]
      rfl
    have hrange : i ≤ i + left := Nat.le_add_right i left
    simp only [writeBlocks, if_neg hleft]
    refine Scans.step hbread (Scans.step (modify_apply _ s) ?_ hrange) hrange
    refine (scans_fetchBytes h i (min left (bSize - off % bSize)) rfl).bind (fun bytes t _ ↦ ?_)
      (Nat.le_add_right _ _) (by omega)
    refine Scans.step (modify_apply _ t) (Scans.step (modify_apply _ _) ?_ ?_) ?_
    · exact (ih _ _ _ rfl).mono le_rfl (by omega)
    · omega
    · omega

theorem scans_writei (i : ℕ) (off n : Word) (hs : s.held = none) :
    Scans holding fetch .deadlock i (i + n.toNat) (fun g ↦ writei ip g i off n) s := by
  have hrange : i ≤ i + n.toNat := Nat.le_add_right i _
  refine Scans.step (get_apply s) ?_ hrange
  cases (s.inodes ip).major with
  | some major =>
    dsimp only
    by_cases hconsole : major = console
    · simp only [if_pos hconsole]
      refine ((scans_fetchBytes_idle h i n.count hs).mono le_rfl hrange).bind (fun _ _ _ ↦ ?_)
        hrange le_rfl
      exact .pure _
    · simp only [if_neg hconsole]
      exact .pure _
  | none =>
    dsimp only
    split
    · exact .pure _
    split
    · exact .pure _
    refine (scans_writeBlocks h n.toNat i off.toNat n.toNat hs).bind (fun _ t _ ↦ ?_) hrange le_rfl
    exact Scans.step (modify_apply _ t) (.pure _) le_rfl

/-- `writei` lets go of its buffers. -/
theorem held_writei {i : ℕ} {off n r : Word} (hs : s.held = none)
    (hrun : writei ip fetch i off n s = (.ok r, t)) : t.held = none := by
  have hkept : Triple (fun u : Machine N ↦ u.held = none) (writei ip fetch i off n)
      (fun _ u ↦ u.held = none) fun _ _ ↦ True := by
    refine .get_bind fun u hu ↦ ?_
    split
    · split
      · refine .bind (Q := fun _ v ↦ v.held = none) ?_ fun _ ↦ .pure fun _ ↦ id
        exact (Triple.of_frame (respects_fetchBytes (fun k _ ↦ h.keeps k) i _ le_rfl) u).post
          (fun _ v hv ↦ Eq.trans hv hu) fun _ _ _ ↦ trivial
      · exact .pure_at hu
    split
    · exact .pure_at hu
    split
    · exact .pure_at hu
    refine .bind (.at_state (writeBlocks_rule (I := fun _ ↦ True) (J := fun v ↦ v.held = none)
      (fun _ _ ↦ trivial) (fun _ _ _ ↦ trivial) (fun _ _ _ ↦ trivial) (fun _ _ ↦ rfl)
      (fun _ _ ↦ .trivial) n.toNat i off.toNat n.toNat le_rfl) hu) fun _ ↦ ?_
    exact .bind (.modify fun _ ↦ id) fun _ ↦ .pure fun _ ↦ id
  exact hkept.returned hs hrun

/-- `updatePage` runs without a buffer. -/
theorem scans_updatePage (lo : ℕ) (offset inum dev : Word) (i : ℕ) (size : Word)
    (hs : s.held = none) :
    Scans holding fetch .deadlock lo lo (fun g ↦ updatePage offset inum dev g i size) s := by
  refine Scans.step (get_apply s) ?_ le_rfl
  split
  · exact .pure _
  rename_i page _
  cases hlocked : (s.pagecache.pages page).locked with
  | true =>
    have hstuck : ¬ Deadlocks (acquirePage page false) s := by
      rw [acquirePage, deadlocks_bind_of_ok (get_apply s), if_pos hlocked]
      exact not_deadlocks_halt (by decide)
    refine Scans.bind (.const hstuck) (fun _ t hrun ↦ ?_) le_rfl le_rfl
    rw [acquirePage, bind_of_ok (get_apply s), if_pos hlocked] at hrun
    cases hrun
  | false =>
    refine Scans.step (acquirePage_apply hlocked false) ?_ le_rfl
    refine Scans.bind (scans_fetchBytes_idle h i size.toNat ?_) (fun bytes t _ ↦ ?_) le_rfl le_rfl
    · exact hs
    · exact Scans.const fun h ↦ by cases h

theorem held_updatePage {offset inum dev size : Word} {i : ℕ} (hs : s.held = none)
    (hrun : updatePage offset inum dev fetch i size s = (.ok (), t)) : t.held = none := by
  have hcache : CacheFrame (heldFrame (N := N)) := ⟨fun _ _ ↦ rfl, fun _ _ _ ↦ rfl⟩
  have hkept := (respects_updatePage (fun k _ ↦ h.keeps k) hcache offset inum dev i size le_rfl).of_eq
    hrun
  exact Eq.trans hkept hs

theorem scans_writeChunks (f : Word) (n i left : ℕ) (hs : s.held = none) :
    Scans holding fetch .deadlock i (i + left) (fun g ↦ writeChunks f g n i left) s := by
  induction n generalizing s i left with
  | zero => exact .pure _
  | succ n ih =>
    by_cases hleft : left = 0
    · refine Scans.congr (.pure true) fun g ↦ ?_
      rw [writeChunks, if_pos hleft]
    have hchunk := toNat_chunk left
    simp only [writeChunks, if_neg hleft]
    generalize BitVec.ofNat 32 (min left writeMax) = m at hchunk ⊢
    refine Scans.step (get_apply s) ?_ (Nat.le_add_right i left)
    refine (scans_writei h i (s.files f).off m hs).bind (fun r t hrun ↦ ?_) (Nat.le_add_right i _)
      (by omega)
    have ht := held_writei h hs hrun
    split
    · exact .pure _
    split
    · exact .const (not_deadlocks_halt (by decide))
    rename_i hequal
    obtain rfl : r = m := by simpa using hequal
    refine (scans_updatePage h (i + r.toNat) _ _ _ i r ht).bind (fun _ u hupdate ↦ ?_) le_rfl
      (by omega)
    have hu : u.held = none := held_updatePage h ht hupdate
    refine Scans.step (modify_apply _ u) ?_ (by omega)
    refine Scans.mono (ih (i + r.toNat) (left - r.toNat) ?_) le_rfl (by omega)
    exact hu

/-- **The bytes of a write**: `filewrite` deadlocks if and only if fetching one of them does. -/
theorem scans_filewrite (f n : Word) (hs : s.held = none) :
    Scans holding fetch .deadlock 0 n.count (fun g ↦ filewrite f g n) s := by
  refine Scans.step (get_apply s) ?_ (Nat.zero_le _)
  split
  · exact .pure _
  split
  · exact .const (not_deadlocks_halt (by decide))
  refine ((scans_writeChunks h f n.count 0 n.count hs).mono le_rfl (by omega)).bind (fun b t _ ↦ ?_)
    (Nat.zero_le _) le_rfl
  split
  · exact .pure _
  · exact .pure _

end Scanning

/-! ## `my_munmap` -/

/-- The write-back of `mr`, with the bytes from `fetch`. -/
def writeBackFrom (mr : MmapRegion) (fetch : ℕ → Kernel N Byte) : Kernel N Word := do
  setFile mr.f fun file ↦ { file with off := mr.offset }
  filewrite mr.f fetch mr.size

/-- The write-back of `mr` that is begun in `s` comes to copy byte `j` of the region in state `t`,
which is a busy one. -/
def Copies (busy : Machine N → Bool) (s : Machine N) (p : Fin N) (mr : MmapRegion) (j : ℕ)
    (t : Machine N) : Prop :=
  Asks busy (writeBackFrom mr) (fun k ↦ loadKernel p (mr.virtAddr + BitVec.ofNat 32 k)) j s t

theorem scans_writeBackFrom (mr : MmapRegion) (hs : s.held = none) :
    Scans holding (fun k ↦ loadKernel p (mr.virtAddr + BitVec.ofNat 32 k)) .deadlock 0 mr.size.count
      (writeBackFrom mr) s := by
  refine Scans.step (modify_apply _ s) ?_ (Nat.zero_le _)
  refine scans_filewrite (source_loadKernel p mr.virtAddr) mr.f mr.size ?_
  exact hs

theorem Copies.lt {mr : MmapRegion} {j : ℕ} (h : Copies holding s p mr j t) (hs : s.held = none) :
    j < mr.size.count := by
  rcases (scans_writeBackFrom mr hs).asks j with ⟨-, hlt, -⟩ | hsame
  · exact hlt
  · exact absurd h (Scans.not_asks hsame)

/-- **What the write-back keeps holds in the states in which it copies.** -/
theorem Copies.of_respects {F : Frame (Machine N)} {busy : Machine N → Bool} {mr : MmapRegion}
    {j : ℕ} (h : Copies busy s p mr j t) (hio : OffsetFrame F)
    (hload : ∀ k < mr.size.count, Respects F (loadKernel p (mr.virtAddr + BitVec.ofNat 32 k))) :
    F.rel s t := by
  let fetch : ℕ → Kernel N Byte := fun k ↦ loadKernel p (mr.virtAddr + BitVec.ofNat 32 k)
  have hwrite : Respects F (writeBackFrom mr (cut busy fetch j .panic)) := by
    refine (respects_setOffset hio _ _).bind fun _ ↦ respects_filewrite hio (fun k hk ↦ ?_) _ _ le_rfl
    have hfetch : Respects F (fetch k) := hload k hk
    exact respects_cut hfetch j _
  exact hwrite.of_eq (h .panic)

/-- Nothing of a region whose pages are present clashes. -/
theorem Copies.not_clashes {mr : MmapRegion} {j : ℕ} (h : Copies holding s p mr j t)
    (hs : s.held = none)
    (hpresent : ∀ k < mr.size.count, present s p (mr.virtAddr + BitVec.ofNat 32 k) = true) :
    ¬ Clashes t p (mr.virtAddr + BitVec.ofNat 32 j) := by
  let I : Machine N → Prop := fun u ↦
    ∀ k < mr.size.count, present u p (mr.virtAddr + BitVec.ofNat 32 k) = true
  have hio : OffsetFrame (.ofInvariant I) :=
    { mem := fun _ _ ↦ id, pagecache := fun _ _ _ ↦ id, inodes := fun _ _ ↦ id,
      held := fun _ _ ↦ id, offset := fun _ _ _ ↦ id }
  have hkept : I t := by
    refine h.of_respects hio (fun k hk ↦ Triple.respects ?_) hpresent
    refine .get_bind fun u hu ↦ ?_
    rw [if_pos (hu k hk)]
    exact .pure_at hu
  intro hclash
  have habsent := hclash.1
  rw [hkept j (h.lt hs)] at habsent
  cases habsent

theorem deadlocks_writeBack (mr : MmapRegion) (hs : s.held = none) :
    Deadlocks (writeBack p mr) s ↔ MmapRegion.writesBack mr = true ∧
      ∃ j t, Copies holding s p mr j t ∧ Clashes t p (mr.virtAddr + BitVec.ofNat 32 j) := by
  rw [writeBack]
  split
  · rename_i hback
    have hbytes : Deadlocks (writeBackFrom mr fun k ↦
        loadKernel p (mr.virtAddr + BitVec.ofNat 32 k)) s ↔ _ := (scans_writeBackFrom mr hs).halts_iff
    rw [← bind_assoc_prog, deadlocks_bind fun _ _ ↦ not_deadlocks_pure _, and_iff_right hback]
    refine hbytes.trans (exists_congr fun j ↦ exists_congr fun t ↦ and_congr_right fun _ ↦ ?_)
    exact deadlocks_loadKernel _
  · rename_i hback
    exact iff_of_false (not_deadlocks_pure _) fun h ↦ hback h.1

theorem neverStuck_freeRange (pgdir tempaddr : Word) (n : ℕ) :
    NeverStuck (freeRange pgdir tempaddr n : Kernel N Unit) := by
  induction n generalizing tempaddr with
  | zero => exact .pure _
  | succ n ih =>
    refine NeverStuck.bind (fun s e he ↦ ?_) fun found ↦ ?_
    · rw [getPhysicalPage_apply] at he
      cases he
    · split
      · split
        · exact ih _
        · exact (neverStuck_kfree _).bind fun _ ↦ .bind (.modify _) fun _ ↦ ih _
      · exact ih _

end Xv6Mmap.Kernel

namespace Xv6Mmap

open Kernel Library Prog
open BitVec (eq_of_toNat_eq toNat_add toNat_ofNat)

namespace BootImage

/-- The first page of a file, shared and writable. -/
def sharedFilePage : Kernel.MmapCall :=
  { addr := 0, f := 0, size := 4096, offset := 0, flags := mapShared,
    protection := protRead ||| protWrite }

end BootImage

open BootImage

end Xv6Mmap
