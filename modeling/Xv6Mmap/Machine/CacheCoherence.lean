import Xv6Mmap.Machine.FileContent
import Xv6Mmap.Machine.System

/-!
# Page-cache coherence

Every cached page holds the content of its file.  Reading through the cache keeps this as long as no
page is asked for that starts past the end of its file or belongs to a device: a failed `readi` leaves
the victim wiped, with its old key and its lock taken.  `filewrite` keeps it as long as no chunk runs
from a page into the next one while the next one is cached, or while the frame behind the page's frame
holds another cached page: `updatePage` writes the whole chunk from one page on.
-/

namespace Xv6Mmap

open Function Library Memory BitVec

variable {nproc : ℕ} {s t : Machine nproc} {k : ℕ}

/-! ## Page offsets -/

/-- The offset of a page: `offset - offset % PGSIZE`, with the sign of C's remainder. -/
def pageStart (offset : Word) : Word := offset - offset.srem pgSize

theorem pageStart_mod (offset : Word) : (pageStart offset).toNat % 4096 = 0 := by
  have hlt := offset.isLt
  have hpage : pgSize.msb = false := by decide
  unfold pageStart BitVec.srem
  cases hmsb : offset.msb with
  | false =>
    simp only [hpage, umod_eq]
    rw [toNat_sub, toNat_umod, show pgSize.toNat = 4096 from rfl]
    omega
  | true =>
    simp only [hpage, umod_eq, neg_eq]
    rw [toNat_sub, toNat_neg, toNat_umod, toNat_neg,
      show pgSize.toNat = 4096 from rfl]
    omega

theorem srem_pgSize_of_lt {offset : Word} (h : offset.toNat < 2 ^ 31) :
    (offset.srem pgSize).toNat = offset.toNat % 4096 := by
  have hmsb : offset.msb = false := by
    rw [msb_eq_false_iff_two_mul_lt]
    omega
  have hpage : pgSize.msb = false := by decide
  unfold BitVec.srem
  simp only [hmsb, hpage, umod_eq]
  rw [toNat_umod, show pgSize.toNat = 4096 from rfl]

/-- The remainder of a negative offset is negative unless it is zero. -/
theorem srem_pgSize_of_ge {offset : Word} (h : 2 ^ 31 ≤ offset.toNat) :
    (offset.srem pgSize).toNat =
      if offset.toNat % 4096 = 0 then 0 else 2 ^ 32 - 4096 + offset.toNat % 4096 := by
  have hlt := offset.isLt
  have hmsb : offset.msb = true := by
    rw [msb_eq_true_iff_two_mul_ge]
    omega
  have hpage : pgSize.msb = false := by decide
  unfold BitVec.srem
  simp only [hmsb, hpage, umod_eq, neg_eq]
  rw [toNat_neg, toNat_umod, toNat_neg, show pgSize.toNat = 4096 from rfl]
  split <;> omega

theorem pageStart_of_lt {offset : Word} (h : offset.toNat < 2 ^ 31) :
    (pageStart offset).toNat = offset.toNat - offset.toNat % 4096 := by
  have hrem := srem_pgSize_of_lt h
  rw [pageStart, toNat_sub_of_le, hrem]
  rw [le_def, hrem]
  exact Nat.mod_le _ _

namespace Machine

/-- Every page with a key holds the content of its file. -/
def Coherent (s : Machine nproc) : Prop :=
  ∀ i, (s.pagecache.pages i).dev ≠ 0 → ∀ k < 4096,
    s.mem ((s.pagecache.pages i).page + BitVec.ofNat 32 k) =
      (s.inodes ⟨(s.pagecache.pages i).dev, (s.pagecache.pages i).inodeNumber⟩).content
        ((s.pagecache.pages i).offset.toNat + k)

/-- A page cache whose unlocked pages hold the content of their files.  A failed read leaves a locked
page behind that does not. -/
structure CacheReady (s : Machine nproc) : Prop where
  aligned : ∀ i, (s.pagecache.pages i).page.toNat % 4096 = 0
  distinct : ∀ i j, (s.pagecache.pages i).page = (s.pagecache.pages j).page → i = j
  room : s.pagecache.totalCount < nPageCache
  held_eq : s.held = none
  coherent : ∀ i, (s.pagecache.pages i).locked = false → (s.pagecache.pages i).dev ≠ 0 →
    ∀ k < 4096, s.mem ((s.pagecache.pages i).page + BitVec.ofNat 32 k) =
      (s.inodes ⟨(s.pagecache.pages i).dev, (s.pagecache.pages i).inodeNumber⟩).content
        ((s.pagecache.pages i).offset.toNat + k)

/-- A page cache in use, with no lock taken: its keys are unique, and every page holds the content of
its file. -/
structure CacheOk (s : Machine nproc) : Prop extends s.CacheReady where
  offsets : ∀ i, (s.pagecache.pages i).offset.toNat % 4096 = 0
  unique : ∀ i j, (s.pagecache.pages i).dev ≠ 0 →
    (s.pagecache.pages i).dev = (s.pagecache.pages j).dev →
    (s.pagecache.pages i).inodeNumber = (s.pagecache.pages j).inodeNumber →
    (s.pagecache.pages i).offset = (s.pagecache.pages j).offset → i = j
  unlocked : ∀ i, (s.pagecache.pages i).locked = false

theorem CacheOk.allCoherent (h : s.CacheOk) : s.Coherent := fun i ↦ h.coherent i (h.unlocked i)

/-- An empty page cache: as `pagecacheinit` leaves it. -/
structure CacheEmpty (s : Machine nproc) : Prop where
  aligned : ∀ i, (s.pagecache.pages i).page.toNat % 4096 = 0
  distinct : ∀ i j, (s.pagecache.pages i).page = (s.pagecache.pages j).page → i = j
  uncached : ∀ i, (s.pagecache.pages i).dev = 0 ∧ (s.pagecache.pages i).inodeNumber = 0 ∧
    (s.pagecache.pages i).offset = 0 ∧ (s.pagecache.pages i).locked = false
  totalCount_eq : s.pagecache.totalCount = 0
  held_eq : s.held = none

theorem CacheEmpty.cacheOk (h : s.CacheEmpty) : s.CacheOk := { h with
  offsets i := by
    rw [(h.uncached i).2.2.1]
    rfl
  unique i j hdev := absurd (h.uncached i).1 hdev
  unlocked i := (h.uncached i).2.2.2
  room := by
    rw [h.totalCount_eq]
    decide
  coherent i _ hdev := absurd (h.uncached i).1 hdev }

/-- At boot the page cache is empty. -/
theorem Boot.cacheEmpty (h : s.Boot) : s.CacheEmpty := { h with
  aligned i := (h.held_ok (.cache i) _ rfl).2
  distinct i j hequal := by
    have hone := h.owners.exclusive (.cache i) (.cache j) _ rfl hequal.symm
    rcases hone with heq | hfalse
    · cases heq
      rfl
    · exact hfalse.elim }

/-- No byte of the `n` bytes from `dst` on lies in a frame of the page cache. -/
def OutsideCache (s : Machine nproc) (dst : Word) (n : ℕ) : Prop :=
  ∀ i, ∀ k < 4096, n ≤ ((s.pagecache.pages i).page + BitVec.ofNat 32 k - dst).toNat

end Machine

namespace Kernel

open Prog Machine

variable {ip : InodeRef} {s : Machine nproc} {offset dest size destOffset : Word}
  {i : Fin nPageCache} {start off n : Word} {j : Fin nPageCache}

/-! ## Reading through the cache -/

theorem acquirePage_apply (h : (s.pagecache.pages i).locked = false) (spinning : Bool) :
    acquirePage i spinning s = (.ok (), { s with
      pagecache := { s.pagecache with
        pages := update s.pagecache.pages i
          { s.pagecache.pages i with locked := true } } }) := by
  rw [acquirePage, bind_of_ok (get_apply s), h, if_neg (by decide)]
  rfl

/-- A page that is cached is copied out of its frame. -/
theorem copyPage_hit (hunlocked : (s.pagecache.pages i).locked = false)
    (hfound : s.pagecache.findPage ip.inum (pageStart offset) ip.dev = some i) :
    copyPage ip offset dest size destOffset s = (.ok (), { s with
      mem := blit s.mem dest size.toNat fun k ↦
        s.mem ((s.pagecache.pages i).page + destOffset + BitVec.ofNat 32 k) }) := by
  have hget : getPage ip offset s = (.ok (some i), { s with
      pagecache := { s.pagecache with
        pages := update s.pagecache.pages i
          { s.pagecache.pages i with locked := true } } }) := by
    rw [getPage, bind_of_ok (get_apply s)]
    dsimp only
    rw [← pageStart, hfound]
    dsimp only
    rw [bind_of_ok (acquirePage_apply hunlocked true)]
    rfl
  rw [copyPage, bind_of_ok hget]
  dsimp only
  rw [bind_of_ok (get_apply _), bind_of_ok (memmove_apply _ _ _ _), releasePage, setPage,
    modify_apply]
  have hrelease : ({ s.pagecache.pages i with locked := false } : CachedPage) =
      s.pagecache.pages i := by
    rw [← hunlocked]
  simp only [update_self, update_idem]
  rw [hrelease, update_eq_self]

/-- The number of bytes that `readi` reads of a page that starts inside the file. -/
theorem readCount_toNat {inode : Inode}
    (hreadable : (inode.size < start || start + pgSize < start) = false) :
    (if inode.size < start + pgSize then inode.size - start else pgSize).toNat =
      min 4096 (inode.size.toNat - start.toNat) := by
  simp only [Bool.or_eq_false_iff, decide_eq_false_iff_not, BitVec.not_lt] at hreadable
  obtain ⟨hstart, hend⟩ := hreadable
  have hpage : pgSize.toNat = 4096 := rfl
  have hsum : (start + pgSize).toNat = start.toNat + 4096 := by
    rw [le_def, toNat_add, hpage] at hend
    rw [toNat_add, hpage]
    omega
  rw [le_def] at hstart
  split
  · rename_i hless
    rw [lt_def, hsum] at hless
    rw [toNat_sub_of_le hstart]
    omega
  · rename_i hmore
    rw [lt_def, hsum] at hmore
    omega

theorem readCount_ne {inode : Inode}
    (hreadable : (inode.size < start || start + pgSize < start) = false) :
    (if inode.size < start + pgSize then inode.size - start else pgSize) ≠ -1 := by
  intro hequal
  have hcount := readCount_toNat hreadable
  rw [hequal, show (-1 : Word).toNat = 2 ^ 32 - 1 from rfl] at hcount
  omega

/-- The bytes that `getPage` puts into a frame: the content of the file, zero past its end. -/
theorem loadPage_eq {frame : Word} {inode : Inode} (hfile : inode.major = none)
    (hreadable : (inode.size < start || start + pgSize < start) = false) (mem : Word → Byte) :
    blit (blit mem frame 4096 fun _ ↦ 0) frame
        (if inode.size < start + pgSize then inode.size - start else pgSize).toNat
        (fun k ↦ inode.data (start.toNat + k)) =
      blit mem frame 4096 fun k ↦ inode.content (start.toNat + k) := by
  funext a
  rw [readCount_toNat hreadable]
  by_cases hin : (a - frame).toNat < 4096
  · rw [blit_of_lt hin]
    by_cases hdata : (a - frame).toNat < min 4096 (inode.size.toNat - start.toNat)
    · rw [blit_of_lt hdata, Inode.content, if_pos ⟨hfile, by omega⟩]
    · rw [blit_of_le (not_lt.mp hdata), blit_of_lt hin, Inode.content, if_neg (by omega)]
  · rw [blit_of_le (not_lt.mp hin), blit_of_le (by omega), blit_of_le (not_lt.mp hin)]

/-- The page of `ip` that `offset` lies in can be read. -/
def PageReadable (s : Machine nproc) (ip : InodeRef) (offset : Word) : Prop :=
  (s.inodes ip).major = none ∧
    ((s.inodes ip).size < pageStart offset || pageStart offset + pgSize < pageStart offset) = false

/-- The index of the next victim. -/
def nextCount (count : ℕ) : ℕ := if count + 1 = nPageCache then 0 else count + 1

/-- The state after `getPage` has read a page of `ip` into page `victim`. -/
def loaded (s : Machine nproc) (ip : InodeRef) (start : Word) (victim : Fin nPageCache)
    (locked : Bool) : Machine nproc :=
  { s with
    mem := blit s.mem (s.pagecache.pages victim).page 4096 fun k ↦
      (s.inodes ip).content (start.toNat + k)
    pagecache :=
      { pages := update s.pagecache.pages victim
          { s.pagecache.pages victim with
            dev := ip.dev, inodeNumber := ip.inum, offset := start, locked := locked }
        totalCount := nextCount s.pagecache.totalCount } }

/-- The state in which `getPage` reads into page `victim`. -/
def wiped (s : Machine nproc) (victim : Fin nPageCache) : Machine nproc :=
  { s with
    mem := blit s.mem (s.pagecache.pages victim).page 4096 fun _ ↦ 0
    pagecache :=
      { pages := update s.pagecache.pages victim
          { s.pagecache.pages victim with locked := true }
        totalCount := nextCount s.pagecache.totalCount } }

/-- A page that is replaced keeps its frame. -/
theorem page_update {pages : Fin nPageCache → CachedPage} {victim : Fin nPageCache} {page : CachedPage}
    (hpage : page.page = (pages victim).page) (i : Fin nPageCache) :
    (update pages victim page i).page = (pages i).page := by
  by_cases hi : i = victim
  · rw [hi, update_self, hpage]
  · rw [update_of_ne hi]

section Loaded

variable (s : Machine nproc) (ip : InodeRef) (start : Word) (victim : Fin nPageCache)
  (locked : Bool)

theorem loaded_self : (loaded s ip start victim locked).pagecache.pages victim =
    { s.pagecache.pages victim with
      dev := ip.dev, inodeNumber := ip.inum, offset := start, locked := locked } :=
  update_self _ _ _

theorem loaded_of_ne (h : i ≠ victim) :
    (loaded s ip start victim locked).pagecache.pages i = s.pagecache.pages i :=
  update_of_ne h _ _

theorem loaded_page (i : Fin nPageCache) :
    ((loaded s ip start victim locked).pagecache.pages i).page = (s.pagecache.pages i).page := by
  apply page_update
  rfl

theorem loaded_mem : (loaded s ip start victim locked).mem =
    blit s.mem (s.pagecache.pages victim).page 4096 fun k ↦
      (s.inodes ip).content (start.toNat + k) := rfl

end Loaded

section Miss

variable (hroom : s.pagecache.totalCount < nPageCache)
  (hunlocked : (s.pagecache.pages ⟨s.pagecache.totalCount, hroom⟩).locked = false)
  (hfound : s.pagecache.findPage ip.inum (pageStart offset) ip.dev = none)
include hunlocked hfound

/-- A page that is not cached is read into the next victim, which is locked and wiped first. -/
theorem getPage_victim :
    getPage ip offset s =
      let victim : Fin nPageCache := ⟨s.pagecache.totalCount, hroom⟩
      (readi ip (s.pagecache.pages victim).page (pageStart offset) pgSize >>= fun n ↦
        if n = -1 then return none
        else do
          setPage victim fun page ↦
            { page with dev := ip.dev, inodeNumber := ip.inum, offset := pageStart offset }
          return some victim) (wiped s victim) := by
  rw [getPage, bind_of_ok (get_apply s)]
  dsimp only
  rw [← pageStart, hfound]
  dsimp only
  rw [dif_pos hroom]
  have hacquire := acquirePage_apply (s := { s with
    pagecache := { s.pagecache with totalCount := s.pagecache.totalCount + 1 } }) hunlocked false
  rw [setTotalCount, bind_of_ok (modify_apply _ s), bind_of_ok hacquire, setTotalCount,
    bind_of_ok (modify_apply _ _), bind_of_ok (memset_apply _ _ _ _)]
  rfl

theorem copyPage_miss (hheld : s.held = none) (hreadable : PageReadable s ip offset) :
    copyPage ip offset dest size destOffset s =
      let victim : Fin nPageCache := ⟨s.pagecache.totalCount, hroom⟩
      let t := loaded s ip (pageStart offset) victim false
      (.ok (), { t with
        mem := blit t.mem dest size.toNat fun k ↦
          t.mem ((s.pagecache.pages victim).page + destOffset + BitVec.ofNat 32 k) }) := by
  have hget := getPage_victim hroom hunlocked hfound
  generalize (⟨s.pagecache.totalCount, hroom⟩ : Fin nPageCache) = victim at hget ⊢
  have hread : readi ip (s.pagecache.pages victim).page (pageStart offset) pgSize (wiped s victim) =
      (.ok (if (s.inodes ip).size < pageStart offset + pgSize then
        (s.inodes ip).size - pageStart offset else pgSize), { wiped s victim with
        mem := blit s.mem (s.pagecache.pages victim).page 4096 fun k ↦
          (s.inodes ip).content ((pageStart offset).toNat + k) }) := by
    rw [← loadPage_eq hreadable.1 hreadable.2 s.mem]
    exact readi_apply (s := wiped s victim) ip hheld (s.pagecache.pages victim).page pgSize
      hreadable.1 hreadable.2
  dsimp only at hget
  rw [bind_of_ok hread, if_neg (readCount_ne hreadable.2), setPage,
    bind_of_ok (modify_apply _ _)] at hget
  simp only [wiped, update_self, update_idem] at hget
  rw [copyPage, bind_of_ok hget]
  dsimp only
  rw [bind_of_ok (get_apply _), bind_of_ok (memmove_apply _ _ _ _), releasePage, setPage,
    modify_apply]
  simp only [loaded, update_self, update_idem]

/-- A page past the end of the file or of a device without a driver is not read, and nothing is
copied. -/
theorem copyPage_unread (hdriver : (s.inodes ip).major ≠ some console)
    (hpast : ¬ PageReadable s ip offset) :
    copyPage ip offset dest size destOffset s =
      (.ok (), wiped s ⟨s.pagecache.totalCount, hroom⟩) := by
  have hget := getPage_victim hroom hunlocked hfound
  generalize (⟨s.pagecache.totalCount, hroom⟩ : Fin nPageCache) = victim at hget ⊢
  have hread : readi ip (s.pagecache.pages victim).page (pageStart offset) pgSize (wiped s victim) =
      (.ok (-1), wiped s victim) := by
    have hmajor : ((wiped s victim).inodes ip).major = (s.inodes ip).major := rfl
    rw [readi, bind_of_ok (get_apply _), hmajor]
    cases hfile : (s.inodes ip).major with
    | none => exact congrFun (if_pos (Bool.eq_true_of_not_eq_false fun h ↦ hpast ⟨hfile, h⟩)) _
    | some major => exact congrFun (if_neg fun h ↦ hdriver (hfile.trans (congrArg some h))) _
  dsimp only at hget
  rw [bind_of_ok hread, if_pos rfl] at hget
  rw [copyPage, bind_of_ok hget]
  rfl

/-- Reading a page of the console ends in `iunlock`. -/
theorem copyPage_console (hdriver : (s.inodes ip).major = some console) :
    (copyPage ip offset dest size destOffset s).1 = .error .panic := by
  have hmajor (victim : Fin nPageCache) :
      ((wiped s victim).inodes ip).major = some console := hdriver
  apply bind_error
  rw [getPage_victim hroom hunlocked hfound]
  apply bind_error
  rw [readi, bind_of_ok (get_apply _), hmajor]
  rfl

end Miss

theorem not_hasKey_of_findPage (hfound : s.pagecache.findPage ip.inum offset ip.dev = none)
    (j : Fin nPageCache) : ¬ ((s.pagecache.pages j).dev = ip.dev ∧
      (s.pagecache.pages j).inodeNumber = ip.inum ∧ (s.pagecache.pages j).offset = offset) := by
  intro hkey
  have hnone := List.find?_eq_none.mp hfound j (List.mem_finRange j)
  simp [PageCache.hasKey, hkey] at hnone

theorem hasKey_of_findPage (hfound : s.pagecache.findPage ip.inum offset ip.dev = some i) :
    (s.pagecache.pages i).dev = ip.dev ∧ (s.pagecache.pages i).inodeNumber = ip.inum ∧
      (s.pagecache.pages i).offset = offset := by
  have hkey := List.find?_some hfound
  simp only [PageCache.hasKey, Bool.and_eq_true, decide_eq_true_eq] at hkey
  exact ⟨hkey.2, hkey.1.1, hkey.1.2⟩

theorem nextCount_lt {count : ℕ} (h : count < nPageCache) : nextCount count < nPageCache := by
  unfold nextCount
  split
  · decide
  · omega

/-- A page of the cache is replaced by one that holds what it should, or is locked. -/
theorem ready_replace (h : s.CacheReady) (victim : Fin nPageCache) (page : CachedPage)
    (hpage : page.page = (s.pagecache.pages victim).page) {cells : ℕ → Byte} {count : ℕ}
    (hcount : count < nPageCache) (hcells : page.locked = false → ∀ k < 4096,
      cells k = (s.inodes ⟨page.dev, page.inodeNumber⟩).content (page.offset.toNat + k)) :
    { s with
      mem := blit s.mem (s.pagecache.pages victim).page 4096 cells
      pagecache :=
        { pages := update s.pagecache.pages victim page
          totalCount := count } }.CacheReady := by
  have hframes := page_update hpage
  constructor
  case aligned =>
    intro i
    dsimp only
    rw [hframes]
    exact h.aligned i
  case distinct =>
    intro i j hequal
    dsimp only at hequal
    rw [hframes, hframes] at hequal
    exact h.distinct i j hequal
  case room => exact hcount
  case held_eq => exact h.held_eq
  case coherent =>
    intro i hlocked hdev k hk
    dsimp only at hlocked hdev ⊢
    rw [hframes]
    by_cases hi : i = victim
    · subst hi
      rw [update_self] at hlocked hdev ⊢
      rw [blit_offset hk (by decide), hcells hlocked k hk]
    · rw [update_of_ne hi] at hlocked hdev ⊢
      have hne : (s.pagecache.pages victim).page ≠ (s.pagecache.pages i).page :=
        fun hequal ↦ hi (h.distinct victim i hequal).symm
      rw [blit_of_le (frame_apart (h.aligned victim) (h.aligned i) hne hk)]
      exact h.coherent i hlocked hdev k hk

/-- Writing outside the frames of the cache. -/
theorem ready_blit (h : s.CacheReady) {dst : Word} {n : ℕ} (hdst : s.OutsideCache dst n)
    (bytes : ℕ → Byte) : { s with mem := blit s.mem dst n bytes }.CacheReady := { h with
  coherent i hlocked hdev k hk := by
    rw [← h.coherent i hlocked hdev k hk]
    exact blit_of_le (hdst i k hk) }

theorem ready_loaded (h : s.CacheReady) (ip : InodeRef) (start : Word) (victim : Fin nPageCache) :
    (loaded s ip start victim false).CacheReady :=
  ready_replace h victim { s.pagecache.pages victim with
    dev := ip.dev, inodeNumber := ip.inum, offset := start, locked := false } rfl
    (nextCount_lt h.room) fun _ _ _ ↦ rfl

/-- Loading a page that was not cached keeps the cache in order. -/
theorem cacheOk_loaded (hok : s.CacheOk) (hstart : start.toNat % 4096 = 0)
    (hfound : s.pagecache.findPage ip.inum start ip.dev = none) (victim : Fin nPageCache) :
    (loaded s ip start victim false).CacheOk := by
  have hother (j : Fin nPageCache) (hj : j ≠ victim) := loaded_of_ne s ip start victim false hj
  have hself := loaded_self s ip start victim false
  have hfresh := not_hasKey_of_findPage hfound
  refine ⟨ready_loaded hok.toCacheReady ip start victim, fun j ↦ ?_, ?_, fun j ↦ ?_⟩
  · by_cases hj : j = victim
    · rw [hj, hself]
      exact hstart
    · rw [hother j hj]
      exact hok.offsets j
  · intro i j hdev hsame hinum hoffset
    by_cases hi : i = victim
    · grind
    · grind [hok.unique]
  · by_cases hj : j = victim
    · rw [hj, hself]
    · rw [hother j hj]
      exact hok.unlocked j

/-- Writing outside the frames of the cache keeps it in order. -/
theorem cacheOk_blit (hok : s.CacheOk) {dst : Word} {n : ℕ} (hdst : s.OutsideCache dst n)
    (bytes : ℕ → Byte) : { s with mem := blit s.mem dst n bytes }.CacheOk :=
  ⟨ready_blit hok.toCacheReady hdst bytes, hok.offsets, hok.unique, hok.unlocked⟩

/-- An address outside the frames of the cache. -/
def OutsideFrames (s : Machine nproc) (a : Word) : Prop :=
  ∀ i, 4096 ≤ (a - (s.pagecache.pages i).page).toNat

/-- The page that `offset` lies in is cached or can be read. -/
def PageAvailable (s : Machine nproc) (ip : InodeRef) (offset : Word) : Prop :=
  (s.pagecache.findPage ip.inum (pageStart offset) ip.dev).isSome = true ∨ PageReadable s ip offset

theorem add_ofNat_add (a b : Word) (k : ℕ) :
    a + b + BitVec.ofNat 32 k = a + BitVec.ofNat 32 (b.toNat + k) := by
  rw [ofNat_add, ofNat_toNat, setWidth_eq, BitVec.add_assoc]

/-- What a call of `copyPage` does that delivers `n` bytes of the file from `off` on: it writes nowhere
else but to the frames of the cache. -/
structure Fetched (s : Machine nproc) (ip : InodeRef) (off n : ℕ) (dest : Word) (t : Machine nproc) :
    Prop where
  ready : t.CacheReady
  bytes : ∀ k < n, t.mem (dest + BitVec.ofNat 32 k) = (s.inodes ip).content (off + k)
  mem_eq : ∀ a, OutsideFrames s a → n ≤ (a - dest).toNat → t.mem a = s.mem a
  rest : ∃ mem cache, t = { s with mem := mem, pagecache := cache }
  frames : ∀ i, (t.pagecache.pages i).page = (s.pagecache.pages i).page

/-- The same from a cache all in order, which stays so. -/
structure Delivered (s : Machine nproc) (ip : InodeRef) (off n : ℕ) (dest : Word)
    (t : Machine nproc) : Prop extends Fetched s ip off n dest t where
  cacheOk : t.CacheOk

/-- Bytes are copied out of an unlocked page of a state that differs from `s` in the cache only. -/
theorem fetched_out {u : Machine nproc} (hu : u.CacheReady)
    (hrest : ∃ mem cache, u = { s with mem := mem, pagecache := cache })
    (hframes : ∀ j, (u.pagecache.pages j).page = (s.pagecache.pages j).page)
    (hmem : ∀ a, OutsideFrames s a → u.mem a = s.mem a)
    (hunlocked : (u.pagecache.pages i).locked = false)
    (hkey : (u.pagecache.pages i).dev = ip.dev ∧ (u.pagecache.pages i).inodeNumber = ip.inum ∧
      (u.pagecache.pages i).offset = start) (hdev : ip.dev ≠ 0)
    (hfit : destOffset.toNat + size.toNat ≤ 4096) (hdest : s.OutsideCache dest size.toNat) :
    Fetched s ip (start.toNat + destOffset.toNat) size.toNat dest { u with
      mem := blit u.mem dest size.toNat fun k ↦
        u.mem ((s.pagecache.pages i).page + destOffset + BitVec.ofNat 32 k) } := by
  obtain ⟨hkdev, hkinum, hkoffset⟩ := hkey
  have hinodes : u.inodes = s.inodes := by
    obtain ⟨_, _, rfl⟩ := hrest
    rfl
  constructor
  case ready => exact ready_blit hu (fun j k hk ↦ hframes j ▸ hdest j k hk) _
  case bytes =>
    intro k hk
    have hbyte := hu.coherent i hunlocked (hkdev ▸ hdev) (destOffset.toNat + k) (by omega)
    rw [hkdev, hkinum, hkoffset, ← add_ofNat_add, ← Nat.add_assoc, hframes, hinodes] at hbyte
    rw [← hbyte]
    dsimp only
    rw [blit_offset hk size.isLt.le]
  case mem_eq =>
    intro a houtside ha
    dsimp only
    rw [blit_of_le ha, hmem a houtside]
  case rest =>
    obtain ⟨_, _, rfl⟩ := hrest
    exact ⟨_, _, rfl⟩
  case frames => exact hframes

/-- **`copyPage` delivers what `readi` would, or nothing**, from a cache whose unlocked pages are in
order. -/
theorem copyPage_copies (offset : Word) (h : s.CacheReady) (hdev : ip.dev ≠ 0)
    (hfit : destOffset.toNat + size.toNat ≤ 4096) (hdest : s.OutsideCache dest size.toNat) :
    Triple (· = s) (copyPage ip offset dest size destOffset)
      (fun _ t ↦ ∃ n, Fetched s ip ((pageStart offset).toNat + destOffset.toNat) n dest t ∧
        (n = size.toNat ∨ n = 0 ∧ ¬ PageAvailable s ip offset)) fun _ _ ↦ True := by
  have hhalts {e : Halt} (hrun : (copyPage ip offset dest size destOffset s).1 = .error e) :=
    (Triple.of_error hrun).post (Q := fun _ t ↦ ∃ n, Fetched s ip
      ((pageStart offset).toNat + destOffset.toNat) n dest t ∧
        (n = size.toNat ∨ n = 0 ∧ ¬ PageAvailable s ip offset)) (fun _ _ ↦ id) fun _ _ _ ↦ trivial
  cases hfound : s.pagecache.findPage ip.inum (pageStart offset) ip.dev with
  | some i =>
    by_cases hlocked : (s.pagecache.pages i).locked = true
    · apply hhalts (e := .panic)
      apply bind_error
      rw [getPage, bind_of_ok (get_apply s)]
      dsimp only
      rw [← pageStart, hfound]
      apply bind_error
      rw [acquirePage, bind_of_ok (get_apply s), if_pos hlocked]
      rfl
    · have hunlocked := Bool.eq_false_of_not_eq_true hlocked
      rintro t rfl
      rw [copyPage_hit hunlocked hfound]
      exact ⟨_, fetched_out h ⟨_, _, rfl⟩ (fun _ ↦ rfl) (fun _ _ ↦ rfl) hunlocked
        (hasKey_of_findPage hfound) hdev hfit hdest, .inl rfl⟩
  | none =>
    by_cases hlocked : (s.pagecache.pages ⟨s.pagecache.totalCount, h.room⟩).locked = true
    · apply hhalts (e := .stuck)
      apply bind_error
      rw [getPage, bind_of_ok (get_apply s)]
      dsimp only
      rw [← pageStart, hfound]
      dsimp only
      rw [dif_pos h.room, setTotalCount, bind_of_ok (modify_apply _ s)]
      apply bind_error
      rw [acquirePage, bind_of_ok (get_apply _), if_pos hlocked]
      rfl
    · have hunlocked := Bool.eq_false_of_not_eq_true hlocked
      by_cases hdriver : (s.inodes ip).major = some console
      · exact hhalts (copyPage_console h.room hunlocked hfound hdriver)
      rintro t rfl
      by_cases hreadable : PageReadable t ip offset
      · rw [copyPage_miss h.room hunlocked hfound h.held_eq hreadable]
        have hframes := loaded_page t ip (pageStart offset) ⟨t.pagecache.totalCount, h.room⟩ false
        have hself := loaded_self t ip (pageStart offset) ⟨t.pagecache.totalCount, h.room⟩ false
        refine ⟨_, fetched_out (ready_loaded h ip _ _) ⟨_, _, rfl⟩ hframes
          (fun a houtside ↦ ?_) ?_ ?_ hdev hfit hdest, .inl rfl⟩
        · rw [loaded_mem, blit_of_le (houtside _)]
        · rw [hself]
        · rw [hself]
          exact ⟨rfl, rfl, rfl⟩
      · rw [copyPage_unread h.room hunlocked hfound hdriver hreadable]
        rw [wiped]
        refine ⟨0, ⟨?_, fun k hk ↦ absurd hk (Nat.not_lt_zero k), fun a houtside _ ↦ ?_,
          ⟨_, _, rfl⟩, page_update rfl⟩, .inr ⟨rfl, ?_⟩⟩
        · exact ready_replace h _ { t.pagecache.pages _ with locked := true } rfl
            (nextCount_lt h.room) nofun
        · dsimp only
          rw [blit_of_le (houtside _)]
        · rw [PageAvailable, hfound]
          exact fun havailable ↦ hreadable (havailable.resolve_left Bool.false_ne_true)

/-- **`copyPage` delivers what `readi` would**, from a cache in order. -/
theorem copyPage_delivers (hok : s.CacheOk) (hdev : ip.dev ≠ 0)
    (havailable : PageAvailable s ip offset) (hfit : destOffset.toNat + size.toNat ≤ 4096)
    (hdest : s.OutsideCache dest size.toNat) :
    ∃ t, copyPage ip offset dest size destOffset s = (.ok (), t) ∧
      Delivered s ip ((pageStart offset).toNat + destOffset.toNat) size.toNat dest t := by
  have hrun : ∃ t, copyPage ip offset dest size destOffset s = (.ok (), t) ∧ t.CacheOk := by
    cases hfound : s.pagecache.findPage ip.inum (pageStart offset) ip.dev with
    | some i => exact ⟨_, copyPage_hit (hok.unlocked i) hfound, cacheOk_blit hok hdest _⟩
    | none =>
      rw [PageAvailable, hfound] at havailable
      refine ⟨_, copyPage_miss hok.room (hok.unlocked _) hfound hok.held_eq
        (havailable.resolve_left Bool.false_ne_true), ?_⟩
      have hframes := loaded_page s ip (pageStart offset) ⟨s.pagecache.totalCount, hok.room⟩ false
      exact cacheOk_blit (cacheOk_loaded hok (pageStart_mod offset) hfound _)
        (fun i k hk ↦ hframes i ▸ hdest i k hk) _
  obtain ⟨t, hrun, hkept⟩ := hrun
  have hcopies := copyPage_copies offset hok.toCacheReady hdev hfit hdest
  obtain ⟨n, hcopied, rfl | ⟨_, hnone⟩⟩ := hcopies.returned rfl hrun
  · exact ⟨t, hrun, hcopied, hkept⟩
  · exact absurd havailable hnone

theorem updatePage_of_none (src : ℕ → Word) (i : ℕ)
    (hfound : s.pagecache.findPage ip.inum (pageStart offset) ip.dev = none) :
    updatePage offset ip.inum ip.dev (peek src) i size s = (.ok (), s) := by
  rw [updatePage, bind_of_ok (get_apply s), ← pageStart, hfound]
  rfl

theorem updatePage_of_some (src : ℕ → Word) (i : ℕ) {page : Fin nPageCache}
    (hunlocked : (s.pagecache.pages page).locked = false)
    (hfound : s.pagecache.findPage ip.inum (pageStart offset) ip.dev = some page) :
    updatePage offset ip.inum ip.dev (peek src) i size s = (.ok (), { s with
      mem := blit s.mem ((s.pagecache.pages page).page + offset.srem pgSize) size.toNat fun k ↦
        s.mem (src (i + k)) }) := by
  rw [updatePage, bind_of_ok (get_apply s), ← pageStart, hfound]
  dsimp only
  rw [bind_of_ok (acquirePage_apply hunlocked false), bind_of_ok ((reads_peek src).fetchBytes _ _),
    bind_of_ok (copyIn_apply _ _ _ _), releasePage, setPage, modify_apply]
  have hrelease : ({ s.pagecache.pages page with locked := false } : CachedPage) =
      s.pagecache.pages page := by
    rw [← hunlocked]
  have hbytes : blit s.mem ((s.pagecache.pages page).page + offset.srem pgSize) size.toNat
      (fun j ↦ ((List.range size.toNat).map fun k ↦ s.mem (src (i + k))).getD j 0) =
      blit s.mem ((s.pagecache.pages page).page + offset.srem pgSize) size.toNat
        fun k ↦ s.mem (src (i + k)) := by grind [blit_congr]
  simp only [update_self, update_idem]
  rw [hrelease, update_eq_self, hbytes]

/-- A chunk that stays inside its page, or after which the next page is not cached and the frame
behind that of its page holds no cached page. -/
def ChunkSafe (s : Machine nproc) (ip : InodeRef) (off n : ℕ) : Prop :=
  off % 4096 + n ≤ 4096 ∨
    (s.pagecache.findPage ip.inum (BitVec.ofNat 32 (off - off % 4096 + 4096)) ip.dev = none ∧
      ∀ i, s.pagecache.findPage ip.inum (BitVec.ofNat 32 (off - off % 4096)) ip.dev = some i →
        ∀ j, (s.pagecache.pages j).dev ≠ 0 →
          (s.pagecache.pages j).page ≠ (s.pagecache.pages i).page + pgSize)

/-- A write into one frame does not reach another one, unless it runs over into the next. -/
theorem write_apart {a b : Word} (ha : a.toNat % 4096 = 0) (hb : b.toNat % 4096 = 0)
    (hne : a ≠ b) (hstart : start.toNat < 4096) {n : ℕ} (hn : n ≤ 4096)
    (hover : start.toNat + n ≤ 4096 ∨ b ≠ a + pgSize) (hk : k < 4096) :
    n ≤ (b + BitVec.ofNat 32 k - (a + start)).toNat := by
  have hdiff : a.toNat ≠ b.toNat := fun h ↦ hne (eq_of_toNat_eq h)
  have hover' : start.toNat + n ≤ 4096 ∨ b.toNat ≠ (a.toNat + 4096) % 2 ^ 32 := by
    apply hover.imp id
    intro hframe hequal
    apply hframe
    apply eq_of_toNat_eq
    rw [hequal, toNat_add]
    rfl
  have ha' := a.isLt
  have hb' := b.isLt
  rw [toNat_sub, toNat_add, toNat_add, toNat_ofNat]
  omega

/-- The inode after a write. -/
def wroteTo (s : Machine nproc) (ip : InodeRef) (off n : Word) (bytes : ℕ → Byte) : Machine nproc :=
  { s with inodes := update s.inodes ip ((s.inodes ip).written off n bytes) }

/-- The frame addresses of a page that is not the one updated are not written. -/
theorem chunk_apart (hok : s.CacheOk) (hoff : off.toNat < 2 ^ 31)
    (hn : n.toNat ≤ 4096) (hsafe : ChunkSafe s ip off.toNat n.toNat)
    (hfound : s.pagecache.findPage ip.inum (pageStart off) ip.dev = some i) (hij : i ≠ j)
    (hdev : (s.pagecache.pages j).dev ≠ 0) (hk : k < 4096) :
    n.toNat ≤ ((s.pagecache.pages j).page + BitVec.ofNat 32 k -
      ((s.pagecache.pages i).page + off.srem pgSize)).toNat := by
  have hrem := srem_pgSize_of_lt hoff
  have hstart : pageStart off = BitVec.ofNat 32 (off.toNat - off.toNat % 4096) := by
    rw [← pageStart_of_lt hoff, ofNat_toNat, setWidth_eq]
  apply write_apart (hok.aligned i) (hok.aligned j) (fun hequal ↦ hij (hok.distinct i j hequal))
    (hrem ▸ Nat.mod_lt _ (by decide)) hn _ hk
  rw [hrem]
  apply hsafe.imp id
  intro hcross
  exact hcross.2 i (hstart ▸ hfound) j hdev

/-- A byte of a cached page of the file, other than the page updated, is not in the chunk. -/
theorem chunk_misses (hoff : off.toNat + n.toNat ≤ maxFile * bSize)
    (hn : n.toNat ≤ 4096) (hsafe : ChunkSafe s ip off.toNat n.toNat)
    (hok : s.CacheOk) (hkdev : (s.pagecache.pages j).dev = ip.dev)
    (hkinum : (s.pagecache.pages j).inodeNumber = ip.inum)
    (hother : (s.pagecache.pages j).offset ≠ pageStart off) (hk : k < 4096) :
    ¬ (off.toNat ≤ (s.pagecache.pages j).offset.toNat + k ∧
      (s.pagecache.pages j).offset.toNat + k < off.toNat + n.toNat) := by
  have hmax : maxFile * bSize = 71680 := rfl
  have hstart : (pageStart off).toNat = off.toNat - off.toNat % 4096 :=
    pageStart_of_lt (by omega)
  have haligned := hok.offsets j
  have hne : (s.pagecache.pages j).offset.toNat ≠ off.toNat - off.toNat % 4096 := by
    intro hequal
    exact hother (eq_of_toNat_eq (hequal.trans hstart.symm))
  intro hin
  have hnext : (s.pagecache.pages j).offset.toNat = off.toNat - off.toNat % 4096 + 4096 := by omega
  rcases hsafe with hinside | hcross
  · omega
  · refine not_hasKey_of_findPage hcross.1 j ⟨hkdev, hkinum, ?_⟩
    apply eq_of_toNat_eq
    rw [hnext, toNat_ofNat]
    exact (Nat.mod_eq_of_lt (by omega)).symm

theorem cacheOk_wroteTo (hok : s.CacheOk) (hdata : (s.inodes ip).major = none)
    (hoff : off ≤ (s.inodes ip).size) (hend : off.toNat + n.toNat ≤ maxFile * bSize)
    (hn : n.toNat ≤ 4096) (hsafe : ChunkSafe s ip off.toNat n.toNat) (bytes : ℕ → Byte)
    {mem : Word → Byte}
    (hupdated : ∀ i, s.pagecache.findPage ip.inum (pageStart off) ip.dev = some i →
      mem = blit s.mem ((s.pagecache.pages i).page + off.srem pgSize) n.toNat bytes)
    (hsame : s.pagecache.findPage ip.inum (pageStart off) ip.dev = none → mem = s.mem) :
    { wroteTo s ip off n bytes with mem := mem }.CacheOk := by
  have hmax : maxFile * bSize = 71680 := rfl
  have hsmall : off.toNat < 2 ^ 31 := by omega
  refine { hok with coherent := ?_ }
  intro j hlocked hdev k hk
  change mem ((s.pagecache.pages j).page + BitVec.ofNat 32 k) =
    (update s.inodes ip ((s.inodes ip).written off n bytes)
      ⟨(s.pagecache.pages j).dev, (s.pagecache.pages j).inodeNumber⟩).content
        ((s.pagecache.pages j).offset.toNat + k)
  have hold := hok.coherent j hlocked hdev k hk
  -- a page other than the one updated: neither its frame nor its part of the file changes
  have hunchanged (hnot : s.pagecache.findPage ip.inum (pageStart off) ip.dev ≠ some j) :
      mem ((s.pagecache.pages j).page + BitVec.ofNat 32 k) =
        s.mem ((s.pagecache.pages j).page + BitVec.ofNat 32 k) := by
    cases hfound : s.pagecache.findPage ip.inum (pageStart off) ip.dev with
    | none => rw [hsame hfound]
    | some i =>
      have hij : i ≠ j := by
        intro heq
        rw [hfound, heq] at hnot
        exact hnot rfl
      rw [hupdated i hfound, blit_of_le (chunk_apart hok hsmall hn hsafe hfound hij hdev hk)]
  by_cases hfile : (⟨(s.pagecache.pages j).dev, (s.pagecache.pages j).inodeNumber⟩ : InodeRef) = ip
  · have hkdev : (s.pagecache.pages j).dev = ip.dev := congrArg InodeRef.dev hfile
    have hkinum : (s.pagecache.pages j).inodeNumber = ip.inum := congrArg InodeRef.inum hfile
    rw [hfile, update_self, Inode.content_written hoff (by omega) _ hdata]
    rw [hfile] at hold
    by_cases hstart : (s.pagecache.pages j).offset = pageStart off
    · have hfound : s.pagecache.findPage ip.inum (pageStart off) ip.dev = some j := by
        cases hfind : s.pagecache.findPage ip.inum (pageStart off) ip.dev with
        | none => exact absurd ⟨hkdev, hkinum, hstart⟩ (not_hasKey_of_findPage hfind j)
        | some i =>
          obtain ⟨hidev, hiinum, hioffset⟩ := hasKey_of_findPage hfind
          rw [hok.unique j i hdev (hkdev.trans hidev.symm) (hkinum.trans hiinum.symm)
            (hstart.trans hioffset.symm)]
      have hrem := srem_pgSize_of_lt hsmall
      have hpos : (s.pagecache.pages j).offset.toNat = off.toNat - off.toNat % 4096 := by
        rw [hstart, pageStart_of_lt hsmall]
      have hdistance : ((s.pagecache.pages j).page + BitVec.ofNat 32 k -
          ((s.pagecache.pages j).page + off.srem pgSize)).toNat =
          if off.toNat % 4096 ≤ k then k - off.toNat % 4096 else 2 ^ 32 + k - off.toNat % 4096 := by
        grind
      rw [hupdated j hfound, hpos]
      by_cases hin : off.toNat % 4096 ≤ k ∧ k < off.toNat % 4096 + n.toNat
      · grind [blit_of_lt]
      · grind [blit_of_le]
    · have hnot : s.pagecache.findPage ip.inum (pageStart off) ip.dev ≠ some j :=
        fun hfound ↦ hstart (hasKey_of_findPage hfound).2.2
      rw [hunchanged hnot, if_neg (chunk_misses hend hn hsafe hok hkdev hkinum hstart hk)]
      exact hold
  · have hnot : s.pagecache.findPage ip.inum (pageStart off) ip.dev ≠ some j := by
      intro hfound
      obtain ⟨hkdev, hkinum, _⟩ := hasKey_of_findPage hfound
      exact hfile (by rw [hkdev, hkinum])
    rw [hunchanged hnot, update_of_ne hfile]
    exact hold

/-- Every chunk of a write of `n` bytes from `off` on is safe. -/
def WriteSafe (s : Machine nproc) (ip : InodeRef) (off n : ℕ) : Prop :=
  ∀ k, writeMax * k < n → ChunkSafe s ip (off + writeMax * k) (min (n - writeMax * k) writeMax)

theorem chunk_run (hok : s.CacheOk) (hdata : (s.inodes ip).major = none) (src : ℕ → Word) (i : ℕ)
    (hoff : off ≤ (s.inodes ip).size) (hend : off.toNat + n.toNat ≤ maxFile * bSize)
    (hn : n.toNat ≤ 4096) (hsafe : ChunkSafe s ip off.toNat n.toNat) :
    ∃ mem, updatePage off ip.inum ip.dev (peek src) i n
        (wroteTo s ip off n fun k ↦ s.mem (src (i + k))) =
        (.ok (), { wroteTo s ip off n (fun k ↦ s.mem (src (i + k))) with mem := mem }) ∧
      { wroteTo s ip off n (fun k ↦ s.mem (src (i + k))) with mem := mem }.CacheOk := by
  cases hfound : s.pagecache.findPage ip.inum (pageStart off) ip.dev with
  | none =>
    refine ⟨s.mem, updatePage_of_none src i hfound, ?_⟩
    apply cacheOk_wroteTo hok hdata hoff hend hn hsafe
    · intro j hj
      rw [hfound] at hj
      cases hj
    · exact fun _ ↦ rfl
  | some page =>
    refine ⟨_, updatePage_of_some src i (hok.unlocked page) hfound, ?_⟩
    apply cacheOk_wroteTo hok hdata hoff hend hn hsafe
    · intro j hj
      obtain rfl : page = j := Option.mem_unique hfound hj
      rfl
    · intro hnone
      rw [hfound] at hnone
      cases hnone

theorem cacheOk_setFiles (hok : s.CacheOk) (files : Word → File) :
    { s with files := files }.CacheOk := { hok with }

theorem cacheOk_writeChunks (src : ℕ → Word) (f : Word) (n : ℕ) {i left : ℕ}
    (hok : s.CacheOk) (hdata : (s.inodes (s.files f).ip).major = none)
    (hsafe : WriteSafe s (s.files f).ip (s.files f).off.toNat left)
    (hrun : writeChunks f (peek src) n i left s = (.ok true, t)) : t.CacheOk := by
  have hmax : maxFile * bSize = 71680 := rfl
  have hchunk : writeMax = 1536 := rfl
  induction n generalizing s i left with
  | zero =>
    cases hrun
    exact hok
  | succ n ih =>
    rw [writeChunks] at hrun
    by_cases hleft : left = 0
    · rw [if_pos hleft] at hrun
      cases hrun
      exact hok
    · rw [if_neg hleft, bind_of_ok (get_apply s)] at hrun
      generalize hsize : BitVec.ofNat 32 (min left writeMax) = n1 at hrun
      have hn1 : n1.toNat = min left writeMax := by rw [← hsize, toNat_chunk]
      by_cases hfits : (s.files f).off ≤ (s.inodes (s.files f).ip).size ∧
          (s.files f).off.toNat + n1.toNat ≤ maxFile * bSize
      swap
      · rw [bind_of_ok (writei_of_not_fits hdata i hfits), if_pos (by decide)] at hrun
        cases hrun
      · obtain ⟨hoff, hend⟩ := hfits
        have hwrites := (reads_peek src).writei_of_fits hok.held_eq hdata i hoff hend
        have hfirst : ChunkSafe s (s.files f).ip (s.files f).off.toNat n1.toNat := by
          have hzero := hsafe 0 (by omega)
          rw [Nat.mul_zero, Nat.add_zero, Nat.sub_zero] at hzero
          rw [hn1]
          exact hzero
        obtain ⟨mem, hupdate, hok'⟩ := chunk_run hok hdata src i hoff hend (by omega) hfirst
        rw [bind_of_ok hwrites, slt_zero_of_small (by omega), if_neg (by decide), if_neg (by simp),
          ← wroteTo, bind_of_ok hupdate, setFile, bind_of_ok (modify_apply _ _)] at hrun
        refine ih ?_ ?_ ?_ hrun
        · exact cacheOk_setFiles hok' _
        · simpa [wroteTo, Inode.written] using hdata
        intro k hk
        have hsum : ((s.files f).off + n1).toNat = (s.files f).off.toNat + n1.toNat := by
          rw [toNat_add, Nat.mod_eq_of_lt (by omega)]
        have hmul : writeMax * (k + 1) = writeMax * k + writeMax := Nat.mul_succ _ _
        have hnext := hsafe (k + 1) (by omega)
        simp only [update_self, wroteTo, hsum]
        rw [show (s.files f).off.toNat + writeMax * (k + 1) =
            (s.files f).off.toNat + n1.toNat + writeMax * k by omega,
          show left - writeMax * (k + 1) = left - n1.toNat - writeMax * k by omega] at hnext
        exact hnext

theorem cacheOk_filewrite (src : ℕ → Word) {f r : Word} (hok : s.CacheOk)
    (hdata : (s.inodes (s.files f).ip).major = none)
    (hsafe : WriteSafe s (s.files f).ip (s.files f).off.toNat n.count)
    (hrun : filewrite f (peek src) n s = (.ok r, t)) (hr : r ≠ -1) : t.CacheOk := by
  rw [filewrite, bind_of_ok (get_apply s)] at hrun
  by_cases hwritable : (s.files f).writable = true
  · rw [if_neg (by simp [hwritable])] at hrun
    cases htype : (s.files f).type with
    | none =>
      rw [htype] at hrun
      cases hrun
    | inode =>
      rw [htype] at hrun
      obtain ⟨written, u, hchunks, hreturn⟩ := bind_eq_ok hrun
      cases written with
      | false =>
        cases hreturn
        exact absurd rfl hr
      | true =>
        cases hreturn
        exact cacheOk_writeChunks src f _ hok hdata hsafe hchunks
  · rw [if_pos (by simp [hwritable])] at hrun
    cases hrun
    exact absurd rfl hr

end Kernel

/-! ## Runs -/

/-- A call that reads or writes through the page cache. -/
inductive CacheOp where
  | copyPage (ip : InodeRef) (offset dest size destOffset : Word)
  | filewrite (f : Word) (src : ℕ → Word) (n : Word)

namespace CacheOp

/-- One call that returns; a `filewrite` has to succeed. -/
def step (s : Machine nproc) : CacheOp → Option (Machine nproc)
  | copyPage ip offset dest size destOffset =>
    match Kernel.copyPage ip offset dest size destOffset s with
    | (.ok _, t) => some t
    | (.error _, _) => none
  | filewrite f src n =>
    match Kernel.filewrite f (Kernel.peek src) n s with
    | (.ok r, t) => if r = -1 then none else some t
    | (.error _, _) => none

/-- The condition on the state before a call.  `copyPage` is called for an inode, copies bytes of one
page to memory outside the cache, and its page is cached or starts inside a file that is no device;
`filewrite` writes to no device, and no chunk of it runs from its page into a page or a frame that is
cached. -/
def Safe (s : Machine nproc) : CacheOp → Prop
  | copyPage ip offset dest size destOffset =>
    ip.dev ≠ 0 ∧ destOffset.toNat + size.toNat ≤ 4096 ∧ s.OutsideCache dest size.toNat ∧
      Kernel.PageAvailable s ip offset
  | filewrite f _ n =>
    (s.inodes (s.files f).ip).major = none ∧
      Kernel.WriteSafe s (s.files f).ip (s.files f).off.toNat n.count

theorem step_cacheOk (hok : s.CacheOk) {op : CacheOp} (hsafe : op.Safe s)
    (hstep : op.step s = some t) : t.CacheOk := by
  cases op with
  | copyPage ip offset dest size destOffset =>
    obtain ⟨hdev, hfit, hdest, havailable⟩ := hsafe
    obtain ⟨u, hrun, hdelivered⟩ := Kernel.copyPage_delivers hok hdev havailable hfit hdest
    simp only [step, hrun] at hstep
    cases hstep
    exact hdelivered.cacheOk
  | filewrite f src n =>
    rcases hrun : Kernel.filewrite f (Kernel.peek src) n s with ⟨outcome, u⟩
    simp only [step, hrun] at hstep
    cases outcome with
    | error e => cases hstep
    | ok r =>
      by_cases hr : r = -1
      · simp only [if_pos hr] at hstep
        cases hstep
      · simp only [if_neg hr] at hstep
        cases hstep
        exact Kernel.cacheOk_filewrite src hok hsafe.1 hsafe.2 hrun hr

end CacheOp

/-- **Page-cache coherence.** From an empty page cache, along every sequence of `copyPage` calls and
successful `filewrite` calls that meet the condition in the state they are made in, every page with a
key holds the content of its file, and the next such `copyPage` call delivers that content. -/
theorem pageCache_coherent {s₀ s : Machine nproc} (hempty : s₀.CacheEmpty)
    (hrun : Runs.Reaches (fun s op ↦ CacheOp.step s op) CacheOp.Safe s₀ s) :
    s.Coherent ∧ ∀ ip offset dest size destOffset,
      CacheOp.Safe s (.copyPage ip offset dest size destOffset) →
        ∃ t, Kernel.copyPage ip offset dest size destOffset s = (.ok (), t) ∧
          ∀ k < size.toNat, t.mem (dest + BitVec.ofNat 32 k) =
            (s.inodes ip).content ((pageStart offset).toNat + destOffset.toNat + k) := by
  have hok : s.CacheOk :=
    hrun.invariant hempty.cacheOk fun _ _ _ h hsafe hstep ↦ CacheOp.step_cacheOk h hsafe hstep
  refine ⟨hok.allCoherent, ?_⟩
  intro ip offset dest size destOffset hsafe
  obtain ⟨hdev, hfit, hdest, havailable⟩ := hsafe
  obtain ⟨t, hcopy, hdelivered⟩ := Kernel.copyPage_delivers hok hdev havailable hfit hdest
  exact ⟨t, hcopy, hdelivered.bytes⟩

namespace BootImage

/-- An inode of the root device. -/
def someInode : InodeRef := ⟨1, 2⟩

/-- A machine with one file of two pages of sevens, open for writing at offset 4000. -/
def withFile (n frames : ℕ) : Machine (n + 1) :=
  machine n frames
    (fun _ ↦ { type := .inode, ref := 1, readable := true, writable := true, ip := someInode,
               off := 4000 })
    (fun _ ↦ { size := 8192, data := fun _ ↦ 7 })

theorem outsideCache_frame {n frames : ℕ} {files : Word → File} {inodes : InodeRef → Inode}
    (hk : k < 0xC00) : (machine n frames files inodes).OutsideCache (frame 0x400000 k) 4096 := by
  intro i j hj
  have hi : i.val < 30 := i.isLt
  have hdest := toNat_frame 0x400000 k (by omega)
  have hpage := toNat_frame 0x300000 i.val (by omega)
  apply frame_apart (by omega) _ _ hj
  · change (frame 0x300000 i.val).toNat % 4096 = 0
    omega
  · intro hequal
    have hnat := congrArg BitVec.toNat hequal
    change (frame 0x400000 k).toNat = (frame 0x300000 i.val).toNat at hnat
    omega

end BootImage

open BootImage

/-- The first page of a file is read through an empty cache, and its last 96 bytes are overwritten
with zeros: the cached page has them. -/
theorem pageCache_coherent_rewritten :
    ∃ s, Runs.Reaches (fun s op ↦ CacheOp.step s op) CacheOp.Safe (withFile 0 0) s ∧ s.Coherent ∧
      s.mem (frame 0x300000 0 + 3999) = 7 ∧ s.mem (frame 0x300000 0 + 4000) = 0 := by
  have hboot : (withFile 0 0).Boot := boot (by decide)
  obtain ⟨s, hs, hbytes⟩ : ∃ s ∈ Runs.run (fun s op ↦ CacheOp.step s op)
      [.copyPage someInode 0 0x400000 4096 0, .filewrite 0 (fun _ ↦ 0) 96] (withFile 0 0),
      s.mem (frame 0x300000 0 + 3999) = 7 ∧ s.mem (frame 0x300000 0 + 4000) = 0 := by
    decide +kernel
  obtain ⟨s₁, hcopy, hrest⟩ := Option.bind_eq_some_iff.mp hs
  obtain ⟨u, hwrite, hend⟩ := Option.bind_eq_some_iff.mp hrest
  obtain rfl : u = s := Option.some.inj hend
  have hread : CacheOp.Safe (withFile 0 0) (.copyPage someInode 0 0x400000 4096 0) :=
    ⟨by decide, by decide, outsideCache_frame (k := 0) (by decide), .inr ⟨rfl, rfl⟩⟩
  have hwritten : CacheOp.Safe s₁ (.filewrite 0 (fun _ ↦ 0) 96) := by
    have hmiss : Kernel.copyPage someInode 0 0x400000 4096 0 (withFile 0 0) = _ :=
      Kernel.copyPage_miss (by decide) rfl (by decide) rfl ⟨rfl, rfl⟩
    simp only [CacheOp.step, hmiss, Option.some.injEq] at hcopy
    subst hcopy
    refine ⟨rfl, fun k hk ↦ ?_⟩
    obtain rfl : k = 0 := by
      have hfirst : 1536 * k < 96 := hk
      omega
    exact .inl (by decide)
  have hreaches : Runs.Reaches (fun s op ↦ CacheOp.step s op) CacheOp.Safe (withFile 0 0) u :=
    .head ⟨_, hread, hcopy⟩ (.head ⟨_, hwritten, hwrite⟩ .refl)
  exact ⟨u, hreaches, (pageCache_coherent hboot.cacheEmpty hreaches).1, hbytes⟩

/-- The second page of a file is cached and 200 bytes are written from offset 4000 on: the cached page
keeps the old bytes. -/
theorem pageCache_stale_after_straddling_write :
    ∃ s₀ s : Machine 1, s₀.CacheEmpty ∧
      Runs.Reaches (fun s op ↦ CacheOp.step s op) Runs.unguarded s₀ s ∧ ¬ s.Coherent := by
  let page : Fin nPageCache := ⟨0, by decide⟩
  obtain ⟨s, hs, hdev, hcached, hfile⟩ : ∃ s ∈ Runs.run (fun s op ↦ CacheOp.step s op)
      [.copyPage someInode 4096 0x400000 4096 0, .filewrite 0 (fun _ ↦ 0) 200] (withFile 0 0),
      (s.pagecache.pages page).dev ≠ 0 ∧ s.mem (s.pagecache.pages page).page = 7 ∧
        (s.inodes ⟨(s.pagecache.pages page).dev, (s.pagecache.pages page).inodeNumber⟩).content
          (s.pagecache.pages page).offset.toNat = 0 := by
    decide +kernel
  have hboot : (withFile 0 0).Boot := boot (by decide)
  refine ⟨withFile 0 0, s, hboot.cacheEmpty, Runs.reaches_of_run hs, ?_⟩
  intro h
  have hbyte := h page hdev 0 (by decide)
  rw [BitVec.add_zero, Nat.add_zero, hcached, hfile] at hbyte
  exact absurd hbyte (by decide)

end Xv6Mmap
