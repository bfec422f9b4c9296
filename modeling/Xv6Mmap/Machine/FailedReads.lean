import Xv6Mmap.Machine.CacheCoherence
import Xv6Mmap.Machine.Frames

/-!
# Reads of the page cache that fail

On a miss `getPage` locks a page, wipes it and reads into it.  If `readi` fails it returns at once:
the page keeps its old key, has lost its content, and nobody will release its lock.
-/

namespace Xv6Mmap

open Function Library Prog Kernel Machine

variable {nproc : ℕ} {ip : InodeRef} {s t : Machine nproc} {offset dest size destOffset : Word}

/-- `getPage` has to read the page that `offset` lies in, and `readi` fails.  Where the bytes go
makes no difference to that. -/
def ReadFails (s : Machine nproc) (ip : InodeRef) (offset : Word) : Prop :=
  s.pagecache.findPage ip.inum (pageStart offset) ip.dev = none ∧
    (Kernel.readi ip 0 (pageStart offset) pgSize s).1 = .ok (-1)

/-- The lock that `getPage` goes for is free, and so are the buffers it may read; a page that is not
cached is none of the console. -/
def Fetchable (s : Machine nproc) (ip : InodeRef) (offset : Word) : Prop :=
  s.held = none ∧ match s.pagecache.findPage ip.inum (pageStart offset) ip.dev with
    | some page => (s.pagecache.pages page).locked = false
    | none => (s.inodes ip).major ≠ some console ∧
        ∃ h : s.pagecache.totalCount < nPageCache,
          (s.pagecache.pages ⟨s.pagecache.totalCount, h⟩).locked = false

/-- Every entry of the cache has the key and the content that it had in `s`. -/
def CacheKept (s t : Machine nproc) : Prop :=
  ∀ i, (t.pagecache.pages i).dev = (s.pagecache.pages i).dev ∧
    (t.pagecache.pages i).inodeNumber = (s.pagecache.pages i).inodeNumber ∧
    (t.pagecache.pages i).offset = (s.pagecache.pages i).offset ∧
    ∀ k < 4096, t.mem ((t.pagecache.pages i).page + BitVec.ofNat 32 k) =
      s.mem ((s.pagecache.pages i).page + BitVec.ofNat 32 k)

namespace Kernel

/-- `readi` of a page fails exactly if the page cannot be read. -/
theorem readi_page {dst n : Word} {t : Machine nproc}
    (hrun : readi ip dst (pageStart offset) pgSize s = (.ok n, t)) :
    (n = -1 ↔ ¬ PageReadable s ip offset) ∧ t.pagecache = s.pagecache := by
  have hcache := (respects_readi (F := Frame.ofEq Machine.pagecache) (fun _ _ ↦ rfl) ip dst
    (pageStart offset) pgSize).of_eq hrun
  refine ⟨?_, hcache⟩
  rw [readi, bind_of_ok (get_apply s)] at hrun
  cases hfile : (s.inodes ip).major with
  | some major =>
    have hdevice : ¬ PageReadable s ip offset := by
      rintro ⟨hnone, _⟩
      rw [hfile] at hnone
      cases hnone
    simp only [hfile] at hrun
    split at hrun
    · cases hrun
    · cases hrun
      exact iff_of_true rfl hdevice
  | none =>
    simp only [hfile] at hrun
    by_cases hreadable : PageReadable s ip offset
    · rw [if_neg (by rw [hreadable.2]; decide)] at hrun
      obtain ⟨_, _, _, hreturn⟩ := bind_eq_ok hrun
      rw [pure_apply, Prod.mk.injEq, Except.ok.injEq] at hreturn
      rw [← hreturn.1]
      exact iff_of_false (readCount_ne hreadable.2) (not_not.mpr hreadable)
    · rw [if_pos (Bool.eq_true_of_not_eq_false fun h ↦ hreadable ⟨hfile, h⟩)] at hrun
      cases hrun
      exact iff_of_true rfl hreadable

theorem unlocked_of_acquirePage {i : Fin nPageCache} {spinning : Bool}
    (hrun : acquirePage i spinning s = (.ok (), t)) : (s.pagecache.pages i).locked = false := by
  rw [acquirePage, bind_of_ok (get_apply s)] at hrun
  split at hrun
  · cases hrun
  · exact Bool.eq_false_of_not_eq_true (by assumption)

/-- A `getPage` that returns a page changes no other; one that fails leaves the victim locked. -/
theorem getPage_eq_ok {found : Option (Fin nPageCache)}
    (hrun : getPage ip offset s = (.ok found, t)) :
    match found with
    | some page => PageAvailable s ip offset ∧
        ∀ j, j ≠ page → t.pagecache.pages j = s.pagecache.pages j
    | none => ¬ PageAvailable s ip offset ∧
        ∃ victim, (s.pagecache.pages victim).locked = false ∧
          (t.pagecache.pages victim).locked = true := by
  have hget := hrun
  rw [getPage, bind_of_ok (get_apply s)] at hrun
  dsimp only at hrun
  rw [← pageStart] at hrun
  cases hfound : s.pagecache.findPage ip.inum (pageStart offset) ip.dev with
  | some page =>
    rw [hfound] at hrun
    obtain ⟨_, u, hacquire, hreturn⟩ := bind_eq_ok hrun
    cases hreturn
    rw [acquirePage_apply (unlocked_of_acquirePage hacquire)] at hacquire
    cases hacquire
    exact ⟨Or.inl (by rw [hfound]; rfl), fun j hj ↦ update_of_ne hj _ _⟩
  | none =>
    have havailable : PageAvailable s ip offset ↔ PageReadable s ip offset := by
      rw [PageAvailable, hfound]
      exact or_iff_right (by decide)
    rw [hfound] at hrun
    dsimp only at hrun
    split at hrun
    · rename_i hroom
      rw [setTotalCount, bind_of_ok (modify_apply _ s)] at hrun
      obtain ⟨_, u, hacquire, _⟩ := bind_eq_ok hrun
      have hfree := unlocked_of_acquirePage hacquire
      rw [getPage_victim hroom hfree hfound] at hget
      dsimp only at hget
      obtain ⟨n, v, hread, hrest⟩ := bind_eq_ok hget
      obtain ⟨hfails, hcache⟩ := readi_page hread
      split at hrest
      · rename_i hn
        cases hrest
        refine ⟨mt havailable.mp (hfails.mp hn), _, hfree, ?_⟩
        rw [hcache]
        simp only [wiped, update_self]
      · rename_i hn
        cases hrest
        refine ⟨havailable.mpr (not_not.mp (mt hfails.mpr hn)), fun j hj ↦ ?_⟩
        simp only [update_of_ne hj]
        rw [hcache]
        simp only [wiped, update_of_ne hj]
    · cases hrun

theorem copyPage_returns (h : Fetchable s ip offset) :
    ∃ t, copyPage ip offset dest size destOffset s = (.ok (), t) := by
  obtain ⟨hheld, hlock⟩ := h
  cases hfound : s.pagecache.findPage ip.inum (pageStart offset) ip.dev with
  | some page =>
    rw [hfound] at hlock
    exact ⟨_, copyPage_hit hlock hfound⟩
  | none =>
    rw [hfound] at hlock
    obtain ⟨hdriver, hroom, hfree⟩ := hlock
    by_cases hreadable : PageReadable s ip offset
    · exact ⟨_, copyPage_miss hroom hfree hfound hheld hreadable⟩
    · exact ⟨_, copyPage_unread hroom hfree hfound hdriver hreadable⟩

end Kernel

/-- **A failed read of the page cache.**  `copyPage` returns unless it has to wait for a lock or to
read from the console.  It then leaves every page lock free that was free, and the cache as it was if
`readi` fails, if and only if the page is cached or can be read. -/
theorem copyPage_intact_iff (s : Machine nproc) (ip : InodeRef)
    (offset dest size destOffset : Word) :
    (Fetchable s ip offset → ∃ t, copyPage ip offset dest size destOffset s = (.ok (), t)) ∧
      ∀ t, copyPage ip offset dest size destOffset s = (.ok (), t) →
        (((∀ i, (s.pagecache.pages i).locked = false → (t.pagecache.pages i).locked = false) ∧
          (ReadFails s ip offset → CacheKept s t)) ↔ PageAvailable s ip offset) := by
  refine ⟨copyPage_returns, fun t hrun ↦ ?_⟩
  have hfails (havailable : PageAvailable s ip offset) : ¬ ReadFails s ip offset := by
    rintro ⟨hmiss, hread⟩
    rcases hresult : readi ip 0 (pageStart offset) pgSize s with ⟨outcome, u⟩
    rw [hresult] at hread
    cases hread
    rcases havailable with hhit | hreadable
    · rw [hmiss] at hhit
      cases hhit
    · exact (readi_page hresult).1.mp rfl hreadable
  obtain ⟨found, u, hget, hrest⟩ := bind_eq_ok hrun
  have hfound := getPage_eq_ok hget
  cases found with
  | none =>
    cases hrest
    obtain ⟨hmissing, victim, hfree, hlocked⟩ := hfound
    refine iff_of_false (fun hintact ↦ ?_) hmissing
    rw [hintact.1 victim hfree] at hlocked
    cases hlocked
  | some page =>
    obtain ⟨havailable, hothers⟩ := hfound
    refine iff_of_true ⟨fun i hi ↦ ?_, fun h ↦ absurd h (hfails havailable)⟩ havailable
    cases hrest
    by_cases hpage : i = page
    · subst hpage
      simp only [update_self]
    · simp only [update_of_ne hpage]
      rw [← hi]
      exact congrArg CachedPage.locked (hothers i hpage)

open BootImage in
/-- The first page of a file is read into an empty cache, and no page stays locked. -/
theorem copyPage_intact_first :
    ∃ t, copyPage someInode 0 0x400000 4096 0 (withFile 0 0) = (.ok (), t) ∧
      ∀ i, (t.pagecache.pages i).locked = false := by
  obtain ⟨hreturns, hintact⟩ := copyPage_intact_iff (withFile 0 0) someInode 0 0x400000 4096 0
  obtain ⟨t, hrun⟩ := hreturns ⟨rfl, by decide, by decide, rfl⟩
  exact ⟨t, hrun, fun i ↦ ((hintact t hrun).mpr (.inr ⟨rfl, rfl⟩)).1 i rfl⟩

open BootImage in
/-- A page behind the end of the file is asked for: the victim stays locked. -/
theorem copyPage_leaves_victim_locked :
    ∃ t victim, copyPage someInode 0x3000 0x400000 4096 0 (withFile 0 0) = (.ok (), t) ∧
      ((withFile 0 0).pagecache.pages victim).locked = false ∧
      (t.pagecache.pages victim).locked = true :=
  ⟨_, ⟨0, by decide⟩,
    copyPage_unread (by decide) rfl (by decide) (by decide) (by rw [PageReadable]; decide), rfl, rfl⟩

end Xv6Mmap
