import Xv6Mmap.Machine.Entries
import Xv6Mmap.Machine.FileContent

/-!
# Memory written with frames that were free

A page that is loaded or copied is written to a frame that has just been taken from the free list,
and on the way pages of the cache are read in.  `Machine.Taking` says so, and it is kept as long as
no frame is given back; whatever else the machine has in memory is then as it was.
-/

namespace Xv6Mmap

open Library Prog Memory List Function

variable {N : ℕ} {frame : Word}

/-- Since `s`, frames have only been taken from the free list, and memory has only been written in
frames that were free in `s` and in the page cache. -/
structure Machine.Taking (s t : Machine N) : Prop where
  free : t.freelist <:+ s.freelist
  pages : ∀ i, (t.pagecache.pages i).page = (s.pagecache.pages i).page
  mem : ∀ a, (∀ f ∈ s.freelist, 4096 ≤ (a - f).toNat) →
    (∀ i, 4096 ≤ (a - (s.pagecache.pages i).page).toNat) → t.mem a = s.mem a

namespace Machine.Taking

variable {s t u : Machine N}

theorem refl (s : Machine N) : s.Taking s := ⟨suffix_refl _, fun _ ↦ rfl, fun _ _ _ ↦ rfl⟩

theorem trans (hst : s.Taking t) (htu : t.Taking u) : s.Taking u where
  free := htu.free.trans hst.free
  pages i := (htu.pages i).trans (hst.pages i)
  mem a hfree hcache := by
    rw [htu.mem a (fun f hf ↦ hfree f (hst.free.subset hf)) fun i ↦ hst.pages i ▸ hcache i]
    exact hst.mem a hfree hcache

theorem congr (h : s.Taking t) (hfree : u.freelist = t.freelist) (hmem : u.mem = t.mem)
    (hpages : ∀ i, (u.pagecache.pages i).page = (t.pagecache.pages i).page) : s.Taking u where
  free := hfree ▸ h.free
  pages i := (hpages i).trans (h.pages i)
  mem := hmem ▸ h.mem

theorem pop (h : s.Taking t) {rest : List Word} (hfree : t.freelist = frame :: rest) :
    s.Taking { t with freelist := rest } ∧ frame ∈ s.freelist := by
  have hsuffix : rest <:+ t.freelist := hfree ▸ suffix_cons frame rest
  refine ⟨⟨hsuffix.trans h.free, h.pages, h.mem⟩, ?_⟩
  exact h.free.subset (hfree ▸ mem_cons_self)

/-- Memory is written in a frame that was free. -/
theorem write (h : s.Taking t) (hframe : frame ∈ s.freelist) {mem : Word → Byte}
    (hmem : ∀ a, 4096 ≤ (a - frame).toNat → mem a = t.mem a) :
    s.Taking { t with mem := mem } := { h with
  mem a hfree hcache := (hmem a (hfree frame hframe)).trans (h.mem a hfree hcache) }

theorem of_grown {d : Word} (h : s.Grown d t) : s.Taking t := by
  refine ⟨h.free, fun i ↦ ?_, fun a hfree _ ↦ h.mem a hfree⟩
  rw [h.rest]

end Machine.Taking


namespace Machine

variable {s t : Machine N} {dst : Word} {n : ℕ}

/-- The `n` bytes from `dst` on lie in frames that were free in `s` and in the page cache. -/
def Writable (s : Machine N) (dst : Word) (n : ℕ) : Prop :=
  ∀ a, (a - dst).toNat < n → (∃ f ∈ s.freelist, (a - f).toNat < 4096) ∨
    ∃ i, (a - (s.pagecache.pages i).page).toNat < 4096

theorem writable_frame (h : frame ∈ s.freelist) : s.Writable frame 4096 :=
  fun _ ha ↦ .inl ⟨frame, h, ha⟩

theorem writable_cache (s : Machine N) (i : Fin nPageCache) :
    s.Writable (s.pagecache.pages i).page 4096 :=
  fun _ ha ↦ .inr ⟨i, ha⟩

theorem Writable.mono {m : ℕ} (h : s.Writable dst n) (hm : m ≤ n) : s.Writable dst m :=
  fun a ha ↦ h a (by omega)

theorem Writable.drop {k m : ℕ} (h : s.Writable dst n) (hk : k + m ≤ n) :
    s.Writable (dst + BitVec.ofNat 32 k) m := by
  intro a ha
  apply h a
  have hsplit : a - dst = a - (dst + BitVec.ofNat 32 k) + BitVec.ofNat 32 k := by
    generalize BitVec.ofNat 32 k = b
    bv_omega
  rw [hsplit, BitVec.toNat_add, BitVec.toNat_ofNat]
  have hmod' := Nat.mod_le k (2 ^ 32)
  omega

/-- Memory is written where that is allowed. -/
theorem Taking.blit (h : s.Taking t) (hzone : s.Writable dst n) (cells : ℕ → Byte) :
    s.Taking { t with mem := Memory.blit t.mem dst n cells } := { h with
  mem a hfree hcache := by
    rw [← h.mem a hfree hcache]
    apply blit_of_le
    by_contra hlt
    rcases hzone a (by omega) with ⟨f, hf, hin⟩ | ⟨i, hin⟩
    · have hout := hfree f hf
      omega
    · have hout := hcache i
      omega }

theorem Taking.setCache (h : s.Taking t) {cache : PageCache}
    (hpages : ∀ i, (cache.pages i).page = (t.pagecache.pages i).page) :
    s.Taking { t with pagecache := cache } :=
  h.congr rfl rfl hpages

end Machine

namespace Kernel

open Machine

variable {s : Machine N} {dst : Word} {size : Word}

theorem keeps_memset {n : ℕ} (hzone : s.Writable dst n) (c : Byte) :
    Keeps s.Taking (memset dst c n) :=
  .modify fun _ ht ↦ ht.blit hzone fun _ ↦ c

theorem keeps_copyIn {n : ℕ} (hzone : s.Writable dst n) (bytes : ℕ → Byte) :
    Keeps s.Taking (copyIn dst bytes n) :=
  .modify fun _ ht ↦ ht.blit hzone bytes

theorem keeps_memmove {n : ℕ} (hzone : s.Writable dst n) (src : Word) :
    Keeps s.Taking (memmove dst src n) := by
  intro t ht
  rw [memmove_apply]
  exact ht.blit hzone _

theorem keeps_setPage (i : Fin nPageCache) {f : CachedPage → CachedPage}
    (hf : ∀ page, (f page).page = page.page) : Keeps s.Taking (setPage i f) := by
  refine .modify fun t ht ↦ ht.setCache fun j ↦ ?_
  by_cases hj : j = i
  · subst hj
    simp only [update_self, hf]
  · simp only [update_of_ne hj]

theorem keeps_setTotalCount (n : ℕ) : Keeps s.Taking (setTotalCount n) :=
  .modify fun _ ht ↦ ht.setCache fun _ ↦ rfl

theorem keeps_bread (ip : InodeRef) (block : ℕ) : Keeps s.Taking (bread ip block) := by
  refine .get_bind fun t ht ↦ ?_
  split
  · exact .halt fun u hu ↦ hu ▸ ht
  · exact .pure fun u hu ↦ hu ▸ ht

theorem keeps_readBlocks (ip : InodeRef) (n : ℕ) {left : ℕ} (off : ℕ)
    (hzone : s.Writable dst left) : Keeps s.Taking (readBlocks ip n dst off left) := by
  induction n generalizing dst off left with
  | zero => exact .pure fun _ ↦ id
  | succ n ih =>
    rw [readBlocks]
    split
    · exact .pure fun _ ↦ id
    · refine .bind (keeps_bread ip _) fun _ ↦ ?_
      dsimp only
      refine .get_bind fun t ht ↦ ?_
      refine .bind ((keeps_copyIn (hzone.mono (Nat.min_le_left _ _)) _).at_state ht) fun _ ↦ ?_
      exact ih (off + _) (hzone.drop (by omega))

theorem keeps_readi (ip : InodeRef) (off : Word) {n : Word} (hzone : s.Writable dst n.toNat) :
    Keeps s.Taking (readi ip dst off n) := by
  refine .get_bind fun t ht ↦ ?_
  dsimp only
  split
  · split
    · exact .halt fun u hu ↦ hu ▸ ht
    · exact .pure fun u hu ↦ hu ▸ ht
  · split
    · exact .pure fun u hu ↦ hu ▸ ht
    · rename_i hok
      have hcount : (if (t.inodes ip).size < off + n then (t.inodes ip).size - off else n).toNat ≤
          n.toNat := by
        simp only [Bool.or_eq_true, decide_eq_true_eq, not_or, BitVec.not_lt] at hok
        split
        · rename_i hless
          rw [BitVec.toNat_sub_of_le hok.1]
          have hsum := BitVec.toNat_add off n
          have hless' : (t.inodes ip).size.toNat < (off + n).toNat := hless
          omega
        · exact le_rfl
      have hread := keeps_readBlocks (s := s) ip
        (if (t.inodes ip).size < off + n then (t.inodes ip).size - off else n).toNat off.toNat
        (hzone.mono hcount)
      exact .bind (hread.at_state ht) fun _ ↦ .pure fun _ ↦ id

theorem keeps_acquirePage (i : Fin nPageCache) (spinning : Bool) :
    Keeps s.Taking (acquirePage i spinning) := by
  refine .get_bind fun t ht ↦ ?_
  split
  · exact .halt fun u hu ↦ hu ▸ ht
  · exact (keeps_setPage i (f := fun page ↦ { page with locked := true }) fun _ ↦ rfl).at_state ht

theorem keeps_getPage (ip : InodeRef) (offset : Word) :
    Keeps s.Taking (getPage ip offset) := by
  refine .get_bind fun t ht ↦ ?_
  dsimp only
  split
  · exact .bind ((keeps_acquirePage _ _).at_state ht) fun _ ↦ .pure fun _ ↦ id
  · split
    · have hzone (i : Fin nPageCache) : s.Writable (t.pagecache.pages i).page 4096 := by
        rw [ht.pages i]
        exact writable_cache s i
      refine .bind ((keeps_setTotalCount _).at_state ht) fun _ ↦ ?_
      refine .bind (keeps_acquirePage _ _) fun _ ↦ ?_
      refine .bind (keeps_setTotalCount _) fun _ ↦ ?_
      refine .bind (keeps_memset (hzone _) 0) fun _ ↦ ?_
      refine .bind (keeps_readi ip _ (hzone _)) fun n ↦ ?_
      split
      · exact .pure fun _ ↦ id
      · exact .bind (keeps_setPage _ fun _ ↦ rfl) fun _ ↦ .pure fun _ ↦ id
    · exact .halt fun u hu ↦ hu ▸ ht

theorem keeps_copyPage (ip : InodeRef) (offset : Word) (destOffset : Word)
    (hzone : s.Writable dst size.toNat) :
    Keeps s.Taking (copyPage ip offset dst size destOffset) := by
  refine .bind (keeps_getPage ip offset) fun found ↦ ?_
  cases found with
  | none => exact .pure fun _ ↦ id
  | some page =>
    refine .get_bind fun t ht ↦ ?_
    refine .bind ((keeps_memmove hzone _).at_state ht) fun _ ↦ ?_
    exact keeps_setPage page fun _ ↦ rfl

theorem keeps_fillPage (ip : InodeRef) (offset : Word) (hsize : size.toNat ≤ 4096)
    (hzone : s.Writable dst size.toNat) :
    Keeps s.Taking (fillPage ip (size.toNat + 1) dst offset 0 size) := by
  have hchunk := (fillChunk_le offset hsize).1
  refine fillPage_cases hsize (fun _ ht _ ↦ ht) (keeps_copyPage ip _ _ (hzone.mono hchunk))
    (fun _ _ ↦ id) fun _ ↦ keeps_copyPage ip _ _ ?_
  have hleft := BitVec.toNat_sub_of_le (BitVec.le_def.mpr hchunk)
  have hdrop := hzone.drop (k := (fillChunk offset size).toNat)
    (m := (size - fillChunk offset size).toNat) (by omega)
  rwa [BitVec.ofNat_toNat, BitVec.setWidth_eq] at hdrop

/-! ## Loading a page -/

section Load

variable {p : Fin N} {d va pa perm : Word}

theorem mapPage_taking :
    Triple s.Taking (mapPage d va pa perm) (fun _ ↦ s.Taking) fun _ ↦ s.Taking := by
  refine .of_forall fun t ht ↦ ?_
  refine (mapPage_run d va pa perm t).post ?_ ?_
  · intro mapped u hu
    cases mapped with
    | true =>
      obtain ⟨w, hwalked, _, rfl⟩ := hu
      exact (ht.trans (.of_grown (grown_of_walked hwalked))).congr rfl rfl fun _ ↦ rfl
    | false =>
      obtain ⟨_, rfl⟩ := hu
      exact ht
  · intro _ u hu
    exact ht.trans (.of_grown (grown_of_walked hu.1))

theorem kalloc_taking {α : Type} {k : Option Word → Kernel N α} {Q : α → Machine N → Prop}
    {E : Halt → Machine N → Prop} (hnone : Triple s.Taking (k none) Q E)
    (hsome : ∀ frame ∈ s.freelist, Triple s.Taking (k (some frame)) Q E) :
    Triple s.Taking (kalloc >>= k) Q E := by
  refine kalloc_rule (fun t ht _ ↦ hnone.at_state ht) fun t frame rest ht hfree ↦ ?_
  obtain ⟨htaking, hframe⟩ := ht.pop hfree
  exact (hsome frame hframe).at_state htaking

theorem mapPagecachePageUtil_taking (haligned : va.toNat % 4096 = 0) (f offset : Word)
    (hsize : size.toNat ≤ 4096) :
    Keeps s.Taking (mapPagecachePageUtil p f va perm offset size) := by
  refine kalloc_taking (.pure fun _ ↦ id) fun frame hframe ↦ ?_
  have hzone := writable_frame hframe
  refine .bind (keeps_memset hzone 0) fun _ ↦ ?_
  refine .get_bind fun t ht ↦ ?_
  refine .bind ((keeps_fillPage _ offset hsize (hzone.mono hsize)).at_state ht) fun _ ↦ ?_
  rw [mappages_page haligned]
  refine .bind mapPage_taking fun mapped ↦ ?_
  split
  · exact .pure fun _ ↦ id
  · exact .pure fun _ ↦ id

/-- A failing call may give its frame back. -/
theorem mapAnonPage_taking (haligned : va.toNat % 4096 = 0) :
    Triple s.Taking (mapAnonPage p va perm)
      (fun r t ↦ r.slt 0 = false → s.Taking t) fun _ _ ↦ True := by
  refine kalloc_taking (.pure nofun) fun frame hframe ↦ ?_
  refine (keeps_memset (writable_frame hframe) 0).seq (fun _ _ _ ↦ trivial) fun _ ↦ ?_
  refine .get_bind fun t ht ↦ ?_
  rw [mappages_page haligned]
  refine (mapPage_taking.at_state ht).seq (fun _ _ _ ↦ trivial) fun mapped ↦ ?_
  split
  · exact .pure fun _ ht _ ↦ ht
  · refine .bind .trivial fun _ ↦ ?_
    refine .bind .trivial fun _ ↦ ?_
    exact .pure nofun

/-- **`mmap_store_data` of at most one page** writes to frames that were free and to the page
cache only. -/
theorem mmapStoreData_taking (haligned : va.toNat % 4096 = 0)
    (hsize : size.count ≤ 4096) (flags perm f offset : Word) :
    Triple s.Taking (mmapStoreData p va size flags perm f offset)
      (fun r t ↦ r.slt 0 = false → s.Taking t) fun _ _ ↦ True :=
  mmapStoreData_cases hsize (fun _ _ _ ht _ ↦ ht) (fun _ ↦ mapAnonPage_taking haligned)
    (fun _ hnat ↦ (mapPagecachePageUtil_taking haligned f offset hnat).post
      (fun _ _ ht _ ↦ ht) fun _ _ _ ↦ trivial)
    (nofun) fun _ _ _ ht hpositive _ ↦ ht hpositive

end Load

end Kernel

end Xv6Mmap
