import Xv6Mmap.Machine.Frames

/-!
# The loops of `copy_maps`

`copy_maps` goes over the live regions of the parent and, for each of them, over its pages.  The
rules here take an invariant through both loops, so that a property of the copy has to be proved for
one page and for the copy of one table entry only.
-/

namespace Xv6Mmap

open Library Prog BitVec Function

variable {N : ℕ}

/-! ## The pages of a region -/

/-- Page `k` of a region that starts at `va`. -/
def pageAddr (va : Word) (k : ℕ) : Word := va + BitVec.ofNat 32 (4096 * k)

theorem pageAddr_succ (va : Word) (k : ℕ) : pageAddr va k + pgSize = pageAddr va (k + 1) := by
  rw [pageAddr, pageAddr, BitVec.add_assoc, show pgSize = 4096#32 from rfl,
    ← ofNat_add, Nat.mul_succ]

theorem toNat_pageAddr {va : Word} {k : ℕ} (h : va.toNat + 4096 * k < 2 ^ 32) :
    (pageAddr va k).toNat = va.toNat + 4096 * k := by
  rw [pageAddr, toNat_add, toNat_ofNat]
  omega

namespace Region

def pageCount (r : Region) : ℕ := (r.size.toNat + 4095) / 4096

variable {r : Region} {k : ℕ}

theorem Placed.pages_eq (h : r.Placed) : r.virtAddr.toNat + 4096 * r.pageCount = r.hi := by
  have haligned : r.virtAddr.toNat % 4096 = 0 := h.aligned
  rw [hi, pageCeil, pageCount]
  omega

theorem Placed.toNat_pageAddr (h : r.Placed) (hk : k < r.pageCount) :
    (pageAddr r.virtAddr k).toNat = r.virtAddr.toNat + 4096 * k := by
  have hpages := h.pages_eq
  have htop := h.hi_le
  exact Xv6Mmap.toNat_pageAddr (by omega)

theorem Placed.pageAddr_mod (h : r.Placed) (hk : k < r.pageCount) :
    (pageAddr r.virtAddr k).toNat % 4096 = 0 := by
  have haligned : r.virtAddr.toNat % 4096 = 0 := h.aligned
  rw [h.toNat_pageAddr hk]
  omega

theorem Placed.base_le_pageAddr (h : r.Placed) (hk : k < r.pageCount) :
    mmapBase ≤ pageAddr r.virtAddr k := by
  rw [le_def, h.toNat_pageAddr hk]
  exact Nat.le_add_right_of_le h.base_le

end Region

/-- The entry of the child after entry `i` of the parent has been copied to it. -/
def RegionTable.inheritEntry (child parent : RegionTable) (i : ℕ) (shared : Bool) : RegionTable :=
  let copied := child.set i ((child i).copyMmapStruct (parent i))
  if shared then copied.set i { copied i with refCount := 1 } else copied

theorem RegionTable.region_inheritEntry (child parent : RegionTable) (i : ℕ) (shared : Bool) (k : ℤ) :
    (child.inheritEntry parent i shared k).region =
      if k = i then (parent i).region else (child k).region := by
  rw [inheritEntry]
  dsimp only
  by_cases hk : k = i
  · rw [if_pos hk, hk]
    split
    · rw [set_self, set_self]
      rfl
    · rw [set_self]
      rfl
  · rw [if_neg hk]
    split
    · rw [set_of_ne _ _ hk, set_of_ne _ _ hk]
    · rw [set_of_ne _ _ hk]

namespace Kernel

section Loops

variable {p np : Fin N} {i n : ℕ} {isshared : Bool} {I : ℕ → Machine N → Prop}
  {L : Machine N → Prop} {E : Halt → Machine N → Prop}

/-- The loop over the pages of a region, with an invariant for the pages done; `L` holds where a page
could not be copied. -/
theorem copyRegionPages_rule {r : MmapRegion} (hplaced : r.region.Placed)
    (hpage : ∀ k < r.region.pageCount, Triple (I k)
      (if isshared then sharePage p np i (pageAddr r.virtAddr k)
        else copyPrivatePage p np i (pageAddr r.virtAddr k))
      (fun copied t ↦ bif copied then I (k + 1) t else L t) E) :
    Triple (I 0)
      (copyRegionPages p np i isshared (r.virtAddr + r.size)
        (((r.virtAddr + r.size).toNat - r.virtAddr.toNat) / 4096 + 1) r.virtAddr)
      (fun copied t ↦ bif copied then I r.region.pageCount t else L t) E := by
  have hend : (r.virtAddr + r.size).toNat = r.virtAddr.toNat + r.size.toNat :=
    hplaced.within.toNat_end
  have hpages : r.virtAddr.toNat + 4096 * r.region.pageCount = r.region.hi := hplaced.pages_eq
  have hcount : r.region.pageCount = (r.size.toNat + 4095) / 4096 := rfl
  have htop := hplaced.hi_le
  -- the induction is on the pages left; the counter never runs out before they do
  have hloop (m fuel k : ℕ) (hk : k + m = r.region.pageCount) (hfuel : m ≤ fuel) : Triple (I k)
      (copyRegionPages p np i isshared (r.virtAddr + r.size) fuel (pageAddr r.virtAddr k))
      (fun copied t ↦ bif copied then I r.region.pageCount t else L t) E := by
    have haddr : (pageAddr r.virtAddr k).toNat = r.virtAddr.toNat + 4096 * k :=
      toNat_pageAddr (by omega)
    induction m generalizing fuel k with
    | zero =>
      have hdone : ¬ pageAddr r.virtAddr k < r.virtAddr + r.size := by
        rw [lt_def]
        omega
      obtain rfl : k = r.region.pageCount := by omega
      cases fuel with
      | zero | succ fuel =>
        rw [copyRegionPages, if_neg hdone]
        exact .pure fun t ht ↦ ht
    | succ m ih =>
      obtain ⟨fuel, rfl⟩ : ∃ f, fuel = f + 1 := ⟨fuel - 1, by omega⟩
      have hleft : pageAddr r.virtAddr k < r.virtAddr + r.size := by
        rw [lt_def]
        omega
      rw [copyRegionPages, if_pos hleft]
      refine .bind (hpage k (by omega)) fun copied ↦ ?_
      cases copied with
      | true =>
        rw [if_pos rfl, pageAddr_succ]
        exact ih fuel (k + 1) (by omega) (by omega) (toNat_pageAddr (by omega))
      | false => exact .pure fun t ht ↦ ht
  have hrun := hloop r.region.pageCount
    (((r.virtAddr + r.size).toNat - r.virtAddr.toNat) / 4096 + 1) 0 (Nat.zero_add _) (by omega)
  rw [show pageAddr r.virtAddr 0 = r.virtAddr from BitVec.add_zero _] at hrun
  exact hrun

/-- The loop over the regions of the parent.  `J i` holds before region `i` and `K i` after its
pages; `L` holds where a page could not be copied. -/
theorem copyRegions_rule {J K : ℕ → Machine N → Prop}
    (hpages : ∀ j, i ≤ j → j < i + n → ∀ s, J j s →
      Triple (· = s)
        (copyRegionPages p np j (((s.procs p).mmaps j).flags.has mapShared)
          (((s.procs p).mmaps j).virtAddr + ((s.procs p).mmaps j).size)
          (((((s.procs p).mmaps j).virtAddr + ((s.procs p).mmaps j).size).toNat -
            ((s.procs p).mmaps j).virtAddr.toNat) / 4096 + 1) ((s.procs p).mmaps j).virtAddr)
        (fun copied t ↦ bif copied then K j t else L t) E)
    (hinherit : ∀ j s t, J j s → K j t → J (j + 1) { t with
      procs := update t.procs np { t.procs np with
        mmaps := (t.procs np).mmaps.inheritEntry (t.procs p).mmaps j
          (((s.procs p).mmaps j).flags.has mapShared) } }) :
    Triple (J i) (copyRegions p np i n) (fun copied t ↦ bif copied then J (i + n) t else L t) E := by
  induction n generalizing i with
  | zero => exact .pure fun t ht ↦ ht
  | succ n ih =>
    have hrest := ih (i := i + 1) fun j hj hlt ↦ hpages j (by omega) (by omega)
    rw [show i + 1 + n = i + (n + 1) by omega] at hrest
    refine .get_bind fun s hs ↦ ?_
    refine .bind (hpages i le_rfl (by omega) s hs) fun copied ↦ ?_
    cases copied with
    | false => exact .pure fun t ht ↦ ht
    | true =>
      rw [if_pos rfl]
      refine .get_bind fun t ht ↦ ?_
      have hdone := hinherit i s t hs ht
      simp only [RegionTable.inheritEntry] at hdone
      refine .modify_bind fun u hu ↦ ?_
      subst hu
      split
      · rename_i hshared
        refine .modify_bind fun w hw ↦ ?_
        subst hw
        rw [if_pos hshared] at hdone
        simp only [update_self, update_idem]
        exact hrest.at_state hdone
      · rename_i hshared
        rw [if_neg hshared] at hdone
        exact hrest.at_state hdone

/-- Both loops, with an invariant `I i k` for the first `k` pages of region `i` and all pages of the
regions below; `T` is the parent's table, whose regions stay as they are. -/
theorem copyRegions_pages {T : RegionTable} (hwell : T.WellFormed) {I : ℕ → ℕ → Machine N → Prop}
    (hregion : ∀ i k t, I i k t → ∀ j : ℕ, ((t.procs p).mmaps j).region = (T j).region)
    (hpage : ∀ i k, i < T.total.toNat → k < (T i).region.pageCount →
      Triple (I i k)
        (if (T i).flags.has mapShared then sharePage p np i (pageAddr (T i).virtAddr k)
          else copyPrivatePage p np i (pageAddr (T i).virtAddr k))
        (fun copied t ↦ bif copied then I i (k + 1) t else L t) E)
    (hnext : ∀ i t, i < T.total.toNat → I i (T i).region.pageCount t → I (i + 1) 0 t)
    (htable : ∀ i t table, I i 0 t → I i 0
      { t with procs := update t.procs np { t.procs np with mmaps := table } }) :
    Triple (I 0 0) (copyRegions p np 0 T.total.toNat)
      (fun copied t ↦ bif copied then I T.total.toNat 0 t else L t) E := by
  suffices hloop : Triple (I 0 0) (copyRegions p np 0 T.total.toNat)
      (fun copied t ↦ bif copied then I (0 + T.total.toNat) 0 t else L t) E by
    rwa [Nat.zero_add] at hloop
  refine copyRegions_rule (J := fun i ↦ I i 0)
    (K := fun i t ↦ i < T.total.toNat ∧ I i (T i).region.pageCount t) ?_
    fun i _ t _ ht ↦ htable _ _ _ (hnext i t ht.1 ht.2)
  intro i _ hi s hs
  rw [Nat.zero_add] at hi
  have hsame := hregion i 0 s hs i
  have hflags : ((s.procs p).mmaps i).flags = (T i).flags := congrArg Region.flags hsame
  have hva : ((s.procs p).mmaps i).virtAddr = (T i).virtAddr := congrArg Region.virtAddr hsame
  have hsize : ((s.procs p).mmaps i).size = (T i).size := congrArg Region.size hsame
  rw [hflags, hva, hsize]
  refine ((copyRegionPages_rule (hwell.placed_at hi) fun k hk ↦ hpage i k hi hk).post ?_
    fun _ _ ↦ id).at_state hs
  intro copied t ht
  cases copied with
  | true => exact ⟨hi, ht⟩
  | false => exact ht

end Loops

end Kernel

end Xv6Mmap
