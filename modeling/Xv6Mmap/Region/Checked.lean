import Xv6Mmap.Library.Prog
import Xv6Mmap.Region.Bounds

/-!
# Index checks on the region table

`my_mmap`, `my_munmap` and the functions they call, over a table whose accesses are checked: an
access `p->mmaps[k]` with `k` outside the 30 entries ends the run with `k`.  Where the indices of a
function stay inside the array, the checked function computes what the unchecked one does.
-/

namespace Xv6Mmap

/-- A run over the region table that ends at an access outside the array, with its index. -/
abbrev Checked (α : Type) := Library.Prog ℤ RegionTable α

variable {i : ℤ}

namespace Checked

open Library.Prog RegionTable

/-- A read of `p->mmaps[k]`. -/
@[irreducible]
def read (k : ℤ) : Checked MmapRegion := do
  let t ← get
  if 0 ≤ k ∧ k < 30 then return t k else halt k

/-- A write to `p->mmaps[k]`. -/
@[irreducible]
def update (k : ℤ) (f : MmapRegion → MmapRegion) : Checked Unit :=
  if 0 ≤ k ∧ k < 30 then modify fun t ↦ t.set k (f (t k)) else halt k

def copyEntry (dst src : ℤ) : Checked Unit := do
  let mr ← read src
  update dst fun old ↦ old.copyMmapStruct mr

def shiftRight (j : ℤ) : ℕ → Checked Unit
  | 0 => return ()
  | n + 1 => do
    copyEntry j (j - 1)
    shiftRight (j - 1) n

def setupMmapArr (size : Word) (i : ℤ) (mmapaddr : Word) : Checked ℤ := do
  let t ← get
  shiftRight t.total (t.total - (i + 1)).toNat
  if kernBase ≤ pgRoundUp (mmapaddr + size) then return -1
  else
    update (i + 1) fun mr ↦ { mr with virtAddr := mmapaddr, size := size }
    return i + 1

def checkGaps (mmapAddr size : Word) (i : ℕ) : ℕ → Checked ℤ
  | 0 => return -1
  | n + 1 => do
    let mr ← read i
    if mmapAddr ≤ mr.virtAddr then return -1
    else
      let startAddr := pgRoundUp (mr.virtAddr + mr.size)
      let next ← read (i + 1)
      let endAddr := pgRoundUp next.virtAddr
      if startAddr < mmapAddr ∧ mmapAddr + size < endAddr then setupMmapArr size i mmapAddr
      else checkGaps mmapAddr size (i + 1) n

def checkMmapPossible (addr size : Word) : Checked ℤ := do
  let mmapAddr := pgRoundUp addr
  let t ← get
  let last ← read (t.total - 1)
  if pgRoundUp (last.virtAddr + last.size) < mmapAddr then
    setupMmapArr size (t.total - 1) mmapAddr
  else checkGaps mmapAddr size 0 (t.total - 1).toNat

def findGap (size : Word) (i : ℕ) : ℕ → Checked ℕ
  | 0 => return i
  | n + 1 => do
    let next ← read (i + 1)
    if next.virtAddr = 0 then return i
    else
      let mr ← read i
      let startAddr := pgRoundUp (mr.virtAddr + mr.size)
      let endAddr := pgRoundUp next.virtAddr
      if size < endAddr - startAddr then return i else findGap size (i + 1) n

def findMmapAddr (size : Word) : Checked ℤ := do
  let t ← get
  if t.totalMmaps = 0 then
    if kernBase ≤ pgRoundUp (mmapBase + size) then return -1
    else
      update 0 fun mr ↦ { mr with virtAddr := pgRoundUp mmapBase, size := size }
      return 0
  else
    let first ← read 0
    if size < first.virtAddr - mmapBase then setupMmapArr size (-1) mmapBase
    else
      let i ← findGap size 0 t.total.toNat
      let mr ← read i
      let mmapaddr := pgRoundUp (mr.virtAddr + mr.size)
      if kernBase < mmapaddr + size then return -1 else setupMmapArr size i mmapaddr

def chooseSlot (a : MmapArgs) : Checked (Option ℤ) := do
  if a.flags.has mapFixed then
    if a.addr = 0 then return some (-1)
    else if a.addr.slt mmapBase || kernBase < a.roundedAddr || a.addr.srem pgSize != 0 then
      return none
    else
      let i ← checkMmapPossible a.addr a.size
      if i = -1 then return none else return some i
  else if a.addr = 0 then
    let i ← findMmapAddr a.size
    if i = -1 then return none else return some i
  else if a.addr.slt mmapBase || kernBase < a.roundedAddr then return none
  else
    let i ← checkMmapPossible a.addr a.size
    if i = -1 then
      let i ← findMmapAddr a.size
      if i = -1 then return none else return some i
    else return some i

def fillEntry (i : ℤ) (a : MmapArgs) : Checked Unit := do
  update i fun mr ↦
    { mr with flags := a.flags, protection := a.stored, offset := a.offset, f := a.f }
  modify fun t ↦ t.setTotal (t.totalMmaps + 1)

def myMmap (a : MmapArgs) : Checked Word := do
  let t ← get
  if !a.valid then return -1
  else if t.totalMmaps = 30 then return -1
  else
    match ← chooseSlot a with
    | none => return -1
    | some i =>
      fillEntry i a
      let mr ← read i
      return mr.virtAddr

/-- The lookup of `my_munmap` from index `i` on, with `n` entries left. -/
def findFrom (mainaddr : Word) (i : ℕ) : ℕ → Checked (Option ℕ)
  | 0 => return none
  | n + 1 => do
    let mr ← read i
    if mr.virtAddr = mainaddr then return some i else findFrom mainaddr (i + 1) n

def findEntry (mainaddr : Word) : Checked (Option ℕ) := findFrom mainaddr 0 30

def shiftLeft (i : ℕ) : ℕ → Checked Unit
  | 0 => return ()
  | n + 1 => do
    let next ← read (i + 1)
    if next.virtAddr = 0 then return ()
    else
      copyEntry i (i + 1)
      shiftLeft (i + 1) n

def dropEntry (i : ℕ) (unmappingSize : Word) : Checked Unit := do
  let mr ← read i
  if mr.size ≤ unmappingSize then
    update i MmapRegion.zeroMmapRegionStruct
    shiftLeft i (30 - i)
    modify fun t ↦ t.setTotal (t.totalMmaps - 1)
  else
    update i fun mr ↦
      { mr with virtAddr := mr.virtAddr + unmappingSize, size := mr.size - unmappingSize }

/-! ## Runs that stay inside the array -/

variable {t t' : RegionTable} {a : MmapArgs} {size : Word} {α : Type}

theorem read_apply {k : ℤ} (h : 0 ≤ k ∧ k < 30) : read k t = (.ok (t k), t) := by
  rw [read, bind_of_ok (get_apply t), if_pos h]
  rfl

theorem update_apply {k : ℤ} (f : MmapRegion → MmapRegion) (h : 0 ≤ k ∧ k < 30) :
    update k f t = (.ok (), t.set k (f (t k))) := by
  rw [update, if_pos h]
  rfl

theorem copyEntry_apply {dst src : ℤ} (hdst : 0 ≤ dst ∧ dst < 30) (hsrc : 0 ≤ src ∧ src < 30) :
    copyEntry dst src t = (.ok (), t.copyEntry dst src) := by
  rw [copyEntry, bind_of_ok (read_apply hsrc), update_apply _ hdst]
  rfl

theorem shiftRight_apply {j : ℤ} {n : ℕ} (h : n = 0 ∨ n ≤ j ∧ j < 30) :
    shiftRight j n t = (.ok (), t.shiftRight j n) := by
  induction n generalizing t j with
  | zero => rfl
  | succ n ih =>
    rw [shiftRight, bind_of_ok (copyEntry_apply (by omega) (by omega)), ih (by omega)]
    rfl

/-- The checked run computes what the model does, and leaves the last entry of the array and the
count alone; an index it returns is below the last one. -/
structure Inside (t : RegionTable) (c : Checked ℤ) (model : RegionTable × ℤ) : Prop where
  agrees : c t = (.ok model.2, model.1)
  last : model.1 29 = t 29
  count : model.1 30 = t 30
  index : -1 ≤ model.2 ∧ model.2 < 29

theorem inside_pure : Inside t (pure (-1)) (t, -1) :=
  ⟨rfl, rfl, rfl, le_rfl, show (-1 : ℤ) < 29 by decide⟩

theorem Inside.of_eq {c c' : Checked ℤ} {model : RegionTable × ℤ} (h : Inside t c model)
    (heq : c' t = c t) : Inside t c' model :=
  ⟨heq.trans h.agrees, h.last, h.count, h.index⟩

/-- An insertion below the last entry moves no entry from there on. -/
theorem setupMmapArr_later {k : ℤ} (mmapaddr : Word) (hi : i < 28) (htotal : t.total ≤ 28)
    (hk : 28 < k) : (t.setupMmapArr size i mmapaddr).1 k = t k := by
  have hlater : t.shiftRight t.total (t.total - (i + 1)).toNat k = t k :=
    shiftRight_of_lt _ _ _ (htotal.trans_lt hk)
  rw [RegionTable.setupMmapArr]
  dsimp only
  split
  · exact hlater
  · exact (RegionTable.set_of_ne _ _ (by omega)).trans hlater

theorem inside_setupMmapArr (mmapaddr : Word) (hi : -1 ≤ i ∧ i < 28) (htotal : t.total ≤ 28) :
    Inside t (setupMmapArr size i mmapaddr) (t.setupMmapArr size i mmapaddr) := by
  refine ⟨?_, setupMmapArr_later mmapaddr hi.2 htotal (by decide),
    setupMmapArr_later mmapaddr hi.2 htotal (by decide), ?_⟩
  · rw [setupMmapArr, bind_of_ok (get_apply t), bind_of_ok (shiftRight_apply (by omega)),
      RegionTable.setupMmapArr]
    dsimp only
    split
    · rfl
    · rw [bind_of_ok (update_apply _ (by omega))]
      rfl
  · rw [RegionTable.setupMmapArr]
    dsimp only
    split
    · exact ⟨le_rfl, show (-1 : ℤ) < 29 by decide⟩
    · exact ⟨show -1 ≤ i + 1 by omega, show i + 1 < 29 by omega⟩

theorem inside_checkGaps (mmapAddr : Word) (htotal : t.total ≤ 28) (i n : ℕ)
    (hn : n = 0 ∨ i + n ≤ 28) :
    Inside t (checkGaps mmapAddr size i n) (t.checkGaps mmapAddr size i n) := by
  induction n generalizing i with
  | zero => exact inside_pure
  | succ n ih =>
    have hread : read i t = (.ok (t i), t) := read_apply (by omega)
    have hnext : read (i + 1) t = (.ok (t (i + 1)), t) := read_apply (by omega)
    rw [RegionTable.checkGaps]
    by_cases hpassed : mmapAddr ≤ (t i).virtAddr
    · rw [if_pos hpassed]
      apply inside_pure.of_eq
      rw [checkGaps, bind_of_ok hread, if_pos hpassed]
    · rw [if_neg hpassed]
      dsimp only
      split
      · rename_i hgap
        apply (inside_setupMmapArr mmapAddr (by omega) htotal).of_eq
        rw [checkGaps, bind_of_ok hread, if_neg hpassed]
        dsimp only
        rw [bind_of_ok hnext, if_pos hgap]
      · rename_i hgap
        apply (ih (i + 1) (by omega)).of_eq
        rw [checkGaps, bind_of_ok hread, if_neg hpassed]
        dsimp only
        rw [bind_of_ok hnext, if_neg hgap]

theorem inside_checkMmapPossible (addr : Word) (hlive : 0 < t.total) (htotal : t.total ≤ 28) :
    Inside t (checkMmapPossible addr size) (t.checkMmapPossible addr size) := by
  have hread : read (t.total - 1) t = (.ok (t (t.total - 1)), t) := read_apply (by omega)
  rw [RegionTable.checkMmapPossible]
  split
  · rename_i hlast
    apply (inside_setupMmapArr (pgRoundUp addr) (by omega) htotal).of_eq
    rw [checkMmapPossible, bind_of_ok (get_apply t), bind_of_ok hread, if_pos hlast]
  · rename_i hlast
    apply (inside_checkGaps (pgRoundUp addr) htotal 0 (t.total - 1).toNat (by omega)).of_eq
    rw [checkMmapPossible, bind_of_ok (get_apply t), bind_of_ok hread, if_neg hlast]

theorem findGap_apply (i n : ℕ) (h : i + n < 30) :
    findGap size i n t = (.ok (t.findGap size i n), t) := by
  induction n generalizing i with
  | zero => rfl
  | succ n ih =>
    have hread : read i t = (.ok (t i), t) := read_apply (by omega)
    have hnext : read (i + 1) t = (.ok (t (i + 1)), t) := read_apply (by omega)
    rw [findGap, bind_of_ok hnext, RegionTable.findGap]
    split
    · rfl
    · rw [bind_of_ok hread]
      dsimp only
      split
      · rfl
      · exact ih (i + 1) (by omega)

theorem findGap_le (t : RegionTable) (size : Word) (i n : ℕ) : t.findGap size i n ≤ i + n := by
  induction n generalizing i with
  | zero => rfl
  | succ n ih =>
    have hrest := ih (i + 1)
    rw [RegionTable.findGap]
    dsimp only
    split
    · omega
    · split <;> omega

/-- The search stops where `setup_mmap_arr` still writes below the last entry of the array. -/
theorem findGap_lt (htotal : t.total ≤ 28) (hlive : t.totalMmaps ≠ 0)
    (hfront : ¬ size < (t 0).virtAddr - mmapBase)
    (hroom : t.total < 28 ∨ t.SearchEndsInside size) : t.findGap size 0 t.total.toNat < 28 := by
  have hle := findGap_le t size 0 t.total.toNat
  rcases hroom with hroom | hempty | hgap | ⟨i, hi, hstops⟩
  · omega
  · exact absurd ((total_eq_zero_iff t).mpr hempty) hlive
  · exact absurd hgap hfront
  · have hstop := findGap_stopsAt t size 0 t.total.toNat
      ⟨i, Nat.zero_le i, by omega, hstops⟩
    omega

theorem inside_findMmapAddr (htotal : t.total ≤ 28)
    (hroom : t.total < 28 ∨ t.SearchEndsInside size) :
    Inside t (findMmapAddr size) (t.findMmapAddr size) := by
  rw [RegionTable.findMmapAddr]
  by_cases hempty : t.totalMmaps = 0
  · rw [if_pos hempty]
    split
    · rename_i hpast
      apply inside_pure.of_eq
      rw [findMmapAddr, bind_of_ok (get_apply t), if_pos hempty, if_pos hpast]
    · rename_i hpast
      refine ⟨?_, ?_, ?_, show (-1 : ℤ) ≤ 0 by decide, show (0 : ℤ) < 29 by decide⟩
      · have hupdate := update_apply (t := t) (k := 0)
          (fun mr ↦ { mr with virtAddr := pgRoundUp mmapBase, size := size }) (by decide)
        rw [findMmapAddr, bind_of_ok (get_apply t), if_pos hempty, if_neg hpast,
          bind_of_ok hupdate]
        rfl
      · dsimp only
        rw [RegionTable.set_of_ne _ _ (by decide)]
      · dsimp only
        rw [RegionTable.set_of_ne _ _ (by decide)]
  · have hfirst : read 0 t = (.ok (t 0), t) := read_apply (by decide)
    rw [if_neg hempty]
    by_cases hfront : size < (t 0).virtAddr - mmapBase
    · rw [if_pos hfront]
      apply (inside_setupMmapArr mmapBase (by decide) htotal).of_eq
      rw [findMmapAddr, bind_of_ok (get_apply t), if_neg hempty, bind_of_ok hfirst, if_pos hfront]
    · have hgap := findGap_lt htotal hempty hfront hroom
      have hfound : findGap size 0 t.total.toNat t = (.ok (t.findGap size 0 t.total.toNat), t) :=
        findGap_apply 0 t.total.toNat (by omega)
      rw [if_neg hfront]
      generalize t.findGap size 0 t.total.toNat = i at hgap hfound
      have hread : read i t = (.ok (t i), t) := read_apply (by omega)
      dsimp only
      split
      · rename_i hpast
        apply inside_pure.of_eq
        rw [findMmapAddr, bind_of_ok (get_apply t), if_neg hempty, bind_of_ok hfirst,
          if_neg hfront, bind_of_ok hfound, bind_of_ok hread, if_pos hpast]
      · rename_i hpast
        apply (inside_setupMmapArr _ (by omega) htotal).of_eq
        rw [findMmapAddr, bind_of_ok (get_apply t), if_neg hempty, bind_of_ok hfirst,
          if_neg hfront, bind_of_ok hfound, bind_of_ok hread, if_neg hpast]

end Checked

/-! ## `my_mmap` -/

namespace MmapArgs

/-- `my_mmap` asks `check_mmap_possible` for a place at the address. -/
def Checks (a : MmapArgs) : Prop :=
  a.addr ≠ 0 ∧ a.HintAccepted ∧ (a.flags.has mapFixed = true → a.addr.srem pgSize = 0)

instance (a : MmapArgs) : Decidable a.Checks := inferInstanceAs (Decidable (_ ∧ _ ∧ _))

/-- The table that `find_mmap_addr` is called with, if it is. -/
def searched (a : MmapArgs) (t : RegionTable) : RegionTable :=
  if a.addr = 0 then t else (t.checkMmapPossible a.addr a.size).1

/-- The calls on table `t` whose accesses are inside the array, and which leave the last entry of
the array free: not a null address under `MAP_FIXED`, no other address on an empty table, and no
mapping that would take the last entry. -/
@[mk_iff]
structure StaysInArray (a : MmapArgs) (t : RegionTable) : Prop where
  not_fixed_null : ¬ (a.flags.has mapFixed = true ∧ a.addr = 0)
  live : a.Checks → 0 < t.total
  room : t.total < 28 ∨ t.total = 28 ∧ (a.flags.has mapFixed = false →
    a.addr = 0 ∨ (t.checkMmapPossible a.addr a.size).2 = -1 →
      (a.searched t).SearchEndsInside a.size)

instance (a : MmapArgs) (t : RegionTable) : Decidable (a.StaysInArray t) :=
  decidable_of_iff _ (staysInArray_iff a t).symm

end MmapArgs

namespace Checked

open Library.Prog

variable {t t' : RegionTable} {a : MmapArgs} {model : RegionTable × Option ℤ}

/-- `Inside` for the choice of a slot. -/
structure Chosen (t : RegionTable) (c : Checked (Option ℤ)) (model : RegionTable × Option ℤ) :
    Prop where
  agrees : c t = (.ok model.2, model.1)
  last : model.1 29 = t 29
  count : model.1 30 = t 30
  index : ∀ i ∈ model.2, 0 ≤ i ∧ i < 29

theorem chosen_none : Chosen t (pure none) (t, none) :=
  ⟨rfl, rfl, rfl, by simp⟩

theorem Chosen.of_eq {c c' : Checked (Option ℤ)}
    (h : Chosen t c model) (heq : c' t = c t) : Chosen t c' model :=
  ⟨heq.trans h.agrees, h.last, h.count, h.index⟩

theorem Inside.chosen {c : Checked ℤ} {model : RegionTable × ℤ} (h : Inside t c model) :
    Chosen t (do let i ← c; if i = -1 then return none else return some i)
      (if model.2 = -1 then (model.1, none) else (model.1, some model.2)) := by
  have hindex := h.index
  by_cases hfail : model.2 = -1
  · rw [if_pos hfail]
    refine ⟨?_, h.last, h.count, by simp⟩
    rw [bind_of_ok h.agrees, if_pos hfail]
    rfl
  · rw [if_neg hfail]
    refine ⟨?_, h.last, h.count, ?_⟩
    · rw [bind_of_ok h.agrees, if_neg hfail]
      rfl
    · grind

/-- A step that leaves the last entry and the count alone, before the choice of a slot. -/
theorem Chosen.after {α : Type} {c : Checked α} {v : α} {f : α → Checked (Option ℤ)}
    (hc : c t = (.ok v, t')) (hlast : t' 29 = t 29)
    (hcount : t' 30 = t 30) (h : Chosen t' (f v) model) : Chosen t (c >>= f) model :=
  ⟨(bind_of_ok hc).trans h.agrees, h.last.trans hlast, h.count.trans hcount, h.index⟩

theorem chosen_chooseSlot (h : a.StaysInArray t) :
    Chosen t (chooseSlot a) (t.chooseSlot a) := by
  have htotal : t.total ≤ 28 := by
    have hroom := h.room
    omega
  rw [RegionTable.chooseSlot]
  by_cases hfixed : a.flags.has mapFixed = true
  · have hnull : a.addr ≠ 0 := fun hnull ↦ h.not_fixed_null ⟨hfixed, hnull⟩
    rw [if_pos hfixed, if_neg hnull]
    split
    · rename_i hrange
      apply chosen_none.of_eq
      rw [chooseSlot, if_pos hfixed, if_neg hnull, if_pos hrange]
    · rename_i hrange
      have hlive : 0 < t.total := by
        simp only [Bool.or_eq_true, not_or, Bool.not_eq_true, decide_eq_true_eq] at hrange
        refine h.live ⟨hnull, ⟨hrange.1.1, ?_⟩, fun _ ↦ by simpa using hrange.2⟩
        simpa using hrange.1.2
      apply (inside_checkMmapPossible a.addr hlive htotal).chosen.of_eq
      rw [chooseSlot, if_pos hfixed, if_neg hnull, if_neg hrange]
  · have hfree : a.flags.has mapFixed = false := Bool.not_eq_true _ ▸ hfixed
    rw [if_neg hfixed]
    by_cases hnull : a.addr = 0
    · have hroom : t.total < 28 ∨ t.SearchEndsInside a.size := by
        refine h.room.imp_right fun hfull ↦ ?_
        have hsearch := hfull.2 hfree (.inl hnull)
        rwa [MmapArgs.searched, if_pos hnull] at hsearch
      rw [if_pos hnull]
      apply (inside_findMmapAddr htotal hroom).chosen.of_eq
      rw [chooseSlot, if_neg hfixed, if_pos hnull]
    · rw [if_neg hnull]
      split
      · rename_i hrange
        apply chosen_none.of_eq
        rw [chooseSlot, if_neg hfixed, if_neg hnull, if_pos hrange]
      · rename_i hrange
        have hlive : 0 < t.total := by
          simp only [Bool.or_eq_true, not_or, Bool.not_eq_true, decide_eq_true_eq] at hrange
          refine h.live ⟨hnull, ⟨hrange.1, by simpa using hrange.2⟩, fun h ↦ absurd h hfixed⟩
        have hcheck : Inside t (checkMmapPossible a.addr a.size)
            (t.checkMmapPossible a.addr a.size) :=
          inside_checkMmapPossible a.addr hlive htotal
        have hsearch := fun hfail hfull ↦ (h.room.resolve_left hfull).2 hfree (.inr hfail)
        rw [MmapArgs.searched, if_neg hnull] at hsearch
        have heq : chooseSlot a t = (checkMmapPossible a.addr a.size >>= fun i ↦
            if i = -1 then (do
              let i ← findMmapAddr a.size
              if i = -1 then return none else return some i)
            else return some i) t := by
          rw [chooseSlot, if_neg hfixed, if_neg hnull, if_neg hrange]
        refine .of_eq (.after hcheck.agrees hcheck.last hcheck.count ?_) heq
        have hindex := hcheck.index
        have htotal' : (t.checkMmapPossible a.addr a.size).1.total = t.total :=
          congrArg (fun mr : MmapRegion ↦ mr.virtAddr.toInt) hcheck.count
        generalize t.checkMmapPossible a.addr a.size = outcome at hindex htotal' hsearch ⊢
        obtain ⟨t', i⟩ := outcome
        dsimp only at hindex htotal' hsearch ⊢
        by_cases hfail : i = -1
        · rw [if_pos hfail, if_pos hfail]
          apply (inside_findMmapAddr (by omega) ?_).chosen
          rw [htotal']
          by_cases hfull : t.total < 28
          · exact .inl hfull
          · exact .inr (hsearch hfail hfull)
        · rw [if_neg hfail, if_neg hfail]
          refine ⟨rfl, rfl, rfl, ?_⟩
          intro j hj
          obtain rfl : i = j := Option.some_inj.mp hj
          exact ⟨by omega, hindex.2⟩

/-- The last entry of the array is free, and the count leaves it free. -/
structure Slack (t : RegionTable) : Prop where
  virtAddr_eq : (t 29).virtAddr = 0
  size_eq : (t 29).size = 0
  total_le : t.total ≤ 29

theorem fillEntry_apply (hi : 0 ≤ i ∧ i < 29) :
    fillEntry i a t = (.ok (), t.fillEntry i a) := by
  rw [fillEntry, bind_of_ok (update_apply _ (by omega))]
  rfl

theorem Slack.fillEntry (h : Slack t) (hi : 0 ≤ i ∧ i < 29) (hroom : t.total ≤ 28) :
    Slack (t.fillEntry i a) := by
  have hlast : t.fillEntry i a 29 = t 29 := by
    unfold RegionTable.fillEntry RegionTable.setTotal
    dsimp only
    rw [RegionTable.set_of_ne _ _ (by decide), RegionTable.set_of_ne _ _ (by omega)]
  have htotal : (t.fillEntry i a).total = t.total + 1 := by
    unfold RegionTable.fillEntry RegionTable.setTotal RegionTable.total RegionTable.totalMmaps
    dsimp only
    rw [RegionTable.set_self, RegionTable.set_of_ne _ _ (by omega)]
    exact toInt_add_one (by rw [RegionTable.total, RegionTable.totalMmaps] at hroom; omega)
  exact ⟨hlast ▸ h.virtAddr_eq, hlast ▸ h.size_eq, by omega⟩

/-- `my_mmap` stays inside the array and leaves the last entry free. -/
theorem myMmap_apply (hslack : Slack t) (h : a.valid = true → a.StaysInArray t) :
    myMmap a t = (.ok (t.myMmap a).2, (t.myMmap a).1) ∧ Slack (t.myMmap a).1 := by
  rw [myMmap, bind_of_ok (get_apply t), RegionTable.myMmap]
  by_cases hvalid : a.valid = true
  · have hstays := h hvalid
    have hroom : t.total ≤ 28 := by
      have hroom := hstays.room
      omega
    have hfull : t.totalMmaps ≠ 30 := by
      intro hfull
      rw [RegionTable.total, hfull] at hroom
      exact absurd hroom (by decide)
    rw [if_neg (by simpa using hvalid), if_neg hfull, if_neg (by simpa using hvalid), if_neg hfull]
    have hchosen := chosen_chooseSlot hstays
    have hkept : Slack (t.chooseSlot a).1 ∧ (t.chooseSlot a).1.total ≤ 28 := by
      have htotal : (t.chooseSlot a).1.total = t.total :=
        congrArg (fun mr : MmapRegion ↦ mr.virtAddr.toInt) hchosen.count
      exact ⟨⟨hchosen.last ▸ hslack.virtAddr_eq, hchosen.last ▸ hslack.size_eq, by omega⟩,
        by omega⟩
    rw [bind_of_ok hchosen.agrees]
    have hindex := hchosen.index
    generalize t.chooseSlot a = outcome at hkept hindex ⊢
    obtain ⟨t', slot⟩ := outcome
    cases slot with
    | none => exact ⟨rfl, hkept.1⟩
    | some i =>
      have hi : 0 ≤ i ∧ i < 29 := hindex i rfl
      dsimp only
      rw [bind_of_ok (fillEntry_apply hi), bind_of_ok (read_apply (by omega))]
      exact ⟨rfl, hkept.1.fillEntry hi hkept.2⟩
  · rw [if_pos (by simpa using hvalid), if_pos (by simpa using hvalid)]
    exact ⟨rfl, hslack⟩

/-! ## `my_munmap` -/

theorem findFrom_apply (mainaddr : Word) (i n : ℕ) (h : i + n ≤ 30) :
    findFrom mainaddr i n t =
      (.ok ((List.range' i n).find? fun j : ℕ ↦ (t j).virtAddr == mainaddr), t) := by
  induction n generalizing i with
  | zero => rfl
  | succ n ih =>
    have hread : read i t = (.ok (t i), t) := read_apply (by omega)
    rw [findFrom, bind_of_ok hread, List.range'_succ, List.find?_cons]
    by_cases hfound : (t i).virtAddr = mainaddr
    · simp [hfound]
    · rw [if_neg hfound, ih (i + 1) (by omega), beq_false_of_ne hfound]

theorem findEntry_apply (mainaddr : Word) :
    findEntry mainaddr t = (.ok (t.findEntry mainaddr), t) := by
  rw [findEntry, findFrom_apply mainaddr 0 30 le_rfl, RegionTable.findEntry,
    List.range_eq_range']

/-- The left shift stops at the free last entry at the latest. -/
theorem shiftLeft_apply (i n : ℕ) (hi : i < 29) (hn : i + n = 30) (hfree : (t 29).virtAddr = 0) :
    shiftLeft i n t = (.ok (), t.shiftLeft i n) ∧
      t.shiftLeft i n 29 = t 29 ∧ t.shiftLeft i n 30 = t 30 := by
  induction n generalizing t i with
  | zero => omega
  | succ n ih =>
    have hnext : read (i + 1) t = (.ok (t (i + 1)), t) := read_apply (by omega)
    rw [shiftLeft, bind_of_ok hnext, RegionTable.shiftLeft]
    by_cases hzero : (t (i + 1)).virtAddr = 0
    · rw [if_pos hzero, if_pos hzero]
      exact ⟨rfl, rfl, rfl⟩
    · have hne : i + 1 ≠ 29 := by
        intro heq
        have hcast : (i : ℤ) + 1 = 29 := by exact_mod_cast heq
        rw [hcast] at hzero
        exact hzero hfree
      have hother (k : ℤ) (hk : 28 < k) : t.copyEntry i (i + 1) k = t k :=
        RegionTable.set_of_ne _ _ (by omega)
      rw [if_neg hzero, if_neg hzero, bind_of_ok (copyEntry_apply (by omega) (by omega))]
      obtain ⟨hrun, hlast, hcount⟩ := ih (t := t.copyEntry i (i + 1)) (i + 1) (by omega) (by omega)
        (by rw [hother 29 (by decide)]; exact hfree)
      exact ⟨hrun, hlast.trans (hother 29 (by decide)), hcount.trans (hother 30 (by decide))⟩

/-- Dropping an entry stays inside the array and leaves the last entry free; the count goes down by
one at most. -/
theorem dropEntry_apply {i : ℕ} (unmappingSize : Word) (hi : i < 29) (hslack : Slack t)
    (hcount : t.totalMmaps ≠ BitVec.intMin 32) :
    dropEntry i unmappingSize t = (.ok (), t.dropEntry i unmappingSize) ∧
      Slack (t.dropEntry i unmappingSize) ∧ t.total - 1 ≤ (t.dropEntry i unmappingSize).total := by
  have hread : read i t = (.ok (t i), t) := read_apply (by omega)
  rw [dropEntry, bind_of_ok hread, RegionTable.dropEntry]
  by_cases hwhole : (t i).size ≤ unmappingSize
  · rw [if_pos hwhole, if_pos hwhole, bind_of_ok (update_apply _ (by omega))]
    dsimp only
    have hother (k : ℤ) (hk : 28 < k) : t.set i (t i).zeroMmapRegionStruct k = t k :=
      RegionTable.set_of_ne _ _ (by omega)
    obtain ⟨hrun, hlast, hlater⟩ := shiftLeft_apply (t := t.set i (t i).zeroMmapRegionStruct)
      i (30 - i) hi (by omega) (by rw [hother 29 (by decide)]; exact hslack.virtAddr_eq)
    rw [bind_of_ok hrun]
    rw [hother 29 (by decide)] at hlast
    rw [hother 30 (by decide)] at hlater
    generalize (t.set i (t i).zeroMmapRegionStruct).shiftLeft i (30 - i) = t' at hlast hlater ⊢
    have htotal : (t'.setTotal (t'.totalMmaps - 1)).total = t.total - 1 := by
      rw [RegionTable.total, RegionTable.totalMmaps, RegionTable.setTotal, RegionTable.set_self]
      dsimp only
      rw [RegionTable.totalMmaps, hlater]
      exact toInt_sub_one hcount
    have hkept : t'.setTotal (t'.totalMmaps - 1) 29 = t 29 :=
      (RegionTable.set_of_ne _ _ (by decide)).trans hlast
    have hle := hslack.total_le
    exact ⟨rfl, ⟨hkept ▸ hslack.virtAddr_eq, hkept ▸ hslack.size_eq, by omega⟩, by omega⟩
  · rw [if_neg hwhole, if_neg hwhole, update_apply _ (by omega)]
    have hother (k : ℤ) (entry : MmapRegion) (hk : 28 < k) : t.set i entry k = t k :=
      RegionTable.set_of_ne _ _ (by omega)
    refine ⟨rfl, ⟨?_, ?_, ?_⟩, ?_⟩
    · rw [hother 29 _ (by decide)]
      exact hslack.virtAddr_eq
    · rw [hother 29 _ (by decide)]
      exact hslack.size_eq
    · rw [RegionTable.total, RegionTable.totalMmaps, hother 30 _ (by decide)]
      exact hslack.total_le
    · have hsame (entry : MmapRegion) : (t.set i entry).total = t.total := by
        rw [RegionTable.total, RegionTable.totalMmaps, hother 30 entry (by decide)]
        rfl
      rw [hsame]
      exact Int.sub_le_self _ (by decide)

/-- The entry that an unmapping finds and that has a size is not the free last one. -/
theorem Slack.found_lt {mainaddr : Word} {i : ℕ} (h : Slack t)
    (hfound : t.findEntry mainaddr = some i) (hsize : (t i).size ≠ 0) : i < 29 := by
  have hlt := (RegionTable.findEntry_eq_some hfound).1
  have hne : i ≠ 29 := by
    rintro rfl
    exact hsize h.size_eq
  omega

end Checked

end Xv6Mmap
