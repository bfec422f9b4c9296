import Xv6Mmap.Fs.ByteArrays
import Xv6Mmap.Kernel.Strings
import Xv6Mmap.Library.SlotTable

/-!
# Directories: `dirlookup`, `dirlink`, `isdirempty` and the removal of an entry

A directory is a file that holds one `struct dirent` after the other.  Three loops go through it; they
differ in the entry at which they stop, in where they start, and in the message of their panic.
-/

namespace Xv6Mmap.Fs

open Library Bytes Dirent SlotTable Option

/-! ## The functions -/

def namecmp (s t : ℕ → Byte) : ℤ := strncmp s t dirSiz

namespace Dirent

/-- The bytes of an entry. -/
def toList (de : Dirent) : List Byte := (List.range bytes).map de.byte

def ofList (bs : List Byte) : Dirent := ofBytes fun k ↦ bs.getD k 0

/-- The entry that `dirlink` writes; the inode number is stored in 16 bits. -/
def link (name : ℕ → Byte) (inum : ℕ) : Dirent :=
  ⟨BitVec.ofNat 16 inum, fun k ↦ (strncpy name dirSiz).getD k.val 0⟩

end Dirent

/-- An entry has been read as a whole. -/
def wholeEntry : IoResult (List Byte) → Option Dirent
  | .done bs => if bs.length = Dirent.bytes then some (.ofList bs) else none
  | _ => none

section Functions

variable (sb : Superblock)

/-- The loops over a directory from `off` on: the offset at which the loop ends, and the entry if it
ends at one. -/
def dirScan (panic : FsPanic) (stop : Dirent → Bool) :
    ℕ → Disk → Dinode → ℕ → Except FsPanic (Disk × Dinode × ℕ × Option Dirent)
  | 0, d, dp, off => return (d, dp, off, none)
  | fuel + 1, d, dp, off =>
    if dp.size.toNat ≤ off then return (d, dp, off, none)
    else do
      let (d, dp, r) ← readi sb d dp (BitVec.ofNat 32 off) (BitVec.ofNat 32 Dirent.bytes)
      match wholeEntry r with
      | none => .error panic
      | some de =>
        if stop de then return (d, dp, off, some de)
        else dirScan panic stop fuel d dp (off + Dirent.bytes)

/-- The entry is in use and has the name. -/
def nameMatches (name : ℕ → Byte) (de : Dirent) : Bool :=
  de.inum ≠ 0 ∧ namecmp name de.nameByte = 0

/-- `dirlookup` returns the inode number of the entry, and its offset. -/
def dirlookup (d : Disk) (dp : Dinode) (name : ℕ → Byte) :
    Except FsPanic (Disk × Dinode × Option (ℕ × ℕ)) :=
  if dp.type ≠ tDir then .error .dirlookupNotDir
  else
    (dirScan sb .dirlookupRead (nameMatches name) dp.size.toNat d dp 0).map fun r ↦
      (r.1, r.2.1, r.2.2.2.map fun de ↦ (de.inum.toNat, r.2.2.1))

/-- The second half of `dirlink`: the entry goes to the first free slot, or behind the last. -/
def dirlinkFree (d : Disk) (dnum : ℕ) (dp : Dinode) (name : ℕ → Byte) (inum : ℕ) :
    Except FsPanic (Disk × Dinode × Bool) := do
  let (d, dp, off, _) ← dirScan sb .dirlinkRead (fun de ↦ de.inum = 0) dp.size.toNat d dp 0
  let (d, dp, r) ← writei sb d dnum dp (Dirent.link name inum).byte (BitVec.ofNat 32 off)
    (BitVec.ofNat 32 Dirent.bytes)
  if r = .done (BitVec.ofNat 32 Dirent.bytes) then return (d, dp, true) else .error .dirlink

/-- `dirlink` fails if the name is there. -/
def dirlink (d : Disk) (dnum : ℕ) (dp : Dinode) (name : ℕ → Byte) (inum : ℕ) :
    Except FsPanic (Disk × Dinode × Bool) := do
  let (d, dp, found) ← dirlookup sb d dp name
  match found with
  | some _ => return (d, dp, false)
  | none => dirlinkFree sb d dnum dp name inum

/-- What `sys_unlink` does to the directory: the entry with the name is overwritten with zeros. -/
def removeEntry (d : Disk) (dnum : ℕ) (dp : Dinode) (name : ℕ → Byte) :
    Except FsPanic (Disk × Dinode × Bool) := do
  let (d, dp, found) ← dirlookup sb d dp name
  match found with
  | none => return (d, dp, false)
  | some (_, off) =>
    let (d, dp, r) ← writei sb d dnum dp Dirent.zero.byte (BitVec.ofNat 32 off)
      (BitVec.ofNat 32 Dirent.bytes)
    if r = .done (BitVec.ofNat 32 Dirent.bytes) then return (d, dp, true)
    else .error .unlinkWritei

def isdirempty (d : Disk) (dp : Dinode) : Except FsPanic (Disk × Dinode × Bool) :=
  (dirScan sb .isdiremptyReadi (fun de ↦ de.inum ≠ 0) dp.size.toNat d dp (2 * Dirent.bytes)).map
    fun r ↦ (r.1, r.2.1, r.2.2.2.isNone)

end Functions

/-! ## The entries of a directory -/

/-- The entries in the bytes of a directory. -/
def entries (bs : List Byte) : List Dirent :=
  (List.range (bs.length / Dirent.bytes)).map fun k ↦
    .ofList ((bs.drop (Dirent.bytes * k)).take Dirent.bytes)

theorem Dirent.length_toList (de : Dirent) : de.toList.length = bytes := by
  rw [toList, List.length_map, List.length_range]

theorem Dirent.ofList_toList (de : Dirent) : ofList de.toList = de := by
  have hbytes : ofList de.toList = ofBytes de.byte := by
    apply ofBytes_congr
    intro k hk
    rw [toList, List.getD_eq_getElem?_getD, List.getElem?_map, List.getElem?_range hk]
    rfl
  rw [hbytes, ofBytes_byte]

variable {sb : Superblock} {d : Disk} {dp : Dinode} {es : List Dirent}
  {bs : List Byte} {k fuel : ℕ}

theorem length_entries (bs : List Byte) : (entries bs).length = bs.length / bytes := by
  rw [entries, List.length_map, List.length_range]

theorem getElem?_entries (hk : k < bs.length / bytes) :
    (entries bs)[k]? = some (.ofList ((bs.drop (bytes * k)).take bytes)) := by
  rw [entries, List.getElem?_map, List.getElem?_range hk, map_some]

/-- The entries are stored one by one. -/
theorem entries_overlay (hbs : bs.length % bytes = 0) (hk : k ≤ bs.length / bytes)
    (de : Dirent) :
    entries (overlay bs (bytes * k) de.toList) = store (entries bs) k de := by
  have hoff : bytes * k ≤ bs.length :=
    (Nat.mul_le_mul_left _ hk).trans (Nat.mul_div_le _ _)
  have hlen := length_overlay hoff de.toList
  rw [de.length_toList] at hlen
  have hcount : (overlay bs (bytes * k) de.toList).length / bytes =
      max (bs.length / bytes) (k + 1) := by
    rw [hlen]
    simp only [bytes] at *
    omega
  apply List.ext_getElem?
  intro j
  rw [getElem?_store (by rwa [length_entries])]
  by_cases hj : j < (overlay bs (bytes * k) de.toList).length / bytes
  · rw [getElem?_entries hj]
    have hbefore : j ≠ k → (entries bs)[j]? =
        some (.ofList ((bs.drop (bytes * j)).take bytes)) :=
      fun hne ↦ getElem?_entries (by omega)
    rcases lt_trichotomy j k with hlt | heq | hgt
    · have hle : bytes * j + bytes ≤ bytes * k := Nat.mul_le_mul_left _ hlt
      rw [if_neg hlt.ne, hbefore hlt.ne, slice_overlay_of_le hoff hle]
    · have hslice := slice_overlay hoff de.toList
      rw [de.length_toList] at hslice
      rw [if_pos heq, heq, hslice, ofList_toList]
    · have hge : bytes * k + de.toList.length ≤ bytes * j := by
        rw [de.length_toList]
        exact Nat.mul_le_mul_left _ hgt
      rw [if_neg hgt.ne', hbefore hgt.ne', slice_overlay_of_ge hoff hge]
  · rw [if_neg (by omega), List.getElem?_eq_none (by rw [length_entries]; omega),
      List.getElem?_eq_none (by rw [length_entries]; omega)]

/-- The directory `dp` can be read, and `es` are its entries. -/
structure Holds (sb : Superblock) (d : Disk) (dp : Dinode) (es : List Dirent) : Prop where
  size : dp.size.toNat = Dirent.bytes * es.length
  reads : ∀ k de, es[k]? = some de → ∃ bs,
    readi sb d dp (BitVec.ofNat 32 (Dirent.bytes * k)) (BitVec.ofNat 32 Dirent.bytes) =
      .ok (d, dp, .done bs) ∧ wholeEntry (.done bs) = some de

/-- The loops find the first entry from slot `k` on at which they stop. -/
theorem Holds.dirScan_eq (panic : FsPanic) (stop : Dirent → Bool) (h : Holds sb d dp es)
    (hfuel : es.length - k ≤ fuel) :
    dirScan sb panic stop fuel d dp (bytes * k) =
      .ok (d, dp, bytes * (k + (es.drop k).findIdx stop), (es.drop k).find? stop) := by
  induction fuel generalizing k with
  | zero =>
    rw [List.drop_eq_nil_of_le (by omega)]
    rfl
  | succ fuel ih =>
    have hpos : 0 < bytes := by decide
    rw [dirScan, h.size]
    by_cases hend : es.length ≤ k
    · rw [if_pos (Nat.mul_le_mul_left _ hend), List.drop_eq_nil_of_le hend]
      rfl
    · have hlt := not_le.mp hend
      obtain ⟨bs, hread, hde⟩ := h.reads k es[k] (List.getElem?_eq_getElem hlt)
      rw [if_neg fun hle ↦ hend (Nat.le_of_mul_le_mul_left hle hpos), hread,
        List.drop_eq_getElem_cons hlt, List.findIdx_cons,
        List.find?_cons]
      change (match wholeEntry (.done bs) with | none => _ | some de => _) = _
      rw [hde]
      dsimp only
      cases hstop : stop es[k] with
      | true =>
        rfl
      | false => grind

/-! ## Names -/

/-- A name as far as directories can tell it from others: its bytes up to the end, at most `DIRSIZ`
of them, filled up with zeros. -/
def nameKey (name : ℕ → Byte) : List Byte := strncpy name dirSiz

/-- The name of an entry that is in use. -/
def Dirent.key (de : Dirent) : Option (List Byte) :=
  if de.inum = 0 then none else some (nameKey de.nameByte)

theorem Dirent.key_eq_none {de : Dirent} : de.key = none ↔ de.inum = 0 := by grind [key]

theorem Dirent.key_zero : zero.key = none := rfl

/-- The entry that `dirlink` writes has the name. -/
theorem Dirent.key_link (name : ℕ → Byte) {inum : ℕ} (hpos : 0 < inum) (hlt : inum < 2 ^ 16) :
    (link name inum).key = some (nameKey name) := by
  have hne : (link name inum).inum ≠ 0 := by
    intro heq
    have hnat : (BitVec.ofNat 16 inum).toNat = 0 := congrArg BitVec.toNat heq
    rw [BitVec.toNat_ofNat, Nat.mod_eq_of_lt hlt] at hnat
    exact Nat.ne_of_gt hpos hnat
  have hname : nameKey (link name inum).nameByte = nameKey name := by
    have hbytes : nameKey (link name inum).nameByte =
        strncpy (fun k ↦ (strncpy name dirSiz).getD k 0) dirSiz := by
      apply strncpy_congr
      intro k hk
      exact dif_pos hk
    rw [hbytes, strncpy_getD, nameKey]
  rw [key, if_neg hne, hname]

theorem nameMatches_eq (name : ℕ → Byte) :
    nameMatches name = fun de ↦ decide (de.key = some (nameKey name)) := by
  funext de
  have hcmp : namecmp name de.nameByte = 0 ↔ nameKey name = nameKey de.nameByte := strncmp_eq_zero
  unfold nameMatches key
  rw [decide_eq_decide, hcmp]
  split
  · rename_i hzero
    exact iff_of_false (fun hh ↦ hh.1 hzero) nofun
  · rename_i hused
    rw [some_inj, and_iff_right hused]
    exact eq_comm

/-! ## The functions on a directory that can be read -/

namespace Holds

variable {name : ℕ → Byte}

theorem length_le (h : Holds sb d dp es) : es.length ≤ dp.size.toNat := by
  rw [h.size]
  exact Nat.le_mul_of_pos_left _ (by decide)

theorem dirlookup_eq (h : Holds sb d dp es) (hdir : dp.type = tDir) (name : ℕ → Byte) :
    dirlookup sb d dp name = .ok (d, dp, (lookup key es (nameKey name)).map
      fun de ↦ (de.inum.toNat, bytes * es.findIdx (nameMatches name))) := by
  have hfuel : es.length - 0 ≤ dp.size.toNat := h.length_le
  have hscan := h.dirScan_eq .dirlookupRead (nameMatches name) hfuel
  rw [Nat.mul_zero, List.drop_zero, Nat.zero_add] at hscan
  rw [dirlookup, if_neg (not_not.mpr hdir), hscan, lookup, ← nameMatches_eq]
  rfl

/-- `isdirempty` looks at the entries from the third on. -/
theorem isdirempty_eq (h : Holds sb d dp es) :
    ∃ r, isdirempty sb d dp = .ok (d, dp, r) ∧
      (r = true ↔ ∀ (k : ℕ) de, 2 ≤ k → es[k]? = some de → de.key = none) := by
  have hfuel : es.length - 2 ≤ dp.size.toNat := (Nat.sub_le _ _).trans h.length_le
  have hscan := h.dirScan_eq .isdiremptyReadi (fun de ↦ de.inum ≠ 0) hfuel
  refine ⟨((es.drop 2).find? fun de ↦ de.inum ≠ 0).isNone, ?_, ?_⟩
  · rw [isdirempty, Nat.mul_comm, hscan]
    rfl
  · rw [isNone_iff_eq_none, List.find?_eq_none]
    constructor
    · intro hnone k de hk hde
      have hdrop : (es.drop 2)[k - 2]? = some de := by
        rw [List.getElem?_drop, Nat.add_sub_cancel' hk, hde]
      have hzero := hnone de (List.mem_of_getElem? hdrop)
      rw [key_eq_none]
      simpa using hzero
    · intro hall de hde
      obtain ⟨k, hk⟩ := List.mem_iff_getElem?.mp hde
      rw [List.getElem?_drop] at hk
      have hzero := key_eq_none.mp (hall (2 + k) de (Nat.le_add_right _ _) hk)
      simpa using hzero

end Holds

end Xv6Mmap.Fs
