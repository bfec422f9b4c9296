import Xv6Mmap.Fs.Directory

/-!
# Directories as finite maps

`dirlink` and the removal of an entry change the finite map from names to inode numbers that a
directory stands for.  `dirlink` needs a free slot, or room for one more entry in the file and on the
disk; without it the kernel panics.
-/

namespace Xv6Mmap.Fs

open Function Library Bytes Dirent SlotTable List Option BitVec

namespace FileSystem

variable (sb : Superblock)

def dirlookup (s : FileSystem) (dnum : ℕ) (name : ℕ → Byte) :
    Except FsPanic (FileSystem × Option (ℕ × ℕ)) :=
  s.withInode sb dnum fun d dp ↦ Fs.dirlookup sb d dp name

def dirlink (s : FileSystem) (dnum : ℕ) (name : ℕ → Byte) (inum : ℕ) :
    Except FsPanic (FileSystem × Bool) :=
  s.withInode sb dnum fun d dp ↦ Fs.dirlink sb d dnum dp name inum

def removeEntry (s : FileSystem) (dnum : ℕ) (name : ℕ → Byte) : Except FsPanic (FileSystem × Bool) :=
  s.withInode sb dnum fun d dp ↦ Fs.removeEntry sb d dnum dp name

def isdirempty (s : FileSystem) (dnum : ℕ) : Except FsPanic (FileSystem × Bool) :=
  s.withInode sb dnum fun d dp ↦ Fs.isdirempty sb d dp

end FileSystem

/-- Inode `dnum` is a directory with the entries `es`. -/
structure IsDir (sb : Superblock) (s : FileSystem) (dnum : ℕ) (es : List Dirent) : Prop where
  consistent : s.Consistent sb
  file : ∃ f, byteFile sb s.disk dnum = some f ∧ f.type = tDir ∧
    f.bytes.length = Dirent.bytes * es.length ∧ entries f.bytes = es

/-- There is room for an entry in slot `k`: the slot exists, or the file can have one entry more and
the disk has the blocks for it. -/
def Room (sb : Superblock) (d : Disk) (count k : ℕ) : Prop :=
  k < count ∨ (Dirent.bytes * (count + 1) ≤ maxFile * bSize ∧
    slotsFor (blocksFor (Dirent.bytes * (count + 1))) - slotsFor (blocksFor (Dirent.bytes * count)) ≤
      freeBlocks sb d)

namespace IsDir

variable {sb : Superblock} {s : FileSystem} {dnum k : ℕ} {es : List Dirent} {de : Dirent}

section

variable (h : IsDir sb s dnum es) {name : ℕ → Byte}
include h

theorem live : Live sb (s.disk.dinode sb) dnum := by
  obtain ⟨f, hf, -⟩ := h.file
  exact (live_of_byteFile hf).1

theorem type : (s.disk.dinode sb dnum).type = tDir := by
  obtain ⟨f, hf, htype, -⟩ := h.file
  exact (live_of_byteFile hf).2.1.trans htype

theorem size : (s.disk.dinode sb dnum).size.toNat = bytes * es.length := by
  obtain ⟨f, hf, -, hlen, -⟩ := h.file
  exact (size_of_byteFile hf).trans hlen

theorem length_le : bytes * es.length ≤ maxFile * bSize := by
  have hshort := h.consistent.owned.short dnum h.live
  have hsize := le_blocksFor (s.disk.dinode sb dnum).size.toNat
  rw [h.size] at hsize
  calc bytes * es.length ≤ bSize * blocksFor (bytes * es.length) := hsize
    _ ≤ bSize * maxFile := by
      rw [← h.size]
      exact Nat.mul_le_mul_left _ hshort
    _ = maxFile * bSize := Nat.mul_comm _ _

theorem holds : Holds sb s.disk (s.disk.dinode sb dnum) es := by
  refine ⟨h.size, ?_⟩
  intro k de hk
  have hlt := (List.getElem?_eq_some_iff.mp hk).1
  have hmax := h.length_le
  have hdev : (s.disk.dinode sb dnum).type ≠ tDev := by
    rw [h.type]
    decide
  have hoff : (BitVec.ofNat 32 (bytes * k)).toNat = bytes * k := by
    rw [toNat_ofNat]
    simp only [bytes, maxFile, bSize] at *
    omega
  have hn : (BitVec.ofNat 32 bytes).toNat = bytes := rfl
  have hin : (BitVec.ofNat 32 (bytes * k)).toNat ≤ (s.disk.dinode sb dnum).size.toNat ∧
      (BitVec.ofNat 32 (bytes * k)).toNat + (BitVec.ofNat 32 bytes).toNat < 2 ^ 32 := by
    rw [hoff, hn, h.size]
    simp only [bytes, maxFile, bSize] at *
    omega
  obtain ⟨f, hf, -, hlen, hes⟩ := h.file
  have hbytes := (live_of_byteFile hf).2.2
  refine ⟨((f.bytes.drop (bytes * k)).take bytes), ?_, ?_⟩
  · rw [h.consistent.owned.readi_eq h.live, readResult, if_neg hdev, if_pos hin,
      ← take_drop_fileBytes, hbytes, hoff, hn]
  · have hcount : k < f.bytes.length / bytes := by
      rw [hlen, Nat.mul_div_cancel_left _ (by decide)]
      exact hlt
    have hwhole : ((f.bytes.drop (bytes * k)).take bytes).length = bytes := by
      rw [length_take, length_drop, hlen]
      simp only [bytes] at *
      omega
    rw [← hes, getElem?_entries hcount] at hk
    rw [wholeEntry, if_pos hwhole]
    exact hk

/-- The inode is locked, and nothing else changes. -/
theorem setInode : IsDir sb (s.setInode s.disk dnum (s.disk.dinode sb dnum)) dnum es := by
  have hshows : s.Shows sb (byteFile sb s.disk) (freeBlocks sb s.disk) := ⟨h.consistent, rfl, rfl⟩
  exact ⟨(hshows.setInode h.live).consistent, h.file⟩

theorem dirlookup (name : ℕ → Byte) :
    s.dirlookup sb dnum name = .ok (s.setInode s.disk dnum (s.disk.dinode sb dnum),
      (SlotTable.lookup key es (nameKey name)).map fun de ↦
        (de.inum.toNat, bytes * es.findIdx (nameMatches name))) := by
  rw [FileSystem.dirlookup, h.consistent.withInode_eq h.live, h.holds.dirlookup_eq h.type]
  rfl

theorem isdirempty :
    ∃ r, s.isdirempty sb dnum = .ok (s.setInode s.disk dnum (s.disk.dinode sb dnum), r) ∧
      (r = true ↔ ∀ (k : ℕ) de, 2 ≤ k → es[k]? = some de → de.key = none) := by
  obtain ⟨r, hr, hiff⟩ := h.holds.isdirempty_eq
  refine ⟨r, ?_, hiff⟩
  rw [FileSystem.isdirempty, h.consistent.withInode_eq h.live, hr]
  rfl

omit h in
/-- An entry is written to slot `k`. -/
theorem store (de : Dirent) (h : IsDir sb s dnum es) (hk : k ≤ es.length)
    (hroom : Room sb s.disk es.length k) :
    ∃ s', s.writei sb dnum de.byte (BitVec.ofNat 32 (bytes * k))
        (BitVec.ofNat 32 bytes) = .ok (s', .done (BitVec.ofNat 32 bytes)) ∧
      IsDir sb s' dnum (SlotTable.store es k de) ∧
      (∀ j, j ≠ dnum → byteFile sb s'.disk j = byteFile sb s.disk j) ∧
      freeBlocks sb s'.disk = freeBlocks sb s.disk -
        (slotsFor (blocksFor (bytes * (SlotTable.store es k de).length)) -
          slotsFor (blocksFor (bytes * es.length))) := by
  have hmax := h.length_le
  have hshows : s.Shows sb (byteFile sb s.disk) (freeBlocks sb s.disk) := ⟨h.consistent, rfl, rfl⟩
  obtain ⟨f, hf, htype, hlen, hes⟩ := h.file
  have hdev : f.type ≠ tDev := by
    rw [htype]
    decide
  have hoff : (BitVec.ofNat 32 (bytes * k)).toNat = bytes * k := by
    rw [toNat_ofNat]
    simp only [bytes, maxFile, bSize] at *
    omega
  have hn : (BitVec.ofNat 32 bytes).toNat = bytes := rfl
  have hwrite := hshows.writei de.byte (BitVec.ofNat 32 (bytes * k))
    (BitVec.ofNat 32 bytes) hf hdev
  have hsrc : (range bytes).map de.byte = de.toList := rfl
  rw [hoff, hn, hsrc] at hwrite
  have hstart : bytes * k ≤ f.bytes.length := by
    rw [hlen]
    exact Nat.mul_le_mul_left _ hk
  have hcount := length_store hk de
  have hlength : (f.write (bytes * k) de.toList).bytes.length =
      bytes * (SlotTable.store es k de).length := by
    rw [ByteFile.length_write hstart, de.length_toList, hcount, hlen]
    simp only [bytes]
    omega
  have hgrowth : f.growth (f.write (bytes * k) de.toList) =
      slotsFor (blocksFor (bytes * (SlotTable.store es k de).length)) -
        slotsFor (blocksFor (bytes * es.length)) := by
    rw [ByteFile.growth, hlength, hlen]
  have hfits : bytes * k + bytes ≤ maxFile * bSize ∧
      f.growth (f.write (bytes * k) de.toList) ≤ freeBlocks sb s.disk := by
    rw [hgrowth, hcount]
    rcases hroom with hlt | ⟨hroom, hfree⟩
    · rw [Nat.max_eq_left hlt, Nat.sub_self]
      exact ⟨(Nat.mul_le_mul_left _ hlt).trans hmax, Nat.zero_le _⟩
    · rcases Nat.lt_or_eq_of_le hk with hlt | heq
      · rw [Nat.max_eq_left hlt, Nat.sub_self]
        exact ⟨(Nat.mul_le_mul_left _ hlt).trans hmax, Nat.zero_le _⟩
      · rw [heq, Nat.max_eq_right (Nat.le_succ _)]
        exact ⟨hroom, hfree⟩
  obtain ⟨s', hok, hs'⟩ := hwrite ⟨hstart, hfits.1.trans_lt (by decide), hfits.1⟩ hfits.2
  refine ⟨s', hok, ⟨hs'.consistent, f.write (bytes * k) de.toList, ?_, htype, hlength, ?_⟩,
    ?_, ?_⟩
  · rw [hs'.inodes, update_self]
  · have hoverlay := entries_overlay (k := k) (by rw [hlen, Nat.mul_mod_right])
      (by rw [hlen, Nat.mul_div_cancel_left _ (by decide)]; exact hk) de
    rw [hes] at hoverlay
    exact hoverlay
  · intro j hj
    rw [hs'.inodes, update_of_ne hj]
  · rw [hs'.free, hgrowth]

/-- `dirlink` of a name that is there. -/
theorem dirlink_of_found (inum : ℕ)
    (hfound : SlotTable.lookup key es (nameKey name) = some de) :
    s.dirlink sb dnum name inum =
      .ok (s.setInode s.disk dnum (s.disk.dinode sb dnum), false) := by
  have hlookup := h.holds.dirlookup_eq h.type name
  rw [hfound] at hlookup
  rw [FileSystem.dirlink, h.consistent.withInode_eq h.live, Fs.dirlink, hlookup]
  rfl

omit h in
/-- The slot that `dirlink` takes. -/
def freeSlot (es : List Dirent) : ℕ := es.findIdx fun de ↦ de.inum = 0

/-- `dirlink` of a name that is not there writes an entry. -/
theorem dirlink_of_absent (inum : ℕ)
    (habsent : SlotTable.lookup key es (nameKey name) = none) :
    s.dirlink sb dnum name inum =
      (s.writei sb dnum (link name inum).byte
        (BitVec.ofNat 32 (bytes * freeSlot es)) (BitVec.ofNat 32 bytes)).bind fun r ↦
          if r.2 = .done (BitVec.ofNat 32 bytes) then .ok (r.1, true)
          else .error .dirlink := by
  have hlookup := h.holds.dirlookup_eq h.type name
  rw [habsent, map_none] at hlookup
  have hfuel : es.length - 0 ≤ (s.disk.dinode sb dnum).size.toNat := h.holds.length_le
  have hscan := h.holds.dirScan_eq .dirlinkRead (fun de ↦ de.inum = 0) hfuel
  rw [Nat.mul_zero, drop_zero, Nat.zero_add] at hscan
  rw [FileSystem.dirlink, h.consistent.withInode_eq h.live, Fs.dirlink, hlookup]
  change Except.map _ (dirlinkFree sb s.disk dnum (s.disk.dinode sb dnum) name inum) = _
  rw [dirlinkFree, hscan, FileSystem.writei, h.consistent.withInode_eq h.live]
  change Except.map _ ((Fs.writei sb s.disk dnum (s.disk.dinode sb dnum) _
    (BitVec.ofNat 32 (bytes * freeSlot es)) _).bind _) = _
  cases Fs.writei sb s.disk dnum (s.disk.dinode sb dnum) (link name inum).byte
    (BitVec.ofNat 32 (bytes * freeSlot es)) (BitVec.ofNat 32 bytes) with
  | error e => rfl
  | ok r =>
    change Except.map _ (if r.2.2 = _ then _ else _) = if r.2.2 = _ then _ else _
    split
    · rfl
    · rfl

theorem removeEntry_of_absent (habsent : SlotTable.lookup key es (nameKey name) = none) :
    s.removeEntry sb dnum name =
      .ok (s.setInode s.disk dnum (s.disk.dinode sb dnum), false) := by
  have hlookup := h.holds.dirlookup_eq h.type name
  rw [habsent] at hlookup
  rw [FileSystem.removeEntry, h.consistent.withInode_eq h.live, Fs.removeEntry, hlookup]
  rfl

/-- The entry with the name is overwritten. -/
theorem removeEntry_of_found (hfound : SlotTable.lookup key es (nameKey name) = some de) :
    s.removeEntry sb dnum name =
      (s.writei sb dnum zero.byte
        (BitVec.ofNat 32 (bytes * es.findIdx (nameMatches name)))
        (BitVec.ofNat 32 bytes)).bind fun r ↦
          if r.2 = .done (BitVec.ofNat 32 bytes) then .ok (r.1, true)
          else .error .unlinkWritei := by
  have hlookup := h.holds.dirlookup_eq h.type name
  rw [hfound, map_some] at hlookup
  rw [FileSystem.removeEntry, h.consistent.withInode_eq h.live, Fs.removeEntry, hlookup,
    FileSystem.writei, h.consistent.withInode_eq h.live]
  change Except.map _ ((Fs.writei sb s.disk dnum (s.disk.dinode sb dnum) _
    (BitVec.ofNat 32 (bytes * es.findIdx (nameMatches name))) _).bind _) = _
  cases Fs.writei sb s.disk dnum (s.disk.dinode sb dnum) zero.byte
    (BitVec.ofNat 32 (bytes * es.findIdx (nameMatches name)))
    (BitVec.ofNat 32 bytes) with
  | error e => rfl
  | ok r =>
    change Except.map _ (if r.2.2 = _ then _ else _) = if r.2.2 = _ then _ else _
    split
    · rfl
    · rfl

end

end IsDir

/-! ## The finite map -/

/-- The inode numbers that the names of a directory are bound to. -/
def bindings (es : List Dirent) (x : List Byte) : Option ℕ :=
  (SlotTable.lookup Dirent.key es x).map fun de ↦ de.inum.toNat

/-- What `dirlink` of a name that is not there needs: an inode number that an entry can hold, and
room for the entry. -/
def Linkable (sb : Superblock) (d : Disk) (es : List Dirent) (name : ℕ → Byte) (inum : ℕ) : Prop :=
  bindings es (nameKey name) = none →
    0 < inum ∧ inum < 2 ^ 16 ∧ Room sb d es.length (IsDir.freeSlot es)

section Map

variable {sb : Superblock} {s : FileSystem} {dnum k inum : ℕ} {es : List Dirent} {de : Dirent}
  {name : ℕ → Byte}

theorem bindings_eq_none {x : List Byte} :
    bindings es x = none ↔ SlotTable.lookup key es x = none :=
  map_eq_none_iff

theorem vacant_freeSlot (es : List Dirent) : Vacant key es (IsDir.freeSlot es) := by
  refine ⟨findIdx_le_length, ?_⟩
  intro de hde
  rw [IsDir.freeSlot, ← find?_eq_getElem?_findIdx] at hde
  have hfree := find?_some hde
  rw [key_eq_none]
  simpa using hfree

/-- The slot that `dirlookup` finds. -/
theorem getElem?_findIdx (hfound : SlotTable.lookup key es (nameKey name) = some de) :
    es[es.findIdx (nameMatches name)]? = some de := by
  rw [← find?_eq_getElem?_findIdx, nameMatches_eq]
  exact hfound

theorem key_of_lookup {x : List Byte} (hfound : SlotTable.lookup key es x = some de) :
    de.key = some x := by
  have hkey := find?_some hfound
  simpa using hkey

/-- `dirlookup` returns the inode number that the name is bound to and the offset of the entry. -/
theorem dirlookup_iff {inum off : ℕ} (hdistinct : Distinct key es) :
    (SlotTable.lookup key es (nameKey name)).map (fun de ↦
        (de.inum.toNat, bytes * es.findIdx (nameMatches name))) = some (inum, off) ↔
      ∃ (k : ℕ) (de : Dirent), es[k]? = some de ∧ de.key = some (nameKey name) ∧
        inum = de.inum.toNat ∧ off = bytes * k := by
  constructor
  · intro hmap
    obtain ⟨de, hde, heq⟩ := map_eq_some_iff.mp hmap
    obtain ⟨rfl, rfl⟩ := Prod.mk.inj heq
    exact ⟨_, de, getElem?_findIdx hde, key_of_lookup hde, rfl, rfl⟩
  · rintro ⟨k, de, hk, hkey, rfl, rfl⟩
    have hde := hdistinct.lookup_eq_some.mpr ⟨hkey, k, hk⟩
    rw [hde, map_some, hdistinct _ _ _ _ _ (getElem?_findIdx hde) hk hkey hkey]

/-- The outcome of `dirlink`: `-1` if the name is bound, and otherwise the binding in a slot that was
vacant. -/
theorem IsDir.dirlink (h : IsDir sb s dnum es) (hdistinct : Distinct key es)
    (hlink : Linkable sb s.disk es name inum) :
    ∃ s' es' ok, s.dirlink sb dnum name inum = .ok (s', ok) ∧ IsDir sb s' dnum es' ∧
      Distinct key es' ∧ (ok = false ↔ bindings es (nameKey name) ≠ none) ∧
      (ok = false → es' = es) ∧
      (ok = true → bindings es' = update (bindings es) (nameKey name) (some inum) ∧
        ∃ k, Vacant key es k ∧
          es' = SlotTable.store es k (link name inum)) := by
  cases hlookup : SlotTable.lookup key es (nameKey name) with
  | some de =>
    refine ⟨_, es, false, h.dirlink_of_found inum hlookup, h.setInode, hdistinct, ?_, fun _ ↦ rfl,
      nofun⟩
    refine iff_of_true rfl ?_
    rw [Ne, bindings_eq_none, hlookup]
    exact nofun
  | none =>
    have habsent : bindings es (nameKey name) = none := bindings_eq_none.mpr hlookup
    obtain ⟨hpos, hlt, hroom⟩ := hlink habsent
    have hkey := key_link name hpos hlt
    have hvacant := vacant_freeSlot es
    obtain ⟨s', hok, hdir, -⟩ := h.store (link name inum) hvacant.1 hroom
    obtain ⟨hdistinct', hmap⟩ := hdistinct.lookup_store hvacant hkey hlookup
    refine ⟨s', _, true, ?_, hdir, hdistinct', ?_, nofun, fun _ ↦ ⟨?_, _, hvacant, rfl⟩⟩
    · rw [h.dirlink_of_absent inum hlookup, hok]
      rfl
    · exact iff_of_false nofun (not_not.mpr habsent)
    · funext x
      rw [bindings, hmap]
      by_cases hx : x = nameKey name
      · rw [hx, update_self, update_self, map_some]
        congr 1
        exact Nat.mod_eq_of_lt hlt
      · rw [update_of_ne hx, update_of_ne hx, bindings]

theorem IsDir.removeEntry (h : IsDir sb s dnum es) (hdistinct : Distinct key es)
    (name : ℕ → Byte) :
    ∃ s' es' ok, s.removeEntry sb dnum name = .ok (s', ok) ∧ IsDir sb s' dnum es' ∧
      Distinct key es' ∧ (ok = false ↔ bindings es (nameKey name) = none) ∧
      bindings es' = update (bindings es) (nameKey name) none := by
  cases hlookup : SlotTable.lookup key es (nameKey name) with
  | none =>
    have habsent : bindings es (nameKey name) = none := bindings_eq_none.mpr hlookup
    refine ⟨_, es, false, h.removeEntry_of_absent hlookup, h.setInode, hdistinct,
      iff_of_true rfl habsent, ?_⟩
    rw [← habsent, update_eq_self]
  | some de =>
    have hslot := getElem?_findIdx hlookup
    have hlt := (List.getElem?_eq_some_iff.mp hslot).1
    obtain ⟨s', hok, hdir, -⟩ := h.store zero hlt.le (.inl hlt)
    obtain ⟨hdistinct', hmap⟩ :=
      hdistinct.lookup_clear hslot (key_of_lookup hlookup) key_zero
    refine ⟨s', _, true, ?_, hdir, hdistinct', ?_, ?_⟩
    · rw [h.removeEntry_of_found hlookup, hok]
      rfl
    · refine iff_of_false nofun ?_
      rw [bindings_eq_none, hlookup]
      exact nofun
    · funext x
      rw [bindings, hmap]
      by_cases hx : x = nameKey name
      · rw [hx, update_self, update_self, map_none]
      · rw [update_of_ne hx, update_of_ne hx, bindings]

end Map

/-! ## Sequences of calls -/

inductive DirAct where
  | dirlink (name : ℕ → Byte) (inum : ℕ)
  | remove (name : ℕ → Byte)

/-- One call on directory `dnum`. -/
def dirStep (sb : Superblock) (dnum : ℕ) (s : FileSystem) : DirAct → Option FileSystem
  | .dirlink name inum => (s.dirlink sb dnum name inum).toOption.map Prod.fst
  | .remove name => (s.removeEntry sb dnum name).toOption.map Prod.fst

/-- The entries of inode `dnum`. -/
def dirEntries (sb : Superblock) (s : FileSystem) (dnum : ℕ) : List Dirent :=
  entries (fileBytes s.disk (s.disk.dinode sb dnum))

/-- The condition on `dirlink`; the removal needs none. -/
def DirGuard (sb : Superblock) (dnum : ℕ) (s : FileSystem) : DirAct → Prop
  | .dirlink name inum => Linkable sb s.disk (dirEntries sb s dnum) name inum
  | .remove _ => True

instance (sb : Superblock) (d : Disk) (count k : ℕ) : Decidable (Room sb d count k) :=
  inferInstanceAs (Decidable (_ ∨ _))

instance (sb : Superblock) (d : Disk) (es : List Dirent) (name : ℕ → Byte) (inum : ℕ) :
    Decidable (Linkable sb d es name inum) :=
  inferInstanceAs (Decidable (_ → _))

instance (sb : Superblock) (dnum : ℕ) (s : FileSystem) (a : DirAct) :
    Decidable (DirGuard sb dnum s a) :=
  match a with
  | .dirlink name inum =>
    inferInstanceAs (Decidable (Linkable sb s.disk (dirEntries sb s dnum) name inum))
  | .remove _ => isTrue trivial

section Runs

variable {sb : Superblock} {s₀ s : FileSystem} {dnum : ℕ}

theorem IsDir.dirEntries_eq {es : List Dirent} (h : IsDir sb s dnum es) :
    dirEntries sb s dnum = es := by
  obtain ⟨f, hf, -, -, hes⟩ := h.file
  rw [dirEntries, (live_of_byteFile hf).2.2, hes]

/-- A directory whose names are distinct. -/
def ProperDir (sb : Superblock) (dnum : ℕ) (s : FileSystem) : Prop :=
  IsDir sb s dnum (dirEntries sb s dnum) ∧ SlotTable.Distinct Dirent.key (dirEntries sb s dnum)

theorem IsDir.proper {es : List Dirent} (h : IsDir sb s dnum es)
    (hdistinct : Distinct key es) : ProperDir sb dnum s := by
  unfold ProperDir
  rw [h.dirEntries_eq]
  exact ⟨h, hdistinct⟩

theorem ProperDir.step {s' : FileSystem} {a : DirAct} (h : ProperDir sb dnum s)
    (hguard : DirGuard sb dnum s a) (hstep : dirStep sb dnum s a = some s') :
    ProperDir sb dnum s' := by
  cases a with
  | dirlink name inum =>
    obtain ⟨t, es', ok, hok, hdir, hdistinct, -⟩ := h.1.dirlink h.2 hguard
    rw [dirStep, hok] at hstep
    cases hstep
    exact hdir.proper hdistinct
  | remove name =>
    obtain ⟨t, es', ok, hok, hdir, hdistinct, -⟩ := h.1.removeEntry h.2 name
    rw [dirStep, hok] at hstep
    cases hstep
    exact hdir.proper hdistinct

/-- In every run in which each `dirlink` of a new name has an inode number that fits and room for the
entry, the names stay distinct and the directory is a finite map: `dirlookup` returns what a name is
bound to and where, `dirlink` fails if and only if the name is bound and otherwise adds the binding,
the removal deletes the binding, and `isdirempty` says whether there is an entry from the third slot
on. -/
theorem directory_refines_map (h : ProperDir sb dnum s₀)
    (hrun : Runs.Reaches (dirStep sb dnum) (DirGuard sb dnum) s₀ s) :
    SlotTable.Distinct Dirent.key (dirEntries sb s dnum) ∧
    (∀ name, ∃ s' r, s.dirlookup sb dnum name = .ok (s', r) ∧
      dirEntries sb s' dnum = dirEntries sb s dnum ∧
      (r = none ↔ bindings (dirEntries sb s dnum) (nameKey name) = none) ∧
      ∀ inum off, r = some (inum, off) ↔ ∃ (k : ℕ) (de : Dirent),
        (dirEntries sb s dnum)[k]? = some de ∧ de.key = some (nameKey name) ∧
          inum = de.inum.toNat ∧ off = Dirent.bytes * k) ∧
    (∀ name inum, DirGuard sb dnum s (.dirlink name inum) →
      ∃ s' ok, s.dirlink sb dnum name inum = .ok (s', ok) ∧
        (ok = false ↔ bindings (dirEntries sb s dnum) (nameKey name) ≠ none) ∧
        (ok = false → dirEntries sb s' dnum = dirEntries sb s dnum) ∧
        (ok = true → bindings (dirEntries sb s' dnum) =
            update (bindings (dirEntries sb s dnum)) (nameKey name) (some inum) ∧
          ∃ k, SlotTable.Vacant Dirent.key (dirEntries sb s dnum) k ∧ dirEntries sb s' dnum =
            SlotTable.store (dirEntries sb s dnum) k (Dirent.link name inum))) ∧
    (∀ name, ∃ s' ok, s.removeEntry sb dnum name = .ok (s', ok) ∧
      (ok = false ↔ bindings (dirEntries sb s dnum) (nameKey name) = none) ∧
      bindings (dirEntries sb s' dnum) =
        update (bindings (dirEntries sb s dnum)) (nameKey name) none) ∧
    ∃ s' r, s.isdirempty sb dnum = .ok (s', r) ∧
      (r = true ↔ ∀ (k : ℕ) de, 2 ≤ k → (dirEntries sb s dnum)[k]? = some de → de.key = none) := by
  have hproper : ProperDir sb dnum s :=
    hrun.invariant h fun _ _ _ hbefore hguard hstep ↦ hbefore.step hguard hstep
  obtain ⟨hdir, hdistinct⟩ := hproper
  refine ⟨hdistinct, ?_, ?_, ?_, ?_⟩
  · intro name
    refine ⟨_, _, hdir.dirlookup name, hdir.setInode.dirEntries_eq, ?_,
      fun inum off ↦ dirlookup_iff hdistinct⟩
    rw [Option.map_eq_none_iff, bindings_eq_none]
  · intro name inum hguard
    obtain ⟨s', es', ok, hok, hdir', -, hiff, hsame, hadd⟩ := hdir.dirlink hdistinct hguard
    rw [← hdir'.dirEntries_eq] at hsame hadd
    exact ⟨s', ok, hok, hiff, hsame, hadd⟩
  · intro name
    obtain ⟨s', es', ok, hok, hdir', -, hiff, hmap⟩ := hdir.removeEntry hdistinct name
    rw [← hdir'.dirEntries_eq] at hmap
    exact ⟨s', ok, hok, hiff, hmap⟩
  · obtain ⟨r, hr, hiff⟩ := hdir.isdirempty
    exact ⟨_, r, hr, hiff⟩

end Runs

/-! ## A directory that is full -/

section Full

open FileSystem

/-- A disk with 252 blocks for data. -/
def roomySuper : Superblock :=
  { size := 256, nblocks := 252, ninodes := 8, inodestart := 2, bmapstart := 3 }

theorem roomySuper_owned : Owned roomySuper smallDisk := by
  apply Owned.of_fresh
  · exact
      { pos := by decide
        small := by decide
        inodes := by decide
        bitmap := by decide +kernel }
  · decide +kernel
  · decide +kernel

/-- Inode 1 has been allocated for a directory. -/
def emptyDir : FileSystem :=
  (Runs.run (step roomySuper) [.ialloc tDir] (boot smallDisk)).get (by decide +kernel)

theorem emptyDir_isDir : IsDir roomySuper emptyDir 1 [] := by
  have hrun : Runs.run (step roomySuper) [.ialloc tDir] (boot smallDisk) = some emptyDir := by
    simp only [emptyDir, some_get]
  have hlive : Live roomySuper (emptyDir.disk.dinode roomySuper) 1 := by decide +kernel
  refine ⟨consistent_of_reaches roomySuper_owned (Runs.reaches_of_run hrun), _,
    byteFile_of_live hlive, ?_, ?_, ?_⟩
  · decide +kernel
  · decide +kernel
  · decide +kernel

/-- The names that are linked: two bytes that tell `k` for `k < 25500`. -/
def numName (k : ℕ) : ℕ → Byte
  | 0 => BitVec.ofNat 8 (k % 100 + 1)
  | 1 => BitVec.ofNat 8 (k / 100 + 1)
  | _ => 0

theorem nameKey_numName {j k : ℕ} (hj : j < 25500) (hk : k < 25500)
    (h : nameKey (numName j) = nameKey (numName k)) : j = k := by
  have hbyte : ∀ n < 255, (BitVec.ofNat 8 (n + 1)).toNat = n + 1 := by
    intro n hn
    rw [toNat_ofNat]
    omega
  have hne : ∀ n < 255, BitVec.ofNat 8 (n + 1) ≠ 0 := by grind
  have hcons : ∀ k < 25500, nameKey (numName k) = BitVec.ofNat 8 (k % 100 + 1) ::
      BitVec.ofNat 8 (k / 100 + 1) :: strncpy (fun n ↦ numName k (n + 1 + 1)) 12 := by
    intro k hk
    have hfirst : nameKey (numName k) = numName k 0 :: strncpy (fun n ↦ numName k (n + 1)) 13 :=
      if_neg (hne (k % 100) (by omega))
    have hsecond : strncpy (fun n ↦ numName k (n + 1)) 13 =
        numName k 1 :: strncpy (fun n ↦ numName k (n + 1 + 1)) 12 :=
      if_neg (hne (k / 100) (by omega))
    rw [hfirst, hsecond]
    rfl
  rw [hcons j hj, hcons k hk] at h
  obtain ⟨hlow, hrest⟩ := cons.inj h
  obtain ⟨hhigh, -⟩ := cons.inj hrest
  have hlow := congrArg BitVec.toNat hlow
  have hhigh := congrArg BitVec.toNat hhigh
  rw [hbyte _ (by omega), hbyte _ (by omega)] at hlow hhigh
  omega

/-- The entries of a directory with `n` links to inode 1. -/
def numbered (n : ℕ) : List Dirent := (List.range n).map fun k ↦ Dirent.link (numName k) 1

theorem length_numbered (n : ℕ) : (numbered n).length = n := by
  rw [numbered, length_map, length_range]

variable {n : ℕ}

theorem getElem?_numbered {k : ℕ} {de : Dirent} :
    (numbered n)[k]? = some de ↔ k < n ∧ de = link (numName k) 1 := by
  rw [numbered, List.getElem?_map, map_eq_some_iff]
  constructor
  · grind
  · rintro ⟨hlt, rfl⟩
    exact ⟨k, List.getElem?_range hlt, rfl⟩

theorem key_numbered (k : ℕ) : (link (numName k) 1).key = some (nameKey (numName k)) :=
  key_link _ (by decide) (by decide)

theorem distinct_numbered (hn : n ≤ 25500) : Distinct key (numbered n) := by
  intro j k a b x hj hk ha hb
  obtain ⟨hjn, rfl⟩ := getElem?_numbered.mp hj
  obtain ⟨hkn, rfl⟩ := getElem?_numbered.mp hk
  rw [key_numbered, some_inj] at ha hb
  exact nameKey_numName (by omega) (by omega) (ha.trans hb.symm)

theorem lookup_numbered (hn : n < 25500) :
    SlotTable.lookup key (numbered n) (nameKey (numName n)) = none := by
  rw [lookup_eq_none]
  intro j de hj hkey
  obtain ⟨hjn, rfl⟩ := getElem?_numbered.mp hj
  rw [key_numbered, some_inj] at hkey
  exact hjn.ne (nameKey_numName (by omega) hn hkey)

theorem freeSlot_numbered (n : ℕ) : IsDir.freeSlot (numbered n) = n := by
  have hused : ∀ de ∈ numbered n, decide (de.inum = 0) = false := by
    intro de hde
    obtain ⟨k, -, rfl⟩ := mem_map.mp hde
    have hone : BitVec.ofNat 16 1 ≠ 0 := by decide
    exact decide_eq_false hone
  rw [IsDir.freeSlot, findIdx_eq_length.mpr hused, length_numbered]

theorem store_numbered (n : ℕ) :
    SlotTable.store (numbered n) n (link (numName n) 1) = numbered (n + 1) := by
  rw [SlotTable.store, length_numbered, if_neg (Nat.lt_irrefl n), numbered, numbered,
    range_succ, map_append, map_singleton]

/-- Link after link, as long as the file can grow. -/
theorem exists_numbered (hn : bytes * n ≤ maxFile * bSize) :
    ∃ s, IsDir roomySuper s 1 (numbered n) ∧
      freeBlocks roomySuper s.disk = 252 - slotsFor (blocksFor (bytes * n)) := by
  induction n with
  | zero => exact ⟨emptyDir, emptyDir_isDir, by decide +kernel⟩
  | succ n ih =>
    have hbefore : bytes * n ≤ bytes * (n + 1) := Nat.mul_le_mul_left _ (Nat.le_succ n)
    obtain ⟨s, hdir, hfree⟩ := ih (hbefore.trans hn)
    have hslots : slotsFor (blocksFor (bytes * (n + 1))) ≤ slotsFor maxFile :=
      slotsFor_mono (blocksFor_le (Nat.mul_comm maxFile bSize ▸ hn))
    have hmax : slotsFor maxFile = 141 := rfl
    have hgrows : slotsFor (blocksFor (bytes * n)) ≤
        slotsFor (blocksFor (bytes * (n + 1))) :=
      slotsFor_mono (Nat.div_le_div_right (Nat.add_le_add_right hbefore _))
    have hroom : Room roomySuper s.disk (numbered n).length n := by
      refine .inr ?_
      rw [length_numbered, hfree]
      exact ⟨hn, by omega⟩
    obtain ⟨s', -, hdir', -, hfree'⟩ :=
      hdir.store (link (numName n) 1) (length_numbered n).ge hroom
    rw [store_numbered] at hdir' hfree'
    refine ⟨s', hdir', ?_⟩
    rw [hfree', hfree, length_numbered, length_numbered]
    omega

/-- The directory is full: it has as many entries as a file can hold, all of them in use, and the disk
has free blocks.  `dirlink` of a new name panics. -/
theorem dirlink_panics_when_full :
    ∃ s, ProperDir roomySuper 1 s ∧ 0 < freeBlocks roomySuper s.disk ∧
      bindings (dirEntries roomySuper s 1) (nameKey (numName 4480)) = none ∧
      s.dirlink roomySuper 1 (numName 4480) 1 = .error .dirlink := by
  obtain ⟨s, hdir, hfree⟩ := exists_numbered (n := 4480) (by decide)
  have habsent := lookup_numbered (n := 4480) (by decide)
  refine ⟨s, hdir.proper (distinct_numbered (by decide)), ?_, ?_, ?_⟩
  · rw [hfree]
    decide
  · rw [hdir.dirEntries_eq, bindings_eq_none, habsent]
  · obtain ⟨f, hf, htype, hlen, -⟩ := hdir.file
    have hshows : s.Shows roomySuper (byteFile roomySuper s.disk) (freeBlocks roomySuper s.disk) :=
      ⟨hdir.consistent, rfl, rfl⟩
    have htakes : ¬ f.Takes (BitVec.ofNat 32 (bytes * 4480)).toNat
        (BitVec.ofNat 32 bytes).toNat := by
      rintro ⟨-, -, hend⟩
      revert hend
      decide
    obtain ⟨s', hok, -⟩ := hshows.writei_fail (link (numName 4480) 1).byte hf
      (htype.trans_ne (by decide)) htakes
    rw [hdir.dirlink_of_absent 1 habsent, freeSlot_numbered, hok]
    rfl

/-- Two names are linked in an empty directory, the first is removed, and a third takes its slot. -/
def slotReused : List DirAct :=
  [.dirlink (numName 7) 1, .dirlink (numName 8) 2, .remove (numName 7), .dirlink (numName 9) 3]

theorem directory_refines_map_reused :
    ∃ s, Runs.runIf (dirStep roomySuper 1) (DirGuard roomySuper 1) slotReused emptyDir = some s ∧
      (dirEntries roomySuper s 1).map (fun de ↦ de.inum.toNat) = [3, 2] ∧
      (s.dirlookup roomySuper 1 (numName 9)).toOption.map Prod.snd = some (some (3, 0)) ∧
      (s.dirlookup roomySuper 1 (numName 7)).toOption.map Prod.snd = some none ∧
      SlotTable.Distinct Dirent.key (dirEntries roomySuper s 1) := by
  have hproper : ProperDir roomySuper 1 emptyDir := emptyDir_isDir.proper nofun
  refine Runs.exists_runIf
    (F := fun s ↦ (dirEntries roomySuper s 1).map (fun de ↦ de.inum.toNat) = [3, 2] ∧
      (s.dirlookup roomySuper 1 (numName 9)).toOption.map Prod.snd = some (some (3, 0)) ∧
      (s.dirlookup roomySuper 1 (numName 7)).toOption.map Prod.snd = some none)
    (by decide +kernel) fun s hs hfacts ↦ ?_
  exact ⟨hfacts.1, hfacts.2.1, hfacts.2.2, (directory_refines_map hproper hs).1⟩

end Full

end Xv6Mmap.Fs
