import Xv6Mmap.Fs.FileBytes
import Xv6Mmap.Fs.Truncation
import Xv6Mmap.Library.Runs

/-!
# The file system at rest

The state is the disk and the inodes that are in memory.  Between two calls the blocks of the files
are in order (`Owned`), and an inode in memory is a copy of the one on disk.
-/

namespace Xv6Mmap.Fs

open Function Library Disk Dinode
open BitVec (lt_def)

/-! ## The model -/

/-- The disk, and the inodes whose copies in memory are valid. -/
structure FileSystem where
  disk : Disk
  icache : ℕ → Option Dinode

/-- The calls that change files: the inode of `readi` and `writei` is locked, `iput` drops a
reference, which may be the last one, and `setLinks` is a change of the other fields of an inode with
the `iupdate` that follows it. -/
inductive FsAct where
  | ilock (inum : ℕ)
  | readi (inum : ℕ) (off n : Word)
  | writei (inum : ℕ) (src : ℕ → Byte) (off n : Word)
  | ialloc (type : BitVec 16)
  | iput (inum : ℕ) (last : Bool)
  | setLinks (inum : ℕ) (major minor nlink : BitVec 16)

namespace FileSystem

variable (sb : Superblock)

def setInode (s : FileSystem) (d : Disk) (inum : ℕ) (ip : Dinode) : FileSystem :=
  ⟨d, update s.icache inum (some ip)⟩

def ilock (s : FileSystem) (inum : ℕ) : Except FsPanic FileSystem :=
  match s.icache inum with
  | some _ => .ok s
  | none =>
    let ip := s.disk.dinode sb inum
    if ip.type = 0 then .error .noType else .ok (s.setInode s.disk inum ip)

/-- `iput` frees the inode if the reference is the last one and there is no link to it. -/
def iput (s : FileSystem) (inum : ℕ) (last : Bool) : Except FsPanic FileSystem :=
  match s.icache inum with
  | none => .ok s
  | some ip =>
    if last = false then .ok s
    else if ip.nlink = 0 then
      (itrunc sb s.disk inum ip).map fun r ↦
        ⟨iupdate sb r.1 inum { r.2 with type := 0 }, update s.icache inum none⟩
    else .ok { s with icache := update s.icache inum none }

/-- A call on an inode that is not locked is not made. -/
def exec (s : FileSystem) : FsAct → Option (Except FsPanic FileSystem)
  | .ilock inum => if 0 < inum ∧ inum < sb.ninodes then some (s.ilock sb inum) else none
  | .readi inum off n => (s.icache inum).map fun ip ↦
      (readi sb s.disk ip off n).map fun r ↦ s.setInode r.1 inum r.2.1
  | .writei inum src off n => (s.icache inum).map fun ip ↦
      (writei sb s.disk inum ip src off n).map fun r ↦ s.setInode r.1 inum r.2.1
  | .ialloc type => some ((ialloc sb s.disk type).map fun r ↦ { s with disk := r.1 })
  | .iput inum last => some (s.iput sb inum last)
  | .setLinks inum major minor nlink => (s.icache inum).map fun ip ↦
      let ip := { ip with major := major, minor := minor, nlink := nlink }
      .ok (s.setInode (iupdate sb s.disk inum ip) inum ip)

def step (s : FileSystem) (a : FsAct) : Option FileSystem := (s.exec sb a).bind Except.toOption

@[simp]
theorem icache_setInode (s : FileSystem) (d : Disk) (inum : ℕ) (ip : Dinode) :
    (s.setInode d inum ip).icache inum = some ip :=
  update_self ..

@[simp]
theorem setInode_setInode (s : FileSystem) (d d' : Disk) (inum : ℕ) (ip ip' : Dinode) :
    (s.setInode d inum ip).setInode d' inum ip' = s.setInode d' inum ip' := by
  unfold setInode
  rw [update_idem]

theorem setInode_eq_self {s : FileSystem} {inum : ℕ} {ip : Dinode} (h : s.icache inum = some ip) :
    s.setInode s.disk inum ip = s := by
  rw [setInode, ← h, update_eq_self]

end FileSystem

/-! ## Files in order -/

/-- The number of blocks of a file. -/
def fileLen (sb : Superblock) (d : Disk) (i : ℕ) : ℕ := blocksFor (d.dinode sb i).size.toNat

/-- Every file has a block for each index below its length and no other, every block number stands
in one slot only, and the bitmap marks the data blocks that stand in a slot and what is not data. -/
structure Owned (sb : Superblock) (d : Disk) : Prop where
  laid : sb.Laid
  short : ∀ i, Live sb (d.dinode sb) i → fileLen sb d i ≤ maxFile
  blocks : ∀ i s, Live sb (d.dinode sb) i →
    (slotAddr d (d.dinode sb i) s ≠ 0 ↔ s.level < fileLen sb d i)
  range : ∀ i s, Live sb (d.dinode sb) i → slotAddr d (d.dinode sb i) s ≠ 0 →
    sb.dataStart ≤ (slotAddr d (d.dinode sb i) s).toNat ∧
      (slotAddr d (d.dinode sb i) s).toNat < sb.size
  once : ∀ i j s t, Live sb (d.dinode sb) i → Live sb (d.dinode sb) j →
    slotAddr d (d.dinode sb i) s ≠ 0 →
    slotAddr d (d.dinode sb i) s = slotAddr d (d.dinode sb j) t → i = j ∧ s = t
  bitmap : ∀ b, sb.dataStart ≤ b → b < sb.size → (d.used sb b = true ↔
    ∃ i s, Live sb (d.dinode sb) i ∧ slotAddr d (d.dinode sb i) s ≠ 0 ∧
      (slotAddr d (d.dinode sb i) s).toNat = b)
  reserved : ∀ b < sb.dataStart, d.used sb b = true

variable {sb : Superblock} {d d' : Disk} {inodes : ℕ → Dinode} {filled : ℕ → Slot → Prop}
  {i : ℕ} {ip : Dinode} {type : BitVec 16}

theorem Owned.booked (h : Owned sb d) : Booked sb d (d.dinode sb) (extents (fileLen sb d)) := { h with
  mapped :=
    { holders := by
        constructor
        · rintro ⟨i, s⟩ ⟨j, t⟩ b hi hj
          obtain ⟨hi, hs, hb⟩ := holding_eq_some.mp hi
          obtain ⟨hj, -, hb'⟩ := holding_eq_some.mp hj
          have heq := h.once i j s t hi hj hs (BitVec.eq_of_toNat_eq (hb.trans hb'.symm))
          exact Prod.ext heq.1 heq.2
        · intro b
          constructor
          · rintro ⟨hlo, hhi, hused⟩
            obtain ⟨i, s, hslot⟩ := (h.bitmap b hlo hhi).mp hused
            exact ⟨(i, s), holding_eq_some.mpr hslot⟩
          · rintro ⟨⟨i, s⟩, hslot⟩
            obtain ⟨hi, hs, rfl⟩ := holding_eq_some.mp hslot
            obtain ⟨hlo, hhi⟩ := h.range i s hi hs
            exact ⟨hlo, hhi, (h.bitmap _ hlo hhi).mpr ⟨i, s, hi, hs, rfl⟩⟩
      range := fun b hb ↦ ⟨hb.1, hb.2.1⟩
      filled := h.blocks } }

theorem Owned.of_booked (h : Booked sb d (d.dinode sb) (extents (fileLen sb d)))
    (hshort : ∀ i, Live sb (d.dinode sb) i → fileLen sb d i ≤ maxFile) : Owned sb d := { h with
  short := hshort
  blocks := h.mapped.filled
  range i s hi hs := h.mapped.range_slot hi hs
  once i j s t hi hj hs heq := h.mapped.unique hi hj hs heq
  bitmap b hlo hhi := by
    constructor
    · intro hused
      obtain ⟨⟨i, s⟩, hslot⟩ := (h.mapped.holders.taken b).mp ⟨hlo, hhi, hused⟩
      exact ⟨i, s, holding_eq_some.mp hslot⟩
    · rintro ⟨i, s, hslot⟩
      exact (h.mapped.taken_of_holding (holding_eq_some.mpr hslot)).2.2 }

section

variable (h : Booked sb d inodes filled) {inodes' : ℕ → Dinode}
include h

/-- Inodes count only as far as they are allocated, and with their addresses. -/
theorem Booked.congr_inodes (hlive : ∀ i, Live sb inodes' i ↔ Live sb inodes i)
    (haddrs : ∀ i, Live sb inodes i → (inodes' i).addrs = (inodes i).addrs) :
    Booked sb d inodes' filled := by
  refine ⟨h.laid, h.mapped.congr hlive ?_ (fun _ _ ↦ .rfl) (fun _ ↦ .rfl), h.reserved⟩
  intro i hi
  have haddr : ∀ k, (inodes' i).addr k = (inodes i).addr k := by
    intro k
    unfold addr
    rw [haddrs i hi]
  funext s
  cases s with
  | direct k | table => exact haddr _
  | entry k =>
    unfold slotAddr
    rw [haddr]

theorem Booked.congr_below
    (heq : ∀ j < sb.ninodes, inodes' j = inodes j) : Booked sb d inodes' filled := by
  apply h.congr_inodes
  · intro j
    unfold Live
    constructor
    · rintro ⟨hpos, hlt, hj⟩
      exact ⟨hpos, hlt, heq j hlt ▸ hj⟩
    · rintro ⟨hpos, hlt, hj⟩
      exact ⟨hpos, hlt, (heq j hlt).symm ▸ hj⟩
  · intro j hj
    rw [heq j hj.2.1]

/-- Writing an inode to the disk does not touch the data and the bitmap. -/
theorem Booked.setDinode (hi : i < sb.ninodes) :
    Booked sb (d.setDinode sb i ip) inodes filled := by
  refine ⟨h.laid, ?_, ?_⟩
  · apply h.mapped.congr (fun _ ↦ .rfl) _ (fun _ _ ↦ .rfl)
    · intro c
      unfold Taken
      rw [used_setDinode h.laid hi]
    · grind [slotAddr_congr, setDinode_of_ge, h.laid, h.mapped.range_table]
  · intro c hc
    rw [used_setDinode h.laid hi]
    exact h.reserved c hc

/-- The copy in memory of inode `i`, which was ahead of the disk, is written. -/
theorem Booked.iupdate (hi : i < sb.ninodes)
    (hothers : ∀ j < sb.ninodes, j ≠ i → d.dinode sb j = inodes j)
    (htype : ip.type ≠ 0 ↔ (inodes i).type ≠ 0) (haddrs : ip.addrs = (inodes i).addrs) :
    Booked sb (d.setDinode sb i ip) ((d.setDinode sb i ip).dinode sb) filled := by
  have hbooked : Booked sb (d.setDinode sb i ip) (update inodes i ip) filled := by
    apply (h.setDinode hi).congr_inodes
    · exact live_update htype
    · grind
  apply hbooked.congr_below
  intro j hj
  by_cases hji : j = i
  · rw [hji, dinode_setDinode_self, update_self]
  · rw [dinode_setDinode_of_ne hji, update_of_ne hji, hothers j hj hji]

end

/-- The blocks are booked for lengths that are those of the files. -/
theorem Owned.of_extents {len : ℕ → ℕ} (h : Booked sb d (d.dinode sb) (extents len))
    (hlen : ∀ i, Live sb (d.dinode sb) i → fileLen sb d i = len i ∧ len i ≤ maxFile) :
    Owned sb d := by
  apply Owned.of_booked
  · apply h.congr_filled
    intro i s hi
    unfold extents
    rw [(hlen i hi).1]
  · intro i hi
    rw [(hlen i hi).1]
    exact (hlen i hi).2

/-! ## `writei` -/

/-- Inode `i` has been written: `n` bytes of `src` lie over its bytes from `off` on, and the other
inodes are what they were. -/
structure Written (sb : Superblock) (d : Disk) (i off n : ℕ) (src : ℕ → Byte) (d' : Disk) : Prop where
  owned : Owned sb d'
  others : ∀ j < sb.ninodes, j ≠ i → d'.dinode sb j = d.dinode sb j
  self : d'.dinode sb i =
    { d.dinode sb i with size := (d'.dinode sb i).size, addrs := (d'.dinode sb i).addrs }
  size : (d'.dinode sb i).size.toNat = max (d.dinode sb i).size.toNat (off + n)
  bytesOthers : ∀ j x, j ≠ i → Live sb (d.dinode sb) j → x < (d.dinode sb j).size.toNat →
    byteAt d' (d'.dinode sb j) x = byteAt d (d.dinode sb j) x
  bytes : ∀ x, x < (d'.dinode sb i).size.toNat →
    byteAt d' (d'.dinode sb i) x = Bytes.splice (byteAt d (d.dinode sb i)) off n src x

/-- The inode stays allocated. -/
theorem Written.live {off n : ℕ} {src : ℕ → Byte} (h : Written sb d i off n src d')
    (hi : Live sb (d.dinode sb) i) : Live sb (d'.dinode sb) i := by
  refine ⟨hi.1, hi.2.1, ?_⟩
  rw [h.self]
  exact hi.2.2

section Writei

variable {off n : ℕ} {src : ℕ → Byte} {ip' : Dinode}

/-- A file that gets no block at its end keeps its addresses. -/
theorem Overlaid.eq_of_le (h : Owned sb d) (hi : Live sb (d.dinode sb) i)
    (hover : Overlaid sb d (d.dinode sb) (fileLen sb d) i off n src d' ip')
    (hle : blocksFor (off + n) ≤ fileLen sb d i) : ip' = d.dinode sb i := by
  have hbooked := hover.booked
  rw [Nat.max_eq_left hle, update_eq_self] at hbooked
  have hslot : ∀ s, slotAddr d' ip' s = slotAddr d (d.dinode sb i) s := by
    intro s
    by_cases hs : slotAddr d (d.dinode sb i) s = 0
    · have hfilled := hbooked.mapped.filled i s ((hover.live i).mpr hi)
      have hempty := h.blocks i s hi
      rw [update_self] at hfilled
      rw [hs]
      by_contra hne
      exact hempty.mpr (hfilled.mp hne) hs
    · exact hover.slots s hs
  have haddrs : ip'.addrs = (d.dinode sb i).addrs := by
    funext e
    have haddr := hslot (.ofAddr e.val)
    rw [slotAddr_ofAddr (Nat.lt_succ_iff.mp e.isLt),
      slotAddr_ofAddr (Nat.lt_succ_iff.mp e.isLt)] at haddr
    simpa only [addr, e.isLt, dite_true] using haddr
  rw [hover.same, haddrs]

/-- The bytes of a file when the disk changes outside the data blocks. -/
theorem Booked.byteAt_congr (h : Booked sb d inodes filled) (hi : Live sb inodes i)
    (hdata : ∀ b, sb.dataStart ≤ b → d' b = d b) {x : ℕ}
    (hx : slotAddr d (inodes i) (.leaf (x / bSize)) ≠ 0) :
    byteAt d' (inodes i) x = byteAt d (inodes i) x := by
  have hslot : slotAddr d' (inodes i) = slotAddr d (inodes i) :=
    slotAddr_congr fun htable ↦ hdata _ (h.mapped.range_table hi htable)
  unfold byteAt blockOf
  rw [hslot, hdata _ (h.mapped.range_slot hi hx).1]

theorem blocksFor_max (m : ℕ) : blocksFor (max off m) = max (blocksFor off) (blocksFor m) := by
  unfold blocksFor
  simp only [bSize]
  omega

/-- The bytes are on the disk `d'`, and the size is on the disk `d''`. -/
theorem Written.of_overlaid {d'' : Disk} (h : Owned sb d) (hi : Live sb (d.dinode sb) i)
    (hoff : off ≤ (d.dinode sb i).size.toNat) (hend : off + n ≤ maxFile * bSize)
    (hover : Overlaid sb d (d.dinode sb) (fileLen sb d) i off n src d' ip')
    (hbooked : Booked sb d'' (d''.dinode sb) (extents
      (update (fileLen sb d) i (max (fileLen sb d i) (blocksFor (off + n))))))
    (hself : d''.dinode sb i = { ip' with size := (d''.dinode sb i).size })
    (hsize : (d''.dinode sb i).size.toNat = max (d.dinode sb i).size.toNat (off + n))
    (hothers : ∀ j < sb.ninodes, j ≠ i → d''.dinode sb j = d.dinode sb j)
    (hdata : ∀ b, sb.dataStart ≤ b → d'' b = d' b) : Written sb d i off n src d'' := by
  have hlen : ∀ j, Live sb (d.dinode sb) j → fileLen sb d'' j =
      update (fileLen sb d) i (max (fileLen sb d i) (blocksFor (off + n))) j := by
    intro j hj
    by_cases hji : j = i
    · rw [hji, update_self, fileLen, hsize, blocksFor_max, fileLen]
    · rw [update_of_ne hji, fileLen, hothers j hj.2.1 hji, fileLen]
  have htype : (d''.dinode sb i).type = (d.dinode sb i).type := by
    rw [hself, hover.same]
  have hlive : ∀ j, Live sb (d''.dinode sb) j → Live sb (d.dinode sb) j := by
    rintro j ⟨hpos, hlt, hj⟩
    refine ⟨hpos, hlt, ?_⟩
    by_cases hji : j = i
    · rw [hji] at hj ⊢
      rwa [htype] at hj
    · rwa [hothers j hlt hji] at hj
  have hstored : ∀ j x, Live sb (d.dinode sb) j → x < (d''.dinode sb j).size.toNat →
      byteAt d'' (update (d.dinode sb) i ip' j) x =
        byteAt d' (update (d.dinode sb) i ip' j) x := by
    intro j x hj hx
    have hj' := (hover.live j).mpr hj
    have hblock := div_lt_blocksFor hx
    change x / bSize < fileLen sb d'' j at hblock
    rw [hlen j hj] at hblock
    exact hover.booked.byteAt_congr hj' hdata
      (filled_of_lt hover.booked hj' hblock (hblock.trans_le (hover.short h.short hend j hj')))
  refine ⟨?_, hothers, ?_, hsize, ?_, ?_⟩
  · grind [Owned.of_extents, hover.short, h.short, hover.live]
  · have hsame := hover.same
    rw [hself, hsame]
  · intro j x hji hj hx
    have hkept := hstored j x hj (hothers j hj.2.1 hji ▸ hx)
    rw [update_of_ne hji] at hkept
    rw [hothers j hj.2.1 hji, hkept]
    exact hover.others j x hji hj (div_lt_blocksFor hx)
  · intro x hx
    have hkept := hstored i x hi hx
    rw [update_self] at hkept
    rw [hself]
    refine hkept.trans (hover.self x ?_)
    rw [hsize] at hx
    rcases lt_max_iff.mp hx with hlt | hlt
    · exact .inl (div_lt_blocksFor hlt)
    · by_cases hmem : off ≤ x
      · exact .inr ⟨hmem, hlt⟩
      · exact .inl (div_lt_blocksFor ((not_le.mp hmem).trans_le hoff))

/-- The write begins in the file or at its end, and ends where a file can end. -/
def Fits (ip : Dinode) (off n : Word) : Prop :=
  off.toNat ≤ ip.size.toNat ∧ off.toNat + n.toNat < 2 ^ 32 ∧
    off.toNat + n.toNat ≤ maxFile * bSize

instance (ip : Dinode) (off n : Word) : Decidable (Fits ip off n) :=
  inferInstanceAs (Decidable (_ ∧ _ ∧ _))

theorem add_lt_iff {off n : Word} : off + n < off ↔ 2 ^ 32 ≤ off.toNat + n.toNat := by
  rw [lt_def, BitVec.toNat_add]
  have hoff := off.isLt
  have hn := n.isLt
  omega

theorem Fits.toNat_add {off n : Word} (h : Fits ip off n) :
    (off + n).toNat = off.toNat + n.toNat := by
  rw [BitVec.toNat_add, Nat.mod_eq_of_lt h.2.1]

theorem writei_of_fits {off n : Word} (hdev : ip.type ≠ tDev) (h : Fits ip off n) :
    writei sb d i ip src off n =
      (writeLoop sb n.toNat d ip src off.toNat n.toNat).map fun r ↦
        if 0 < n ∧ r.2.size < off + n then
          (r.1.setDinode sb i { r.2 with size := off + n }, { r.2 with size := off + n }, .done n)
        else (r.1, r.2, .done n) := by
  have htest : ¬ (ip.size < off ∨ off + n < off) := by
    rw [not_or, add_lt_iff, lt_def, not_lt, not_le]
    exact ⟨h.1, h.2.1⟩
  have hend : ¬ maxFile * bSize < (off + n).toNat := by
    rw [h.toNat_add]
    exact not_lt.mpr h.2.2
  unfold writei
  rw [if_neg hdev, if_neg htest, if_neg hend]
  cases writeLoop sb n.toNat d ip src off.toNat n.toNat with
  | error e => rfl
  | ok r =>
    change (if 0 < n ∧ r.2.size < off + n then _ else _) = Except.ok (if _ then _ else _)
    split
    · rfl
    · rfl

theorem writei_of_not_fits {off n : Word} (hdev : ip.type ≠ tDev) (h : ¬ Fits ip off n) :
    writei sb d i ip src off n = .ok (d, ip, .fail) := by
  unfold writei
  rw [if_neg hdev]
  split
  · rfl
  · rename_i htest
    rw [not_or, add_lt_iff, lt_def, not_lt, not_le] at htest
    have hend : maxFile * bSize < (off + n).toNat := by
      rw [BitVec.toNat_add, Nat.mod_eq_of_lt htest.2]
      by_contra hle
      exact h ⟨htest.1, htest.2, not_lt.mp hle⟩
    rw [if_pos hend]
    rfl

theorem writei_of_device {off n : Word} (hdev : ip.type = tDev) :
    writei sb d i ip src off n = .ok (d, ip, .device) :=
  if_pos hdev

/-- The only panic of `writei` is that of `balloc`. -/
theorem writei_error {off n : Word} {e : FsPanic} (h : writei sb d i ip src off n = .error e) :
    ip.type ≠ tDev ∧ Fits ip off n ∧ e = .outOfBlocks := by
  by_cases hdev : ip.type = tDev
  · rw [writei_of_device hdev] at h
    cases h
  · by_cases hfits : Fits ip off n
    · refine ⟨hdev, hfits, ?_⟩
      rw [writei_of_fits hdev hfits] at h
      exact writeLoop_error hfits.2.2 (Outcome.map_eq_error h)
    · rw [writei_of_not_fits hdev hfits] at h
      cases h

/-- What `writei` does to files in order. -/
theorem Owned.writei_fits {off n : Word} (h : Owned sb d) (hi : Live sb (d.dinode sb) i)
    (hdev : (d.dinode sb i).type ≠ tDev) (hfits : Fits (d.dinode sb i) off n)
    {r : IoResult Word} (hok : writei sb d i (d.dinode sb i) src off n = .ok (d', ip', r)) :
    r = .done n ∧ ip' = d'.dinode sb i ∧ Written sb d i off.toNat n.toNat src d' := by
  rw [writei_of_fits hdev hfits] at hok
  obtain ⟨⟨d₁, ip₁⟩, hloop, hok⟩ := Outcome.map_eq_ok hok
  have hstart : off.toNat ≤ bSize * fileLen sb d i := hfits.1.trans (le_blocksFor _)
  have hover := writeLoop_spec le_rfl h.booked h.short hi hstart hfits.2.2 hloop
  have hsize : ip₁.size = (d.dinode sb i).size := by rw [hover.same]
  change (if 0 < n ∧ ip₁.size < off + n then _ else _) = _ at hok
  by_cases hgrow : 0 < n ∧ ip₁.size < off + n
  · rw [if_pos hgrow] at hok
    cases hok
    have hlt := hgrow.2
    rw [lt_def, hsize, hfits.toNat_add] at hlt
    have hself : (d₁.setDinode sb i { ip₁ with size := off + n }).dinode sb i =
        { ip₁ with size := off + n } := dinode_setDinode_self ..
    refine ⟨rfl, hself.symm, ?_⟩
    apply Written.of_overlaid h hi hfits.1 hfits.2.2 hover
    · apply hover.booked.iupdate hi.2.1
      · intro j hj hji
        rw [update_of_ne hji]
        exact hover.dinodes j hj
      · rw [update_self]
      · rw [update_self]
    · rw [hself]
    · rw [hself, Nat.max_eq_right hlt.le]
      exact hfits.toNat_add
    · intro j hj hji
      exact (dinode_setDinode_of_ne hji _).trans (hover.dinodes j hj)
    · intro b hb
      exact setDinode_of_ge h.laid hi.2.1 hb
  · rw [if_neg hgrow] at hok
    cases hok
    have hle : off.toNat + n.toNat ≤ (d.dinode sb i).size.toNat := by
      rw [hsize, lt_def, lt_def, hfits.toNat_add] at hgrow
      have hoff := hfits.1
      have hzero : (0 : Word).toNat = 0 := rfl
      omega
    have hblocks : blocksFor (off.toNat + n.toNat) ≤ fileLen sb d i :=
      Nat.div_le_div_right (Nat.add_le_add_right hle _)
    have hself := Overlaid.eq_of_le h hi hover hblocks
    have hdinode := hover.dinodes i hi.2.1
    refine ⟨rfl, hself.trans hdinode.symm, ?_⟩
    apply Written.of_overlaid h hi hfits.1 hfits.2.2 hover
    · grind [hover.booked.congr_below, update_apply, hover.dinodes]
    · rw [hself, hdinode]
    · rw [hdinode, Nat.max_eq_left hle]
    · exact fun j hj _ ↦ hover.dinodes j hj
    · exact fun _ _ ↦ rfl

end Writei

/-! ## `readi` -/

/-- The result of `readi` where the file has its blocks. -/
def readResult (d : Disk) (ip : Dinode) (off n : Word) : IoResult (List Byte) :=
  if ip.type = tDev then .device
  else if off.toNat ≤ ip.size.toNat ∧ off.toNat + n.toNat < 2 ^ 32 then
    .done ((List.range (readCount ip off n)).map fun k ↦ byteAt d ip (off.toNat + k))
  else .fail

/-- `readi` of a file in order changes nothing and does not panic. -/
theorem Owned.readi_eq (h : Owned sb d) (hi : Live sb (d.dinode sb) i) (off n : Word) :
    readi sb d (d.dinode sb i) off n =
      .ok (d, d.dinode sb i, readResult d (d.dinode sb i) off n) := by
  unfold readResult
  by_cases hdev : (d.dinode sb i).type = tDev
  · rw [if_pos hdev, readi, if_pos hdev]
    rfl
  · rw [if_neg hdev]
    by_cases hin : off.toNat ≤ (d.dinode sb i).size.toNat ∧ off.toNat + n.toNat < 2 ^ 32
    · rw [if_pos hin]
      apply Fs.readi_eq hdev hin.1
      · rw [← BitVec.not_lt, add_lt_iff]
        exact not_le.mpr hin.2
      · intro k hk
        have hlt : off.toNat + k < (d.dinode sb i).size.toNat := by
          unfold readCount at hk
          omega
        have hblock := div_lt_blocksFor hlt
        have hmax := hblock.trans_le (h.short i hi)
        exact ⟨hmax, filled_of_lt h.booked hi hblock hmax⟩
    · have htest : (d.dinode sb i).size < off ∨ off + n < off := by
        rw [add_lt_iff, lt_def]
        omega
      rw [if_neg hin, readi, if_neg hdev, if_pos htest]
      rfl

/-! ## `ialloc` and `iput` -/

theorem slotAddr_eq_zero (h : ∀ k, ip.addr k = 0) (s : Slot) : slotAddr d ip s = 0 := by
  cases s with
  | direct k | table => exact h _
  | entry k => exact slotAddr_entry_zero (h _) k

/-- One file is empty, and the other files are as they were. -/
theorem Owned.of_emptied (h : Owned sb d)
    (hbooked : Booked sb d' (d'.dinode sb) fun j s ↦ extents (fileLen sb d) j s ∧ j ≠ i)
    (hsize : (d'.dinode sb i).size = 0)
    (hothers : ∀ j < sb.ninodes, j ≠ i → d'.dinode sb j = d.dinode sb j) : Owned sb d' := by
  have hextents : Booked sb d' (d'.dinode sb) (extents (update (fileLen sb d) i 0)) := by
    apply hbooked.congr_filled
    intro j s _
    unfold extents
    by_cases hj : j = i
    · rw [hj, update_self]
      exact iff_of_false (Nat.not_lt_zero _) fun hh ↦ hh.2 rfl
    · rw [update_of_ne hj]
      exact (and_iff_left hj).symm
  apply Owned.of_extents hextents
  intro j hj
  by_cases hji : j = i
  · rw [hji, update_self, fileLen, hsize]
    exact ⟨rfl, Nat.zero_le _⟩
  · have hj' := hj
    unfold Live at hj'
    rw [hothers j hj.2.1 hji] at hj'
    rw [update_of_ne hji, fileLen, hothers j hj.2.1 hji]
    exact ⟨rfl, h.short j hj'⟩

/-- An inode without blocks is written over an inode without blocks. -/
theorem Owned.replace (h : Owned sb d) (hi : i < sb.ninodes)
    (hbefore : Live sb (d.dinode sb) i → ∀ s, slotAddr d (d.dinode sb i) s = 0)
    (haddrs : ∀ k, ip.addr k = 0) (hsize : ip.size = 0) : Owned sb (d.setDinode sb i ip) := by
  have hself : (d.setDinode sb i ip).dinode sb i = ip := dinode_setDinode_self ..
  have hothers : ∀ j, j ≠ i → (d.setDinode sb i ip).dinode sb j = d.dinode sb j :=
    fun j hj ↦ dinode_setDinode_of_ne hj ip
  have hlisted : Booked sb d ((d.setDinode sb i ip).dinode sb)
      (fun j s ↦ extents (fileLen sb d) j s ∧ j ≠ i) := by
    refine ⟨h.laid, h.booked.mapped.enlist hothers hbefore ?_, h.reserved⟩
    rw [hself]
    exact slotAddr_eq_zero haddrs
  apply h.of_emptied (hlisted.setDinode hi)
  · rw [hself, hsize]
  · exact fun j _ hj ↦ hothers j hj

/-- `ialloc` takes a free inode. -/
theorem ialloc_spec (hok : ialloc sb d type = .ok (d', i)) :
    0 < i ∧ i < sb.ninodes ∧ (d.dinode sb i).type = 0 ∧
      d' = d.setDinode sb i { zero with type := type } := by grind [ialloc]

theorem ialloc_error {e : FsPanic} (h : ialloc sb d type = .error e) :
    e = .noInodes := by
  unfold ialloc at h
  split at h
  · cases h
  · cases h
    rfl

theorem Owned.ialloc (h : Owned sb d) (hok : Fs.ialloc sb d type = .ok (d', i)) :
    Owned sb d' := by
  obtain ⟨-, hi, hfree, rfl⟩ := ialloc_spec hok
  exact h.replace hi (fun hlive ↦ (hlive.2.2 hfree).elim) addr_zero rfl

/-- `itrunc` of a file in order does not panic, and empties the file. -/
theorem Owned.itrunc (h : Owned sb d) (hi : Live sb (d.dinode sb) i) :
    ∃ d', Fs.itrunc sb d i (d.dinode sb i) = .ok (d', (d.dinode sb i).truncated) ∧ Owned sb d' ∧
      d'.dinode sb i = (d.dinode sb i).truncated ∧
      (∀ j < sb.ninodes, j ≠ i → d'.dinode sb j = d.dinode sb j) ∧
      ∀ b, sb.dataStart ≤ b → d' b = d b := by
  obtain ⟨d₁, hok, hcleared⟩ := itrunc_eq h.booked hi
  have hself : (d₁.setDinode sb i (d.dinode sb i).truncated).dinode sb i =
      (d.dinode sb i).truncated := dinode_setDinode_self ..
  have hothers : ∀ j < sb.ninodes, j ≠ i →
      (d₁.setDinode sb i (d.dinode sb i).truncated).dinode sb j = d.dinode sb j :=
    fun j hj hji ↦ (dinode_setDinode_of_ne hji _).trans (hcleared.dinodes j hj)
  refine ⟨_, hok, ?_, hself, hothers, ?_⟩
  · apply h.of_emptied _ (congrArg Dinode.size hself) hothers
    apply (h.booked.truncate hi hcleared).congr_below
    intro j hj
    by_cases hji : j = i
    · rw [hji, hself, update_self]
    · rw [hothers j hj hji, update_of_ne hji]
  · intro b hb
    exact (setDinode_of_ge h.laid hi.2.1 hb).trans (hcleared.data b hb)

/-- The fields of an inode other than its type, its size and its addresses. -/
theorem Owned.setDinode (h : Owned sb d) (hi : i < sb.ninodes)
    (htype : ip.type = (d.dinode sb i).type) (hsize : ip.size = (d.dinode sb i).size)
    (haddrs : ip.addrs = (d.dinode sb i).addrs) : Owned sb (d.setDinode sb i ip) := by
  have hbooked := h.booked.iupdate hi (fun _ _ _ ↦ rfl) (by rw [htype]) haddrs
  have hlen : ∀ j, fileLen sb (d.setDinode sb i ip) j = fileLen sb d j := by
    intro j
    unfold fileLen
    by_cases hj : j = i
    · rw [hj, dinode_setDinode_self, hsize]
    · rw [dinode_setDinode_of_ne hj]
  apply Owned.of_extents hbooked
  intro j hj
  refine ⟨hlen j, h.short j ⟨hj.1, hj.2.1, ?_⟩⟩
  have hlive := hj.2.2
  by_cases hji : j = i
  · rwa [hji, dinode_setDinode_self, htype, ← hji] at hlive
  · rwa [dinode_setDinode_of_ne hji] at hlive

end Xv6Mmap.Fs
