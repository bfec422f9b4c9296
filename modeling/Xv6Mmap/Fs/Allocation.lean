import Xv6Mmap.Fs.BlockMap

/-!
# Allocation: `balloc` and `bmap`

The bitmap of the kernel marks the blocks before the data area and the data blocks that stand in a
slot.  `bmap` for the next block of a file takes a free block for it, and maybe one for the indirect
block; for the blocks that a file has it changes nothing.
-/

namespace Xv6Mmap.Fs

open Function Library Outcome Slot Disk Dinode

/-- A data block that is marked in the bitmap. -/
def Taken (sb : Superblock) (d : Disk) (b : ℕ) : Prop :=
  sb.dataStart ≤ b ∧ b < sb.size ∧ d.used sb b = true

/-- The bitmap is right: it marks what is not data, and the data blocks that stand in a slot. -/
structure Booked (sb : Superblock) (d : Disk) (inodes : ℕ → Dinode) (filled : ℕ → Slot → Prop) :
    Prop where
  laid : sb.Laid
  mapped : Mapped sb d inodes filled (Taken sb d)
  reserved : ∀ b < sb.dataStart, d.used sb b = true

/-- Inodes get more blocks, and the blocks that they have stay. -/
structure Grows (sb : Superblock) (d : Disk) (inodes : ℕ → Dinode) (d' : Disk)
    (inodes' : ℕ → Dinode) : Prop where
  live : ∀ i, Live sb inodes' i ↔ Live sb inodes i
  slots : ∀ i s, Live sb inodes i → slotAddr d (inodes i) s ≠ 0 →
    slotAddr d' (inodes' i) s = slotAddr d (inodes i) s
  data : ∀ i s, Live sb inodes i → s ≠ .table → slotAddr d (inodes i) s ≠ 0 →
    d' (slotAddr d (inodes i) s).toNat = d (slotAddr d (inodes i) s).toNat
  dinodes : ∀ i < sb.ninodes, d'.dinode sb i = d.dinode sb i

variable {sb : Superblock} {d d' d'' : Disk} {inodes inodes' inodes'' : ℕ → Dinode}
  {filled filled' : ℕ → Slot → Prop} {ip ip' : Dinode} {i b bn k : ℕ} {e : FsPanic} {table : ℕ}

namespace Grows

theorem refl (d : Disk) (inodes : ℕ → Dinode) : Grows sb d inodes d inodes :=
  ⟨fun _ ↦ .rfl, fun _ _ _ _ ↦ rfl, fun _ _ _ _ _ ↦ rfl, fun _ _ ↦ rfl⟩

theorem trans (h : Grows sb d inodes d' inodes') (h' : Grows sb d' inodes' d'' inodes'') :
    Grows sb d inodes d'' inodes'' where
  live i := (h'.live i).trans (h.live i)
  slots i s hi hs := by
    have hslot := h.slots i s hi hs
    rw [h'.slots i s ((h.live i).mpr hi) (hslot.symm ▸ hs), hslot]
  data i s hi hleaf hs := by
    have hslot := h.slots i s hi hs
    have hdata := h'.data i s ((h.live i).mpr hi) hleaf (hslot.symm ▸ hs)
    rw [hslot] at hdata
    exact hdata.trans (h.data i s hi hleaf hs)
  dinodes i hi := (h'.dinodes i hi).trans (h.dinodes i hi)

end Grows

/-- Writing a data block does not touch the bitmap. -/
theorem taken_update_of_ge (h : sb.Laid) (hb : sb.dataStart ≤ b) {block : Block} (c : ℕ) :
    Taken sb (update d b block) c ↔ Taken sb d c := by
  unfold Taken
  constructor
  · rintro ⟨hlo, hhi, hused⟩
    exact ⟨hlo, hhi, (used_update_of_ge h hhi hb).symm.trans hused⟩
  · rintro ⟨hlo, hhi, hused⟩
    exact ⟨hlo, hhi, (used_update_of_ge h hhi hb).trans hused⟩

/-! ## `balloc` -/

theorem balloc_error (h : balloc sb d = .error e) : e = .outOfBlocks := by
  unfold balloc at h
  split at h
  · cases h
  · cases h
    rfl

namespace Booked

section

variable (h : Booked sb d inodes filled)
include h

theorem dataStart_pos : 0 < sb.dataStart :=
  Nat.zero_lt_of_lt (h.laid.bitmap 0 h.laid.pos)

/-- `balloc` finds a data block that is free. -/
theorem balloc_spec (hok : balloc sb d = .ok (d', b)) :
    sb.dataStart ≤ b ∧ b < sb.size ∧ d.used sb b = false ∧ d' = (d.mark sb b).bzero b := by
  unfold balloc at hok
  split at hok
  · grind [h.reserved]
  · cases hok

omit h in
theorem not_taken (h : d.used sb b = false) : ¬ Taken sb d b := by
  rintro ⟨-, -, hused⟩
  rw [h] at hused
  cases hused

theorem used_balloc (hlo : sb.dataStart ≤ b) {c : ℕ} (hc : c < sb.size) :
    ((d.mark sb b).bzero b).used sb c = (d.used sb c || decide (c = b)) := by
  rw [bzero, used_update_of_ge h.laid hc hlo, used_mark]

theorem balloc_of_ne (hhi : b < sb.size) {c : ℕ} (hc : sb.dataStart ≤ c) (hne : c ≠ b) :
    ((d.mark sb b).bzero b) c = d c := by
  rw [bzero, update_of_ne hne, mark_of_ge h.laid hhi hc]

theorem dinode_balloc (hlo : sb.dataStart ≤ b) (hi : i < sb.ninodes) :
    ((d.mark sb b).bzero b).dinode sb i = d.dinode sb i := by
  rw [bzero, dinode_update_of_ge h.laid hi hlo, dinode_mark h.laid hi]

section

variable (hhi : b < sb.size) (hfree : d.used sb b = false)
include hhi hfree

/-- The blocks that stand in slots stay. -/
theorem balloc_slot (hi : Live sb inodes i) {s : Slot} (hs : slotAddr d (inodes i) s ≠ 0) :
    ((d.mark sb b).bzero b) (slotAddr d (inodes i) s).toNat =
      d (slotAddr d (inodes i) s).toNat := by
  apply h.balloc_of_ne hhi (h.mapped.range_slot hi hs).1
  intro heq
  have htaken := h.mapped.taken_of_holding (holding_of_live hi hs)
  rw [heq] at htaken
  exact not_taken hfree htaken

theorem slotAddr_balloc (hi : Live sb inodes i) :
    slotAddr ((d.mark sb b).bzero b) (inodes i) = slotAddr d (inodes i) :=
  slotAddr_congr fun htable ↦ h.balloc_slot (s := .table) hhi hfree hi htable

/-- After `balloc` the new block is not in a slot yet. -/
theorem mapped_balloc :
    Mapped sb ((d.mark sb b).bzero b) inodes filled (Taken sb d) :=
  h.mapped.congr (fun _ ↦ .rfl) (fun _ hi ↦ h.slotAddr_balloc hhi hfree hi)
    (fun _ _ ↦ .rfl) fun _ ↦ .rfl

end

theorem taken_balloc (hlo : sb.dataStart ≤ b) (hhi : b < sb.size) (c : ℕ) :
    Taken sb ((d.mark sb b).bzero b) c ↔ Taken sb d c ∨ c = b := by
  unfold Taken
  constructor
  · rintro ⟨hclo, hchi, hused⟩
    rw [h.used_balloc hlo hchi, Bool.or_eq_true, decide_eq_true_eq] at hused
    exact hused.imp (fun hc ↦ ⟨hclo, hchi, hc⟩) id
  · grind [h.used_balloc]

theorem reserved_balloc (hlo : sb.dataStart ≤ b) (hhi : b < sb.size) {c : ℕ} (hc : c < sb.dataStart)
    : ((d.mark sb b).bzero b).used sb c = true := by
  rw [h.used_balloc hlo (hc.trans (hlo.trans_lt hhi)), h.reserved c hc]
  rfl

theorem congr_filled (hfilled : ∀ i s, Live sb inodes i → (filled' i s ↔ filled i s)) :
    Booked sb d inodes filled' :=
  ⟨h.laid, ⟨h.mapped.holders, h.mapped.range,
    fun i s hi ↦ (h.mapped.filled i s hi).trans (hfilled i s hi).symm⟩, h.reserved⟩

theorem isAddr (hlo : sb.dataStart ≤ b) (hhi : b < sb.size) : IsAddr b :=
  ⟨h.dataStart_pos.trans_le hlo, hhi.trans_le (h.laid.small.trans (by decide))⟩

end

end Booked

/-! ## `bmap` -/

/-- The inode in memory may have got addresses that the one on disk does not have. -/
def Dinode.SameBut (ip ip' : Dinode) : Prop := ip' = { ip with addrs := ip'.addrs }

theorem Dinode.SameBut.refl (ip : Dinode) : ip.SameBut ip := rfl

theorem Dinode.SameBut.trans {ip'' : Dinode} (h : ip.SameBut ip') (h' : ip'.SameBut ip'') :
    ip.SameBut ip'' := by
  unfold SameBut at *
  rw [h', h]

theorem Dinode.sameBut_setAddr (ip : Dinode) (k : ℕ) (value : Word) :
    ip.SameBut (ip.setAddr k value) := rfl

theorem bmapAddr_of_ne (h : ip.addr k ≠ 0) :
    bmapAddr sb d ip k = .ok (d, ip, (ip.addr k).toNat) :=
  if_neg h

theorem bmapAddr_of_zero (h : ip.addr k = 0) :
    bmapAddr sb d ip k = (balloc sb d).map fun r ↦ (r.1, ip.setAddr k (.ofNat 32 r.2), r.2) := by
  unfold bmapAddr
  rw [if_pos h]
  cases balloc sb d with
  | error e | ok r => rfl

theorem bmapEntry_of_ne (h : (d table).uint k ≠ 0) :
    bmapEntry sb d table k = .ok (d, ((d table).uint k).toNat) :=
  if_neg h

theorem bmapEntry_of_zero (h : (d table).uint k = 0) :
    bmapEntry sb d table k = (balloc sb d).map fun r ↦
      (update r.1 table ((r.1 table).setUint k (.ofNat 32 r.2)), r.2) := by
  unfold bmapEntry
  rw [if_pos h]
  cases balloc sb d with
  | error e | ok r => rfl

theorem bmap_direct (h : bn < nDirect) : bmap sb d ip bn = bmapAddr sb d ip bn := if_pos h

theorem bmap_entry (hlo : nDirect ≤ bn) (hhi : bn - nDirect < nIndirect) :
    bmap sb d ip bn = (bmapAddr sb d ip nDirect).bind fun r ↦
      (bmapEntry sb r.1 r.2.2 (bn - nDirect)).map fun q ↦ (q.1, r.2.1, q.2) := by
  unfold bmap
  rw [if_neg (not_lt.mpr hlo), if_pos hhi]
  cases bmapAddr sb d ip nDirect with
  | error e => rfl
  | ok r =>
    obtain ⟨d, ip, table⟩ := r
    change (bmapEntry sb d table (bn - nDirect) >>= _) = (bmapEntry sb d table (bn - nDirect)).map _
    cases bmapEntry sb d table (bn - nDirect) with
    | error e | ok q => rfl

/-- A block that the file has is found without a change. -/
theorem bmap_of_ne (hbn : bn < maxFile) (h : slotAddr d ip (leaf bn) ≠ 0) :
    bmap sb d ip bn = .ok (d, ip, blockOf d ip bn) := by
  unfold blockOf
  by_cases hlo : bn < nDirect
  · rw [leaf_direct hlo] at h ⊢
    rw [bmap_direct hlo, bmapAddr_of_ne h]
    rfl
  · have hlo := not_lt.mp hlo
    have hhi := entry_lt hlo hbn
    rw [leaf_entry hlo hhi] at h ⊢
    have htable : ip.addr nDirect ≠ 0 := fun hzero ↦ h (slotAddr_entry_zero hzero _)
    rw [slotAddr_entry htable] at h ⊢
    rw [bmap_entry hlo hhi, bmapAddr_of_ne htable]
    change (bmapEntry sb d (ip.addr nDirect).toNat (bn - nDirect)).map _ = _
    rw [bmapEntry_of_ne h]
    rfl

namespace Booked

/-- `addrs[k]` gets a block if it has none. -/
theorem bmapAddr_spec (h : Booked sb d inodes filled) (hi : Live sb inodes i) (hk : k ≤ nDirect)
    (hok : bmapAddr sb d (inodes i) k = .ok (d', ip', b)) :
    Booked sb d' (update inodes i ip')
        (fun j s ↦ filled j s ∨ (j, s) = (i, ofAddr k)) ∧
      Grows sb d inodes d' (update inodes i ip') ∧ (inodes i).SameBut ip' ∧
      ip'.addr k ≠ 0 ∧ (ip'.addr k).toNat = b := by
  by_cases hzero : (inodes i).addr k = 0
  · rw [bmapAddr_of_zero hzero] at hok
    obtain ⟨⟨d₁, c⟩, halloc, hpair⟩ := map_eq_ok hok
    cases hpair
    obtain ⟨hlo, hhi, hfree, rfl⟩ := h.balloc_spec halloc
    have hb := h.isAddr hlo hhi
    have hnew : ((d.mark sb c).bzero c) c = .zero := update_self ..
    have hmapped := (h.mapped_balloc hhi hfree).fill_addr hi hk hzero (not_taken hfree) hlo hhi
      hb hnew
    have haddr : ((inodes i).setAddr k (.ofNat 32 c)).addr k = .ofNat 32 c :=
      addr_setAddr_self (Nat.lt_succ_of_le hk) _
    refine ⟨⟨h.laid, ?_, ?_⟩, ⟨?_, ?_, ?_, ?_⟩, sameBut_setAddr _ _ _, ?_, ?_⟩
    · exact hmapped.congr (fun _ ↦ .rfl) (fun _ _ ↦ rfl) (fun _ _ ↦ .rfl)
        (h.taken_balloc hlo hhi)
    · exact fun _ hc ↦ h.reserved_balloc hlo hhi hc
    · exact live_update .rfl
    · intro j s hj hs
      have hother : (j, s) ≠ (i, ofAddr k) := by grind [slotAddr_ofAddr]
      rw [slotAddr_fill_addr hzero hb hnew hother, h.slotAddr_balloc hhi hfree hj]
    · exact fun j s hj _ hs ↦ h.balloc_slot hhi hfree hj hs
    · exact fun j hj ↦ h.dinode_balloc hlo hj
    · rw [haddr]
      exact hb.ofNat_ne
    · rw [haddr, hb.toNat_ofNat]
  · rw [bmapAddr_of_ne hzero] at hok
    cases hok
    rw [update_eq_self]
    refine ⟨?_, .refl d inodes, .refl _, hzero, rfl⟩
    apply h.congr_filled
    intro j s hj
    apply or_iff_left_of_imp
    intro heq
    obtain ⟨rfl, rfl⟩ := Prod.mk.inj heq
    rw [← h.mapped.filled j _ hj, slotAddr_ofAddr hk]
    exact hzero

theorem bmapAddr_error (h : bmapAddr sb d ip k = .error e) : e = .outOfBlocks := by
  by_cases hzero : ip.addr k = 0
  · rw [bmapAddr_of_zero hzero] at h
    exact balloc_error (map_eq_error h)
  · rw [bmapAddr_of_ne hzero] at h
    cases h

theorem bmapEntry_error (h : bmapEntry sb d table k = .error e) :
    e = .outOfBlocks := by
  by_cases hzero : (d table).uint k = 0
  · rw [bmapEntry_of_zero hzero] at h
    exact balloc_error (map_eq_error h)
  · rw [bmapEntry_of_ne hzero] at h
    cases h

/-- An entry of the indirect block gets a block if it has none. -/
theorem bmapEntry_spec {k : Fin nIndirect} (h : Booked sb d inodes filled) (hi : Live sb inodes i)
    (htable : (inodes i).addr nDirect ≠ 0)
    (hok : bmapEntry sb d ((inodes i).addr nDirect).toNat k.val = .ok (d', b)) :
    Booked sb d' inodes (fun j s ↦ filled j s ∨ (j, s) = (i, .entry k)) ∧
      Grows sb d inodes d' inodes ∧ slotAddr d' (inodes i) (.entry k) ≠ 0 ∧
      (slotAddr d' (inodes i) (.entry k)).toNat = b := by
  by_cases hzero : (d ((inodes i).addr nDirect).toNat).uint k.val = 0
  · rw [bmapEntry_of_zero hzero] at hok
    obtain ⟨⟨d₁, c⟩, halloc, hpair⟩ := map_eq_ok hok
    cases hpair
    obtain ⟨hlo, hhi, hfree, rfl⟩ := h.balloc_spec halloc
    have hb := h.isAddr hlo hhi
    have hsame : ((d.mark sb c).bzero c) ((inodes i).addr nDirect).toNat =
        d ((inodes i).addr nDirect).toNat := h.balloc_slot (s := .table) hhi hfree hi htable
    have hmapped := h.mapped_balloc hhi hfree
    have hdata := h.mapped.range_table hi htable
    have hempty : (((d.mark sb c).bzero c) ((inodes i).addr nDirect).toNat).uint k.val = 0 := by
      rw [hsame]
      exact hzero
    refine ⟨⟨h.laid, ?_, ?_⟩, ⟨fun _ ↦ .rfl, ?_, ?_, ?_⟩, ?_, ?_⟩
    · apply (hmapped.fill_entry hi htable hempty (not_taken hfree) hlo hhi hb).congr
        (fun _ ↦ .rfl) (fun _ _ ↦ rfl) fun _ _ ↦ .rfl
      intro x
      rw [taken_update_of_ge h.laid hdata]
      exact h.taken_balloc hlo hhi x
    · grind [used_update_of_ge, h.laid, hlo.trans_lt, h.reserved_balloc]
    · intro j s hj hs
      have hother : (j, s) ≠ (i, .entry k) := by grind [slotAddr_entry]
      rw [hmapped.slotAddr_fill_entry hi htable hj hother, h.slotAddr_balloc hhi hfree hj]
    · intro j s hj hleaf hs
      have hne : (slotAddr d (inodes j) s).toNat ≠ ((inodes i).addr nDirect).toNat := by
        intro heq
        have haddr : slotAddr d (inodes j) s = slotAddr d (inodes i) .table :=
          BitVec.eq_of_toNat_eq heq
        exact hleaf (h.mapped.unique hj hi hs haddr).2
      rw [update_of_ne hne]
      exact h.balloc_slot hhi hfree hj hs
    · intro j hj
      rw [dinode_update_of_ge h.laid hj hdata]
      exact h.dinode_balloc hlo hj
    · rw [slotAddr_entry htable, update_self, Block.uint_setUint_self k.isLt]
      exact hb.ofNat_ne
    · rw [slotAddr_entry htable, update_self, Block.uint_setUint_self k.isLt]
      exact hb.toNat_ofNat
  · rw [bmapEntry_of_ne hzero] at hok
    cases hok
    refine ⟨?_, .refl d inodes, ?_, ?_⟩
    · apply h.congr_filled
      intro j s hj
      apply or_iff_left_of_imp
      intro heq
      obtain ⟨rfl, rfl⟩ := Prod.mk.inj heq
      rw [← h.mapped.filled j _ hj, slotAddr_entry htable]
      exact hzero
    · rw [slotAddr_entry htable]
      exact hzero
    · rw [slotAddr_entry htable]

end Booked

/-! ## A file grows by one block -/

/-- Every file has its first `len` blocks. -/
def extents (len : ℕ → ℕ) (i : ℕ) (s : Slot) : Prop := s.level < len i

theorem Slot.level_eq_direct (h : bn < nDirect) (s : Slot) :
    s.level = bn ↔ s = .direct ⟨bn, h⟩ := by
  cases s with
  | direct k => simp [level, Fin.ext_iff]
  | table => exact iff_of_false (Nat.ne_of_gt h) nofun
  | entry k =>
    refine iff_of_false ?_ nofun
    simp only [level]
    omega

theorem Slot.level_eq_entry (hlo : nDirect ≤ bn) (hhi : bn - nDirect < nIndirect) (s : Slot) :
    s.level = bn ↔ s = .entry ⟨bn - nDirect, hhi⟩ ∨ (s = .table ∧ bn = nDirect) := by
  cases s with
  | direct k =>
    have hk := k.isLt
    simp [level]
    omega
  | table => simp [level, eq_comm]
  | entry k =>
    simp [level, Fin.ext_iff]
    omega

theorem extents_succ (len : ℕ → ℕ) (i j : ℕ) (s : Slot) :
    extents (update len i (len i + 1)) j s ↔
      extents len j s ∨ (j = i ∧ s.level = len i) := by
  unfold extents
  by_cases hj : j = i
  · subst hj
    rw [update_self]
    simp only [true_and]
    exact Nat.lt_succ_iff_lt_or_eq
  · rw [update_of_ne hj]
    simp [hj]

namespace Booked

variable {len : ℕ → ℕ}

/-- `bmap` for a block that the file has, or for the one after the last. -/
theorem bmap_spec (h : Booked sb d inodes (extents len)) (hi : Live sb inodes i) (hle : bn ≤ len i)
    (hbn : bn < maxFile) (hok : bmap sb d (inodes i) bn = .ok (d', ip', b)) :
    Booked sb d' (update inodes i ip')
        (extents (update len i (max (len i) (bn + 1)))) ∧
      Grows sb d inodes d' (update inodes i ip') ∧ (inodes i).SameBut ip' ∧
      slotAddr d' ip' (leaf bn) ≠ 0 ∧ blockOf d' ip' bn = b := by
  rcases Nat.lt_or_eq_of_le hle with hlt | heq
  · have hne : slotAddr d (inodes i) (leaf bn) ≠ 0 := by
      rw [h.mapped.filled i _ hi, extents, level_leaf hbn]
      exact hlt
    rw [bmap_of_ne hbn hne] at hok
    cases hok
    rw [Nat.max_eq_left hlt, update_eq_self, update_eq_self]
    exact ⟨h, .refl d inodes, .refl _, hne, rfl⟩
  · subst heq
    rw [Nat.max_eq_right (Nat.le_succ _)]
    by_cases hlo : len i < nDirect
    · rw [bmap_direct hlo] at hok
      obtain ⟨hbooked, hgrows, hsame, hne, hb⟩ := h.bmapAddr_spec hi hlo.le hok
      unfold blockOf
      rw [leaf_direct hlo]
      refine ⟨?_, hgrows, hsame, hne, hb⟩
      apply hbooked.congr_filled
      intro j s _
      rw [extents_succ, level_eq_direct hlo, ofAddr_of_lt hlo, Prod.mk_inj]
    · have hlo := not_lt.mp hlo
      have hhi : len i - nDirect < nIndirect := by
        simp only [maxFile, nDirect, nIndirect] at *
        omega
      rw [bmap_entry hlo hhi] at hok
      obtain ⟨⟨d₁, ip₁, table⟩, haddr, hok⟩ := bind_eq_ok hok
      obtain ⟨hbooked, hgrows, hsame, hne, rfl⟩ := h.bmapAddr_spec hi le_rfl haddr
      obtain ⟨⟨d₂, c⟩, hentry, hpair⟩ := map_eq_ok hok
      cases hpair
      have hself : update inodes i ip₁ i = ip₁ := update_self ..
      have hi₁ : Live sb (update inodes i ip₁) i := (hgrows.live i).mpr hi
      rw [← hself] at hne hentry
      obtain ⟨hbooked₂, hgrows₂, hne₂, hb₂⟩ :=
        hbooked.bmapEntry_spec (k := ⟨len i - nDirect, hhi⟩) hi₁ hne hentry
      rw [hself] at hne₂ hb₂
      unfold blockOf
      rw [leaf_entry hlo hhi]
      refine ⟨?_, hgrows.trans hgrows₂, hsame, hne₂, hb₂⟩
      apply hbooked₂.congr_filled
      intro j s _
      have htable : j = i → s = .table → len i ≠ nDirect → extents len j s := by
        rintro rfl rfl hlen
        exact Nat.lt_of_le_of_ne hlo (Ne.symm hlen)
      rw [extents_succ, level_eq_entry hlo hhi, ofAddr_nDirect, Prod.mk_inj,
        Prod.mk_inj]
      constructor
      · grind
      · grind

/-- The content of a file's block changes. -/
theorem update_leaf {filled : ℕ → Slot → Prop} (h : Booked sb d inodes filled) {s : Slot}
    (hb : holding sb d inodes (i, s) = some b) (hs : s ≠ .table) (block : Block) :
    Booked sb (update d b block) inodes filled := by
  have htaken := h.mapped.taken_of_holding hb
  refine ⟨h.laid, ?_, ?_⟩
  · exact (h.mapped.update_leaf hb hs block).congr (fun _ ↦ .rfl) (fun _ _ ↦ rfl)
      (fun _ _ ↦ .rfl) (taken_update_of_ge h.laid htaken.1)
  · intro c hc
    rw [used_update_of_ge h.laid (hc.trans (htaken.1.trans_lt htaken.2.1)) htaken.1]
    exact h.reserved c hc

/-- The only panic of `bmap` is that of `balloc`. -/
theorem bmap_error (hbn : bn < maxFile) (h : bmap sb d ip bn = .error e) : e = .outOfBlocks := by
  by_cases hlo : bn < nDirect
  · rw [bmap_direct hlo] at h
    exact bmapAddr_error h
  · have hlo := not_lt.mp hlo
    have hhi := entry_lt hlo hbn
    rw [bmap_entry hlo hhi] at h
    rcases bind_eq_error h with haddr | ⟨r, -, hentry⟩
    · exact bmapAddr_error haddr
    · exact bmapEntry_error (map_eq_error hentry)

end Booked

end Xv6Mmap.Fs
