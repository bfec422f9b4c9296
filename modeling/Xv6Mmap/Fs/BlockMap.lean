import Xv6Mmap.Fs.Layout
import Xv6Mmap.Library.PartialInjection

/-!
# Which block belongs to which inode

An inode keeps block numbers in its direct slots, in the slot for the indirect block, and in the
entries of the indirect block.  `Mapped` says that every block number stands in one slot of one
inode only, that the blocks taken are those that stand in a slot, and which slots are filled.  The
inodes are given as a function, so that one of them can be the copy in memory that is ahead of the
disk.
-/

namespace Xv6Mmap.Fs

open Function Library Dinode Option

/-- A place for a block number. -/
inductive Slot where
  | direct (k : Fin nDirect)
  | table
  | entry (k : Fin nIndirect)
  deriving DecidableEq

namespace Slot

/-- The index of the first block of a file that needs the slot. -/
def level : Slot → ℕ
  | direct k => k.val
  | table => nDirect
  | entry k => nDirect + k.val

instance : NeZero nIndirect := ⟨by decide⟩

/-- The slot for block `bn` of a file. -/
def leaf (bn : ℕ) : Slot :=
  if h : bn < nDirect then direct ⟨bn, h⟩ else entry (Fin.ofNat nIndirect (bn - nDirect))

variable {bn : ℕ}

theorem leaf_direct (h : bn < nDirect) : leaf bn = direct ⟨bn, h⟩ := dif_pos h

theorem entry_lt (hlo : nDirect ≤ bn) (hbn : bn < maxFile) : bn - nDirect < nIndirect := by
  simp only [maxFile, nDirect, nIndirect] at *
  omega

theorem leaf_entry (hlo : nDirect ≤ bn) (hhi : bn - nDirect < nIndirect) :
    leaf bn = entry ⟨bn - nDirect, hhi⟩ := by
  rw [leaf, dif_neg (not_lt.mpr hlo)]
  congr 1
  exact Fin.ext (Nat.mod_eq_of_lt hhi)

theorem leaf_ne_table (bn : ℕ) : leaf bn ≠ table := by
  unfold leaf
  split
  · exact nofun
  · exact nofun

theorem level_leaf (h : bn < maxFile) : (leaf bn).level = bn := by
  by_cases hlo : bn < nDirect
  · rw [leaf_direct hlo]
    rfl
  · have hlo := not_lt.mp hlo
    rw [leaf_entry hlo (entry_lt hlo h)]
    exact Nat.add_sub_cancel' hlo

end Slot

/-! ## The block numbers of an inode -/

/-- The block number in a slot. -/
def slotAddr (d : Disk) (ip : Dinode) : Slot → Word
  | .direct k => ip.addr k.val
  | .table => ip.addr nDirect
  | .entry k => if ip.addr nDirect = 0 then 0 else (d (ip.addr nDirect).toNat).uint k.val

/-- The block that holds block `bn` of a file. -/
def blockOf (d : Disk) (ip : Dinode) (bn : ℕ) : ℕ := (slotAddr d ip (Slot.leaf bn)).toNat

/-- The byte of a file at an offset. -/
def byteAt (d : Disk) (ip : Dinode) (off : ℕ) : Byte :=
  (d (blockOf d ip (off / bSize))).byte (off % bSize)

/-- The inode is allocated. -/
def Live (sb : Superblock) (inodes : ℕ → Dinode) (i : ℕ) : Prop :=
  0 < i ∧ i < sb.ninodes ∧ (inodes i).type ≠ 0

instance (sb : Superblock) (inodes : ℕ → Dinode) (i : ℕ) : Decidable (Live sb inodes i) :=
  inferInstanceAs (Decidable (_ ∧ _ ∧ _))

/-- The block that a slot of an allocated inode holds. -/
def holding (sb : Superblock) (d : Disk) (inodes : ℕ → Dinode) (o : ℕ × Slot) : Option ℕ :=
  if Live sb inodes o.1 ∧ slotAddr d (inodes o.1) o.2 ≠ 0 then
    some (slotAddr d (inodes o.1) o.2).toNat
  else none

/-- Every block number stands in one slot only, the blocks that are taken are those that stand in a
slot, and the slots with a block number are those that are filled. -/
structure Mapped (sb : Superblock) (d : Disk) (inodes : ℕ → Dinode) (filled : ℕ → Slot → Prop)
    (taken : ℕ → Prop) : Prop where
  holders : SoleHolders (holding sb d inodes) taken
  range : ∀ b, taken b → sb.dataStart ≤ b ∧ b < sb.size
  filled : ∀ i s, Live sb inodes i → (slotAddr d (inodes i) s ≠ 0 ↔ filled i s)

variable {sb : Superblock} {d d' : Disk} {inodes inodes' : ℕ → Dinode} {ip : Dinode}
  {filled filled' : ℕ → Slot → Prop} {taken taken' : ℕ → Prop} {i j b : ℕ} {s s' : Slot} {k : ℕ}

theorem holding_eq_some : holding sb d inodes (i, s) = some b ↔
    Live sb inodes i ∧ slotAddr d (inodes i) s ≠ 0 ∧ (slotAddr d (inodes i) s).toNat = b := by
  unfold holding
  rw [ite_none_right_eq_some, some_inj, and_assoc]

theorem holding_of_live (hi : Live sb inodes i) (hs : slotAddr d (inodes i) s ≠ 0) :
    holding sb d inodes (i, s) = some (slotAddr d (inodes i) s).toNat :=
  holding_eq_some.mpr ⟨hi, hs, rfl⟩

theorem slotAddr_entry_zero (h : ip.addr nDirect = 0) (k : Fin nIndirect) :
    slotAddr d ip (.entry k) = 0 :=
  if_pos h

theorem slotAddr_entry (h : ip.addr nDirect ≠ 0) (k : Fin nIndirect) :
    slotAddr d ip (.entry k) = (d (ip.addr nDirect).toNat).uint k.val :=
  if_neg h

/-- The disk changes outside the indirect block of the inode. -/
theorem slotAddr_congr (h : ip.addr nDirect ≠ 0 →
    d' (ip.addr nDirect).toNat = d (ip.addr nDirect).toNat) : slotAddr d' ip = slotAddr d ip := by
  funext s
  cases s with
  | direct k | table => rfl
  | entry k => grind [slotAddr_entry_zero, slotAddr_entry]

/-- A block that is not held as the indirect block of an inode is not its indirect block. -/
theorem table_ne (hb : holding sb d inodes (i, .table) ≠ some b) (hi : Live sb inodes i)
    (hs : (inodes i).addr nDirect ≠ 0) : ((inodes i).addr nDirect).toNat ≠ b := by
  rintro rfl
  exact hb (holding_of_live hi hs)

namespace Mapped

section

variable (h : Mapped sb d inodes filled taken)
include h

theorem taken_of_holding (hb : holding sb d inodes (i, s) = some b) : taken b :=
  (h.holders.taken b).mpr ⟨(i, s), hb⟩

/-- A block number is never zero, since block 0 is not a data block. -/
theorem range_slot (hi : Live sb inodes i) (hs : slotAddr d (inodes i) s ≠ 0) :
    sb.dataStart ≤ (slotAddr d (inodes i) s).toNat ∧ (slotAddr d (inodes i) s).toNat < sb.size :=
  h.range _ (h.taken_of_holding (holding_of_live hi hs))

theorem range_table (hi : Live sb inodes i) (htable : (inodes i).addr nDirect ≠ 0) :
    sb.dataStart ≤ ((inodes i).addr nDirect).toNat :=
  (h.range_slot (s := .table) hi htable).1

theorem unique (hi : Live sb inodes i) (hj : Live sb inodes j) (hs : slotAddr d (inodes i) s ≠ 0)
    (heq : slotAddr d (inodes i) s = slotAddr d (inodes j) s') : i = j ∧ s = s' := by
  have hi' := holding_of_live hi hs
  rw [heq] at hi' hs
  exact Prod.mk.inj (h.holders.sole _ _ _ hi' (holding_of_live hj hs))

/-- What holders, filled slots and taken blocks are is all that counts. -/
theorem congr (hlive : ∀ i, Live sb inodes' i ↔ Live sb inodes i)
    (hslot : ∀ i, Live sb inodes i → slotAddr d' (inodes' i) = slotAddr d (inodes i))
    (hfilled : ∀ i s, filled' i s ↔ filled i s) (htaken : ∀ b, taken' b ↔ taken b) :
    Mapped sb d' inodes' filled' taken' where
  holders := by
    apply h.holders.congr _ htaken
    rintro ⟨i, s⟩
    unfold holding
    by_cases hi : Live sb inodes i
    · rw [hslot i hi]
      simp only [hi, (hlive i).mpr hi]
    · have hi' : ¬ Live sb inodes' i := fun hlive' ↦ hi ((hlive i).mp hlive')
      rw [if_neg fun hh ↦ hi' hh.1, if_neg fun hh ↦ hi hh.1]
  range b hb := h.range b ((htaken b).mp hb)
  filled i s hi := by
    have hi := (hlive i).mp hi
    rw [hslot i hi, hfilled]
    exact h.filled i s hi

/-- The content of a file's block changes. -/
theorem slotAddr_update_leaf (hb : holding sb d inodes (i, s) = some b) (hs : s ≠ .table)
    (block : Block) (hj : Live sb inodes j) :
    slotAddr (update d b block) (inodes j) = slotAddr d (inodes j) := by
  apply slotAddr_congr
  intro htable
  have hother : holding sb d inodes (j, .table) ≠ some b := by
    intro hj'
    exact hs (Prod.mk.inj (h.holders.sole _ _ _ hb hj')).2
  exact update_of_ne (table_ne hother hj htable) ..

theorem update_leaf (hb : holding sb d inodes (i, s) = some b) (hs : s ≠ .table) (block : Block) :
    Mapped sb (update d b block) inodes filled taken :=
  h.congr (fun _ ↦ .rfl) (fun _ hj ↦ h.slotAddr_update_leaf hb hs block hj)
    (fun _ _ ↦ .rfl) fun _ ↦ .rfl

end

end Mapped

/-! ## Filling and clearing slots -/

/-- The slot of `addrs[k]`. -/
def Slot.ofAddr (k : ℕ) : Slot := if h : k < nDirect then direct ⟨k, h⟩ else table

theorem Slot.ofAddr_of_lt (h : k < nDirect) : ofAddr k = direct ⟨k, h⟩ := dif_pos h

theorem Slot.ofAddr_nDirect : ofAddr nDirect = table := dif_neg (Nat.lt_irrefl _)

theorem slotAddr_ofAddr (hk : k ≤ nDirect) : slotAddr d ip (.ofAddr k) = ip.addr k := by
  unfold Slot.ofAddr
  split
  · rfl
  · rename_i hlo
    have hlast : k = nDirect := Nat.le_antisymm hk (not_lt.mp hlo)
    rw [hlast]
    rfl

/-- Another slot keeps its block number when `addrs[k]` is set, unless it is an entry of an indirect
block that comes or goes. -/
theorem slotAddr_setAddr_of_ne {w : Word} (hs : s ≠ .ofAddr k)
    (hentry : ∀ e, s = .entry e → k ≠ nDirect) :
    slotAddr d (ip.setAddr k w) s = slotAddr d ip s := by
  cases s with
  | direct e =>
    apply addr_setAddr_of_ne
    rintro rfl
    exact hs (Slot.ofAddr_of_lt e.isLt).symm
  | table =>
    apply addr_setAddr_of_ne
    rintro rfl
    exact hs Slot.ofAddr_nDirect.symm
  | entry e =>
    have hsame : (ip.setAddr k w).addr nDirect = ip.addr nDirect :=
      addr_setAddr_of_ne (hentry e rfl).symm w
    unfold slotAddr
    rw [hsame]

/-- A number that can stand for a block in a slot. -/
def IsAddr (b : ℕ) : Prop := 0 < b ∧ b < 2 ^ 32

theorem IsAddr.toNat_ofNat (h : IsAddr b) : (BitVec.ofNat 32 b).toNat = b := by
  rw [BitVec.toNat_ofNat, Nat.mod_eq_of_lt h.2]

theorem IsAddr.ofNat_ne (h : IsAddr b) : BitVec.ofNat 32 b ≠ 0 := by
  intro heq
  have hnat := h.toNat_ofNat
  rw [heq] at hnat
  exact Nat.ne_of_gt h.1 hnat.symm

/-- `addrs[k]` gets a block that is zero: if it is the indirect block, its entries are as empty as
without it. -/
theorem slotAddr_fill_addr (hempty : (inodes i).addr k = 0) (hb : IsAddr b)
    (hzero : d b = .zero) (hother : (j, s) ≠ (i, .ofAddr k)) :
    slotAddr d (update inodes i ((inodes i).setAddr k (BitVec.ofNat 32 b)) j) s =
      slotAddr d (inodes j) s := by
  by_cases hj : j = i
  · subst hj
    have hs : s ≠ Slot.ofAddr k := fun heq ↦ hother (Prod.ext rfl heq)
    rw [update_self]
    by_cases hlast : k = nDirect
    · subst hlast
      cases s with
      | direct e | table => exact slotAddr_setAddr_of_ne hs nofun
      | entry e =>
        have haddr : ((inodes j).setAddr nDirect (BitVec.ofNat 32 b)).addr nDirect =
            BitVec.ofNat 32 b := addr_setAddr_self (Nat.lt_succ_self _) _
        rw [slotAddr_entry_zero hempty, slotAddr_entry (haddr ▸ hb.ofNat_ne), haddr,
          hb.toNat_ofNat, hzero, Block.uint_zero]
    · exact slotAddr_setAddr_of_ne hs fun _ _ ↦ hlast
  · rw [update_of_ne hj]

theorem live_update {ip' : Dinode} (htype : ip'.type ≠ 0 ↔ (inodes i).type ≠ 0) (j : ℕ) :
    Live sb (update inodes i ip') j ↔ Live sb inodes j := by
  unfold Live
  by_cases hj : j = i
  · rw [hj, update_self, htype]
  · rw [update_of_ne hj]

namespace Mapped

section

variable (h : Mapped sb d inodes filled taken)
include h

/-- An entry of the indirect block of `i` is set. -/
theorem slotAddr_fill_entry {k : Fin nIndirect} {w : Word} (hi : Live sb inodes i)
    (htable : (inodes i).addr nDirect ≠ 0) (hj : Live sb inodes j) (hother : (j, s) ≠ (i, .entry k))
    :
    slotAddr (update d ((inodes i).addr nDirect).toNat
      ((d ((inodes i).addr nDirect).toNat).setUint k.val w)) (inodes j) s =
        slotAddr d (inodes j) s := by
  by_cases heq : j = i
  · subst heq
    cases s with
    | direct e | table => rfl
    | entry e => grind [slotAddr_entry, update_apply, Block.uint_setUint_of_ne]
  · apply congrFun
    apply slotAddr_congr
    intro hjt
    apply update_of_ne
    intro hsame
    have haddr : slotAddr d (inodes j) .table = slotAddr d (inodes i) .table :=
      BitVec.eq_of_toNat_eq hsame
    exact heq (h.unique (s := .table) hj hi hjt haddr).1

/-- A slot of an inode gets a block that is not taken. -/
theorem fill (hi : Live sb inodes i) (hlive : ∀ j, Live sb inodes' j ↔ Live sb inodes j)
    (hempty : slotAddr d (inodes i) s = 0) (hfree : ¬ taken b) (hlo : sb.dataStart ≤ b)
    (hhi : b < sb.size)
    (hself : slotAddr d' (inodes' i) s ≠ 0 ∧ (slotAddr d' (inodes' i) s).toNat = b)
    (hothers : ∀ j s', Live sb inodes j → (j, s') ≠ (i, s) →
      slotAddr d' (inodes' j) s' = slotAddr d (inodes j) s') :
    Mapped sb d' inodes' (fun j s' ↦ filled j s' ∨ (j, s') = (i, s)) (fun c ↦ taken c ∨ c = b) where
  holders := by
    apply h.holders.take (o := (i, s)) hfree
    · unfold holding
      exact if_neg fun hh ↦ hh.2 hempty
    · exact holding_eq_some.mpr ⟨(hlive i).mpr hi, hself⟩
    · rintro ⟨j, s'⟩ hne
      unfold holding
      by_cases hj : Live sb inodes j
      · rw [hothers j s' hj hne]
        simp only [hj, (hlive j).mpr hj]
      · have hj' : ¬ Live sb inodes' j := fun hl ↦ hj ((hlive j).mp hl)
        rw [if_neg fun hh ↦ hj' hh.1, if_neg fun hh ↦ hj hh.1]
    · exact fun _ ↦ .rfl
  range c hc := by
    rcases hc with hc | rfl
    · exact h.range c hc
    · exact ⟨hlo, hhi⟩
  filled j s' hj := by
    have hj := (hlive j).mp hj
    by_cases heq : (j, s') = (i, s)
    · obtain ⟨rfl, rfl⟩ := Prod.mk.inj heq
      exact iff_of_true hself.1 (Or.inr rfl)
    · rw [hothers j s' hj heq, h.filled j s' hj]
      exact (or_iff_left heq).symm

theorem fill_addr (hi : Live sb inodes i) (hk : k ≤ nDirect)
    (hempty : (inodes i).addr k = 0) (hfree : ¬ taken b) (hlo : sb.dataStart ≤ b)
    (hhi : b < sb.size) (hb : IsAddr b) (hzero : d b = .zero) :
    Mapped sb d (update inodes i ((inodes i).setAddr k (BitVec.ofNat 32 b)))
      (fun j s ↦ filled j s ∨ (j, s) = (i, .ofAddr k)) (fun c ↦ taken c ∨ c = b) := by
  apply h.fill hi
  · exact live_update .rfl
  · rw [slotAddr_ofAddr hk, hempty]
  · exact hfree
  · exact hlo
  · exact hhi
  · rw [update_self, slotAddr_ofAddr hk, addr_setAddr_self (Nat.lt_succ_of_le hk)]
    exact ⟨hb.ofNat_ne, hb.toNat_ofNat⟩
  · intro j s' _ hother
    exact slotAddr_fill_addr hempty hb hzero hother

theorem fill_entry {k : Fin nIndirect} (hi : Live sb inodes i)
    (htable : (inodes i).addr nDirect ≠ 0)
    (hempty : (d ((inodes i).addr nDirect).toNat).uint k.val = 0) (hfree : ¬ taken b)
    (hlo : sb.dataStart ≤ b) (hhi : b < sb.size) (hb : IsAddr b) :
    Mapped sb (update d ((inodes i).addr nDirect).toNat
        ((d ((inodes i).addr nDirect).toNat).setUint k.val (BitVec.ofNat 32 b))) inodes
      (fun j s ↦ filled j s ∨ (j, s) = (i, .entry k)) (fun c ↦ taken c ∨ c = b) := by
  apply h.fill hi
  · exact fun _ ↦ .rfl
  · rw [slotAddr_entry htable, hempty]
  · exact hfree
  · exact hlo
  · exact hhi
  · rw [slotAddr_entry htable, update_self, Block.uint_setUint_self k.isLt]
    exact ⟨hb.ofNat_ne, hb.toNat_ofNat⟩
  · intro j s' hj hother
    exact h.slotAddr_fill_entry hi htable hj hother

/-- Slots of an inode are cleared. -/
theorem clear (gone : Slot → Prop) (hlive : ∀ j, Live sb inodes' j ↔ Live sb inodes j)
    (hself : ∀ s, gone s → slotAddr d (inodes' i) s = 0)
    (hothers : ∀ j s, Live sb inodes j → ¬ (j = i ∧ gone s) →
      slotAddr d (inodes' j) s = slotAddr d (inodes j) s) (htaken : ∀ c, taken' c ↔ taken c ∧
      ∀ s, gone s → holding sb d inodes (i, s) ≠ some c) :
    Mapped sb d inodes' (fun j s ↦ filled j s ∧ ¬ (j = i ∧ gone s)) taken' where
  holders := by
    apply h.holders.release fun o ↦ o.1 = i ∧ gone o.2
    · rintro ⟨j, s⟩ ⟨rfl, hs⟩
      exact if_neg fun hh ↦ hh.2 (hself s hs)
    · rintro ⟨j, s⟩ hstay
      unfold holding
      by_cases hj : Live sb inodes j
      · rw [hothers j s hj hstay]
        simp only [hj, (hlive j).mpr hj]
      · have hj' : ¬ Live sb inodes' j := fun hl ↦ hj ((hlive j).mp hl)
        rw [if_neg fun hh ↦ hj' hh.1, if_neg fun hh ↦ hj hh.1]
    · grind
  range c hc := h.range c ((htaken c).mp hc).1
  filled j s hj := by grind [h.filled]

/-- An inode without blocks is allocated or freed. -/
theorem enlist (hothers : ∀ j, j ≠ i → inodes' j = inodes j)
    (hbefore : Live sb inodes i → ∀ s, slotAddr d (inodes i) s = 0)
    (hafter : ∀ s, slotAddr d (inodes' i) s = 0) :
    Mapped sb d inodes' (fun j s ↦ filled j s ∧ j ≠ i) taken where
  holders := by
    apply h.holders.congr _ fun _ ↦ .rfl
    rintro ⟨j, s⟩
    unfold holding
    by_cases hj : j = i
    · subst hj
      rw [if_neg fun hh ↦ hh.2 (hafter s), if_neg fun hh ↦ hh.2 (hbefore hh.1 s)]
    · have hlive : Live sb inodes' j ↔ Live sb inodes j := by
        unfold Live
        rw [hothers j hj]
      simp only [hlive, hothers j hj]
  range := h.range
  filled j s hj := by
    by_cases heq : j = i
    · subst heq
      exact iff_of_false (fun hne ↦ hne (hafter s)) fun hh ↦ hh.2 rfl
    · have hj' : Live sb inodes j := by
        unfold Live at hj ⊢
        rwa [hothers j heq] at hj
      rw [hothers j heq, h.filled j s hj']
      exact (and_iff_left heq).symm

end

end Mapped

end Xv6Mmap.Fs
