import Xv6Mmap.Fs.Allocation

/-!
# Truncation: `bfree` and `itrunc`

`itrunc` clears the bits of the direct blocks, of the blocks in the indirect block and of the indirect
block.  Each of these bits is set when it is cleared, since no block number stands in two slots; so
`itrunc` does not panic.
-/

namespace Xv6Mmap.Fs

open Function Library Disk Dinode

variable {sb : Superblock} {d d' d'' : Disk} {inodes : ℕ → Dinode}
  {filled : ℕ → Slot → Prop} {ip : Dinode} {i b k : ℕ} {gone gone' : ℕ → Prop}

/-- The bits of some blocks have been cleared, and nothing else has changed. -/
structure Cleared (sb : Superblock) (d : Disk) (gone : ℕ → Prop) (d' : Disk) : Prop where
  used : ∀ c, d'.used sb c = true ↔ d.used sb c = true ∧ ¬ gone c
  data : ∀ c, sb.dataStart ≤ c → d' c = d c
  dinodes : ∀ j < sb.ninodes, d'.dinode sb j = d.dinode sb j

namespace Cleared

theorem nothing (d : Disk) : Cleared sb d (fun _ ↦ False) d :=
  ⟨fun _ ↦ by simp, fun _ _ ↦ rfl, fun _ _ ↦ rfl⟩

theorem congr (h : Cleared sb d gone d') (hgone : ∀ c, gone' c ↔ gone c) :
    Cleared sb d gone' d' :=
  ⟨fun c ↦ by rw [h.used c, hgone c], h.data, h.dinodes⟩

/-- One more block is freed; its bit is set. -/
theorem bfree (hlaid : sb.Laid) (h : Cleared sb d gone d') (hb : b < sb.size)
    (hused : d.used sb b = true) (hstays : ¬ gone b) :
    ∃ d'', Fs.bfree sb d' b = .ok d'' ∧ Cleared sb d (fun c ↦ gone c ∨ c = b) d'' := by
  have hset : d'.used sb b = true := (h.used b).mpr ⟨hused, hstays⟩
  refine ⟨d'.unmark sb b, ?_, ?_, ?_, ?_⟩
  · unfold Fs.bfree
    rw [if_neg]
    rw [hset]
    exact Bool.noConfusion
  · grind [used_unmark, h.used]
  · exact fun c hc ↦ (unmark_of_ge hlaid hb hc).trans (h.data c hc)
  · exact fun j hj ↦ (dinode_unmark hlaid hj b).trans (h.dinodes j hj)

end Cleared

/-! ## The direct blocks -/

/-- The inode without its first `k` addresses. -/
def Dinode.dropAddrs (ip : Dinode) (k : ℕ) : Dinode :=
  { ip with addrs := fun e ↦ if e.val < k then 0 else ip.addrs e }

theorem Dinode.addr_dropAddrs_of_le {e : ℕ} (h : k ≤ e) : (ip.dropAddrs k).addr e = ip.addr e := by
  unfold addr
  split
  · exact if_neg (not_lt.mpr h)
  · rfl

theorem Dinode.dropAddrs_succ_of_zero (h : ip.addr k = 0) :
    ip.dropAddrs (k + 1) = ip.dropAddrs k := by
  unfold dropAddrs
  congr 1
  funext e
  by_cases hek : e.val = k
  · have he : ip.addrs e = 0 := by
      rw [← h, ← hek]
      exact (addr_of_lt e.isLt).symm
    rw [if_pos (by omega), if_neg (by omega), he]
  · have hiff : e.val < k + 1 ↔ e.val < k := by omega
    simp only [hiff]

theorem Dinode.setAddr_dropAddrs (ip : Dinode) (k : ℕ) :
    (ip.dropAddrs k).setAddr k 0 = ip.dropAddrs (k + 1) := by
  unfold dropAddrs setAddr
  congr 1
  funext e
  by_cases hek : e.val = k
  · rw [if_pos hek, if_pos (by omega)]
  · have hiff : e.val < k + 1 ↔ e.val < k := by omega
    simp only [if_neg hek, hiff]

/-- The block numbers among the first `k` of a list of addresses. -/
def Among (addr : ℕ → Word) (k c : ℕ) : Prop := ∃ e < k, addr e ≠ 0 ∧ (addr e).toNat = c

theorem among_succ (addr : ℕ → Word) (k c : ℕ) :
    Among addr (k + 1) c ↔ Among addr k c ∨ (addr k ≠ 0 ∧ (addr k).toNat = c) := by
  unfold Among
  constructor
  · grind
  · grind

section

variable (h : Booked sb d inodes filled) (hi : Live sb inodes i)
include h hi

/-- The bit of a block in a slot is set. -/
theorem Booked.taken_slot {s : Slot}
    (hs : slotAddr d (inodes i) s ≠ 0) : Taken sb d (slotAddr d (inodes i) s).toNat :=
  h.mapped.taken_of_holding (holding_of_live hi hs)

theorem freeDirect_spec (hk : k ≤ nDirect) :
    ∃ d', freeDirect sb d (inodes i) k = .ok (d', (inodes i).dropAddrs k) ∧
      Cleared sb d (Among (inodes i).addr k) d' := by
  induction k with
  | zero =>
    refine ⟨d, ?_, (Cleared.nothing d).congr fun c ↦ ?_⟩
    · have hdrop : (inodes i).dropAddrs 0 = inodes i := by
        unfold dropAddrs
        simp
      rw [hdrop]
      rfl
    · simp [Among]
  | succ k ih =>
    obtain ⟨d', hfree, hcleared⟩ := ih (Nat.le_of_succ_le hk)
    have haddr : ((inodes i).dropAddrs k).addr k = (inodes i).addr k :=
      addr_dropAddrs_of_le le_rfl
    rw [freeDirect, hfree]
    change ∃ d'', (if ((inodes i).dropAddrs k).addr k = 0 then _ else _) = _ ∧ _
    rw [haddr]
    by_cases hzero : (inodes i).addr k = 0
    · refine ⟨d', ?_, hcleared.congr fun c ↦ ?_⟩
      · rw [if_pos hzero, dropAddrs_succ_of_zero hzero]
        rfl
      · rw [among_succ]
        exact or_iff_left fun hblock ↦ hblock.1 hzero
    · have htaken : Taken sb d ((inodes i).addr k).toNat :=
        h.taken_slot (s := .direct ⟨k, hk⟩) hi hzero
      have hstays : ¬ Among (inodes i).addr k ((inodes i).addr k).toNat := by
        rintro ⟨e, he, hne, heq⟩
        have hsame : slotAddr d (inodes i) (.direct ⟨e, he.trans hk⟩) =
            slotAddr d (inodes i) (.direct ⟨k, hk⟩) := BitVec.eq_of_toNat_eq heq
        have hslot := (h.mapped.unique (s := .direct ⟨e, he.trans hk⟩) hi hi hne hsame).2
        simp only [Slot.direct.injEq, Fin.mk.injEq] at hslot
        exact Nat.ne_of_lt he hslot
      obtain ⟨d'', hbfree, hcleared'⟩ := hcleared.bfree h.laid htaken.2.1 htaken.2.2 hstays
      refine ⟨d'', ?_, hcleared'.congr fun c ↦ ?_⟩
      · rw [if_neg hzero, hbfree, ← setAddr_dropAddrs]
        rfl
      · grind [among_succ]

/-! ## The blocks in the indirect block -/

theorem freeEntries_spec (htable : (inodes i).addr nDirect ≠ 0) (hcleared : Cleared sb d gone d')
    (hgone : ∀ e, slotAddr d (inodes i) (.entry e) ≠ 0 →
      ¬ gone (slotAddr d (inodes i) (.entry e)).toNat) (hk : k ≤ nIndirect) :
    ∃ d'', freeEntries sb d' (d ((inodes i).addr nDirect).toNat) k = .ok d'' ∧
      Cleared sb d
        (fun c ↦ gone c ∨ Among (d ((inodes i).addr nDirect).toNat).uint k c) d'' := by
  induction k with
  | zero =>
    refine ⟨d', rfl, hcleared.congr fun c ↦ ?_⟩
    simp [Among]
  | succ k ih =>
    obtain ⟨d'', hfree, hcleared'⟩ := ih (Nat.le_of_succ_le hk)
    have hslot : ∀ e (he : e < nIndirect), slotAddr d (inodes i) (.entry ⟨e, he⟩) =
        (d ((inodes i).addr nDirect).toNat).uint e := fun e he ↦ slotAddr_entry htable ⟨e, he⟩
    rw [freeEntries, hfree]
    change ∃ d₃, (if (d ((inodes i).addr nDirect).toNat).uint k = 0 then _ else _) = _ ∧ _
    by_cases hzero : (d ((inodes i).addr nDirect).toNat).uint k = 0
    · refine ⟨d'', if_pos hzero, hcleared'.congr fun c ↦ ?_⟩
      rw [among_succ]
      exact or_congr_right (or_iff_left fun hblock ↦ hblock.1 hzero)
    · have htaken := h.taken_slot (s := .entry ⟨k, hk⟩) hi (hslot k hk ▸ hzero)
      rw [hslot k hk] at htaken
      have hstays : ¬ (gone ((d ((inodes i).addr nDirect).toNat).uint k).toNat ∨
          Among (d ((inodes i).addr nDirect).toNat).uint k
            ((d ((inodes i).addr nDirect).toNat).uint k).toNat) := by
        rintro (hgone' | ⟨e, he, hne, heq⟩)
        · have hentry := hgone ⟨k, hk⟩
          rw [hslot k hk] at hentry
          exact hentry hzero hgone'
        · rw [← hslot e (he.trans hk)] at hne
          have hsame : slotAddr d (inodes i) (.entry ⟨e, he.trans hk⟩) =
              slotAddr d (inodes i) (.entry ⟨k, hk⟩) := by
            rw [hslot, hslot]
            exact BitVec.eq_of_toNat_eq heq
          have hentry := (h.mapped.unique hi hi hne hsame).2
          simp only [Slot.entry.injEq, Fin.mk.injEq] at hentry
          exact Nat.ne_of_lt he hentry
      obtain ⟨d₃, hbfree, hcleared₃⟩ := hcleared'.bfree h.laid htaken.2.1 htaken.2.2 hstays
      refine ⟨d₃, ?_, hcleared₃.congr fun c ↦ ?_⟩
      · rw [if_neg hzero, hbfree]
      · rw [among_succ, ← or_assoc]
        exact or_congr_right ⟨fun hblock ↦ hblock.2.symm, fun hblock ↦ ⟨hzero, hblock.symm⟩⟩

end

/-! ## `itrunc` -/

/-- The inode without blocks. -/
def Dinode.truncated (ip : Dinode) : Dinode := { ip with size := 0, addrs := fun _ ↦ 0 }

theorem Dinode.addr_truncated (ip : Dinode) (k : ℕ) : ip.truncated.addr k = 0 := by
  unfold addr
  split
  · rfl
  · rfl

theorem slotAddr_truncated (d : Disk) (ip : Dinode) (s : Slot) : slotAddr d ip.truncated s = 0 := by
  cases s with
  | direct k | table => exact ip.addr_truncated _
  | entry k => exact slotAddr_entry_zero (ip.addr_truncated _) k

theorem Dinode.dropAddrs_all (ip : Dinode) :
    { ip.dropAddrs (nDirect + 1) with size := 0 } = ip.truncated := by
  unfold dropAddrs truncated
  dsimp only
  congr 1
  funext e
  exact if_pos e.isLt

/-- All blocks of a file. -/
def BlockOfFile (d : Disk) (ip : Dinode) (c : ℕ) : Prop :=
  ∃ s, slotAddr d ip s ≠ 0 ∧ (slotAddr d ip s).toNat = c

/-- The blocks of a file without indirect block are the direct ones. -/
theorem blockOfFile_of_zero (h : ip.addr nDirect = 0) (c : ℕ) :
    BlockOfFile d ip c ↔ Among ip.addr nDirect c := by
  constructor
  · rintro ⟨s, hne, heq⟩
    cases s with
    | direct k => exact ⟨k.val, k.isLt, hne, heq⟩
    | table => exact (hne h).elim
    | entry k => exact (hne (slotAddr_entry_zero h k)).elim
  · rintro ⟨e, he, hne, heq⟩
    exact ⟨.direct ⟨e, he⟩, hne, heq⟩

theorem blockOfFile_of_ne (h : ip.addr nDirect ≠ 0) (c : ℕ) :
    BlockOfFile d ip c ↔
      (Among ip.addr nDirect c ∨ Among (d (ip.addr nDirect).toNat).uint nIndirect c) ∨
        c = (ip.addr nDirect).toNat := by
  constructor
  · rintro ⟨s, hne, heq⟩
    cases s with
    | direct k => exact .inl (.inl ⟨k.val, k.isLt, hne, heq⟩)
    | table => exact .inr heq.symm
    | entry k =>
      rw [slotAddr_entry h] at hne heq
      exact .inl (.inr ⟨k.val, k.isLt, hne, heq⟩)
  · rintro ((⟨e, he, hne, heq⟩ | ⟨e, he, hne, heq⟩) | rfl)
    · exact ⟨.direct ⟨e, he⟩, hne, heq⟩
    · refine ⟨.entry ⟨e, he⟩, ?_⟩
      rw [slotAddr_entry h]
      exact ⟨hne, heq⟩
    · exact ⟨.table, h, rfl⟩

section

variable (h : Booked sb d inodes filled) (hi : Live sb inodes i)
include h hi

theorem freeTable_spec (hcleared : Cleared sb d (Among (inodes i).addr nDirect) d') :
    ∃ d'', freeTable sb d' ((inodes i).dropAddrs nDirect) =
        .ok (d'', (inodes i).dropAddrs (nDirect + 1)) ∧
      Cleared sb d (BlockOfFile d (inodes i)) d'' := by
  have haddr : ((inodes i).dropAddrs nDirect).addr nDirect = (inodes i).addr nDirect :=
    addr_dropAddrs_of_le le_rfl
  unfold freeTable
  rw [haddr]
  by_cases hzero : (inodes i).addr nDirect = 0
  · refine ⟨d', ?_, hcleared.congr (blockOfFile_of_zero hzero)⟩
    rw [if_pos hzero, dropAddrs_succ_of_zero hzero]
    rfl
  · have htaken : Taken sb d ((inodes i).addr nDirect).toNat :=
      h.taken_slot (s := .table) hi hzero
    have hdirect : ∀ {s}, (∀ k, s ≠ .direct k) → slotAddr d (inodes i) s ≠ 0 →
        ¬ Among (inodes i).addr nDirect (slotAddr d (inodes i) s).toNat := by
      rintro s hs hne ⟨e, he, hne', heq⟩
      have hsame : slotAddr d (inodes i) (.direct ⟨e, he⟩) = slotAddr d (inodes i) s :=
        BitVec.eq_of_toNat_eq heq
      exact hs _ (h.mapped.unique (s := .direct ⟨e, he⟩) hi hi hne' hsame).2.symm
    obtain ⟨d₂, hentries, hcleared₂⟩ := freeEntries_spec h hi hzero hcleared
      (fun e hne ↦ hdirect nofun hne) le_rfl
    have hstays : ¬ (Among (inodes i).addr nDirect ((inodes i).addr nDirect).toNat ∨
        Among (d ((inodes i).addr nDirect).toNat).uint nIndirect
          ((inodes i).addr nDirect).toNat) := by
      rintro (hin | ⟨e, he, hne, heq⟩)
      · exact hdirect (s := .table) nofun hzero hin
      · have hsame : slotAddr d (inodes i) (.entry ⟨e, he⟩) = slotAddr d (inodes i) .table := by
          rw [slotAddr_entry hzero]
          exact BitVec.eq_of_toNat_eq heq
        rw [← slotAddr_entry hzero ⟨e, he⟩] at hne
        cases (h.mapped.unique hi hi hne hsame).2
    obtain ⟨d₃, hbfree, hcleared₃⟩ := hcleared₂.bfree h.laid htaken.2.1 htaken.2.2 hstays
    refine ⟨d₃, ?_, hcleared₃.congr (blockOfFile_of_ne hzero)⟩
    rw [if_neg hzero]
    dsimp only
    rw [hcleared.data _ htaken.1, hentries]
    change bfree sb d₂ _ >>= _ = _
    rw [hbfree, ← setAddr_dropAddrs]
    rfl

/-- `itrunc` frees the blocks of the file and writes the inode. -/
theorem itrunc_eq :
    ∃ d', itrunc sb d i (inodes i) =
        .ok (d'.setDinode sb i (inodes i).truncated, (inodes i).truncated) ∧
      Cleared sb d (BlockOfFile d (inodes i)) d' := by
  obtain ⟨d₁, hdirect, hcleared₁⟩ := freeDirect_spec h hi le_rfl
  obtain ⟨d₂, htable, hcleared₂⟩ := freeTable_spec h hi hcleared₁
  refine ⟨d₂, ?_, hcleared₂⟩
  unfold itrunc
  rw [hdirect]
  change freeTable sb d₁ _ >>= _ = _
  rw [htable, ← dropAddrs_all]
  rfl

/-- What is left when the blocks of a file have been freed and its inode has been written. -/
theorem Booked.truncate (hcleared : Cleared sb d (BlockOfFile d (inodes i)) d') :
    Booked sb (d'.setDinode sb i (inodes i).truncated)
      (update inodes i (inodes i).truncated) (fun j s ↦ filled j s ∧ j ≠ i) := by
  have hlive : ∀ j, Live sb (update inodes i (inodes i).truncated) j ↔ Live sb inodes j :=
    live_update .rfl
  have hself : update inodes i (inodes i).truncated i = (inodes i).truncated :=
    update_self ..
  have hmapped : Mapped sb d (update inodes i (inodes i).truncated)
      (fun j s ↦ filled j s ∧ ¬ (j = i ∧ True))
      (fun c ↦ Taken sb d c ∧ ∀ s, True → holding sb d inodes (i, s) ≠ some c) := by
    apply h.mapped.clear (fun _ ↦ True) hlive
    · intro s _
      rw [hself, slotAddr_truncated]
    · intro j s _ hj
      rw [update_of_ne fun heq ↦ hj ⟨heq, trivial⟩]
    · exact fun _ ↦ .rfl
  refine ⟨h.laid, ?_, ?_⟩
  · apply hmapped.congr
    · exact fun _ ↦ .rfl
    · intro j hj
      apply slotAddr_congr
      intro htable
      have hdata := hmapped.range_table hj htable
      rw [setDinode_of_ge h.laid hi.2.1 hdata]
      exact hcleared.data _ hdata
    · intro j s
      rw [and_true]
    · intro c
      unfold Taken
      rw [used_setDinode h.laid hi.2.1, hcleared.used]
      have hblock : BlockOfFile d (inodes i) c ↔ ∃ s, holding sb d inodes (i, s) = some c := by
        simp only [holding_eq_some, hi, true_and]
        rfl
      rw [hblock]
      simp only [not_exists, true_imp_iff, and_assoc, ne_eq]
  · intro c hc
    rw [used_setDinode h.laid hi.2.1, hcleared.used]
    refine ⟨h.reserved c hc, ?_⟩
    rintro ⟨s, hne, rfl⟩
    exact Nat.lt_irrefl _ (hc.trans_le (h.mapped.range_slot hi hne).1)

end

end Xv6Mmap.Fs
