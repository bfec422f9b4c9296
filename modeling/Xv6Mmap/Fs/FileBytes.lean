import Xv6Mmap.Fs.Allocation

/-!
# The bytes of files: `readi` and `writei`

`readi` and `writei` go through a file block by block.  Where the file has its blocks, `readi` changes
nothing and delivers the bytes of the file.  `writei` overlays the bytes of one file, which may get
blocks at its end, and leaves the bytes of every other file.
-/

namespace Xv6Mmap.Fs

open Function Library Bytes Slot List

variable {sb : Superblock} {d d' : Disk} {inodes inodes' : ℕ → Dinode} {len : ℕ → ℕ}
  {ip ip' : Dinode} {i j off n : ℕ} {x : ℕ} {fuel : ℕ}

/-- The number of blocks that so many bytes need. -/
def blocksFor (n : ℕ) : ℕ := (n + (bSize - 1)) / bSize

/-- One piece of a transfer: what is left, up to the end of the block. -/
def piece (off n : ℕ) : ℕ := min n (bSize - off % bSize)

theorem piece_le (off n : ℕ) : piece off n ≤ n := Nat.min_le_left _ _

theorem piece_pos (hn : n ≠ 0) : 0 < piece off n := by
  have hmod : off % bSize < bSize := Nat.mod_lt _ (by decide)
  unfold piece
  omega

theorem off_add_piece (off n : ℕ) : off % bSize + piece off n ≤ bSize := by
  have hmod : off % bSize < bSize := Nat.mod_lt _ (by decide)
  unfold piece
  omega

theorem div_of_lt_piece {k : ℕ} (hk : k < piece off n) : (off + k) / bSize = off / bSize := by
  have hle := off_add_piece off n
  simp only [bSize] at *
  omega

theorem mod_of_lt_piece {k : ℕ} (hk : k < piece off n) :
    (off + k) % bSize = off % bSize + k := by
  have hle := off_add_piece off n
  simp only [bSize] at *
  omega

/-! ## `readi` -/

/-- The loop of `readi` over bytes whose blocks are there. -/
theorem readLoop_eq (hfuel : n ≤ fuel) (hblocks : ∀ k < n, (off + k) / bSize < maxFile ∧
      slotAddr d ip (leaf ((off + k) / bSize)) ≠ 0) (dst : List Byte) :
    readLoop sb fuel d ip off n dst =
      .ok (d, ip, dst ++ (List.range n).map fun k ↦ byteAt d ip (off + k)) := by
  induction fuel generalizing off n dst with
  | zero =>
    have hn : n = 0 := Nat.le_zero.mp hfuel
    subst hn
    rw [range_zero, map_nil, append_nil]
    rfl
  | succ fuel ih =>
    by_cases hn : n = 0
    · subst hn
      rw [range_zero, map_nil, append_nil]
      rfl
    · have hm := piece_le off n
      have hpos : 0 < piece off n := piece_pos hn
      obtain ⟨hbn, hne⟩ := hblocks 0 (Nat.pos_of_ne_zero hn)
      have hrest : ∀ k < n - piece off n, (off + piece off n + k) / bSize < maxFile ∧
          slotAddr d ip (leaf ((off + piece off n + k) / bSize)) ≠ 0 := by
        intro k hk
        have hk' := hblocks (piece off n + k) (by omega)
        rwa [← Nat.add_assoc] at hk'
      have hpiece : (List.range (piece off n)).map (fun k ↦ byteAt d ip (off + k)) =
          (List.range (piece off n)).map fun k ↦
            (d (blockOf d ip (off / bSize))).byte (off % bSize + k) := by
        apply map_congr_left
        intro k hk
        rw [byteAt, div_of_lt_piece (mem_range.mp hk), mod_of_lt_piece (mem_range.mp hk)]
      rw [Nat.add_zero] at hbn hne
      rw [readLoop, if_neg hn, bmap_of_ne hbn hne]
      change readLoop sb fuel d ip (off + piece off n) (n - piece off n) _ = _
      rw [ih (by omega) hrest, map_range_split hm, hpiece, append_assoc]
      simp only [Nat.add_assoc]
      rfl

/-- The number of bytes that `readi` reads. -/
def readCount (ip : Dinode) (off n : Word) : ℕ := min n.toNat (ip.size.toNat - off.toNat)

theorem toNat_clip {off n : Word} (hoff : off ≤ ip.size) (hwrap : off ≤ off + n) :
    (if ip.size < off + n then ip.size - off else n).toNat = readCount ip off n := by
  rw [BitVec.le_def] at hoff hwrap
  have hsum : (off + n).toNat = off.toNat + n.toNat := by
    rw [BitVec.toNat_add] at hwrap ⊢
    omega
  unfold readCount
  split
  · rename_i hlt
    rw [BitVec.lt_def, hsum] at hlt
    rw [BitVec.toNat_sub_of_le hoff]
    omega
  · rename_i hge
    rw [BitVec.not_lt, BitVec.le_def, hsum] at hge
    omega

/-- What `readi` reads where the file has its blocks. -/
theorem readi_eq {off n : Word} (hdev : ip.type ≠ tDev) (hoff : off ≤ ip.size)
    (hwrap : off ≤ off + n) (hblocks : ∀ k < readCount ip off n, (off.toNat + k) / bSize < maxFile ∧
      slotAddr d ip (leaf ((off.toNat + k) / bSize)) ≠ 0) :
    readi sb d ip off n = .ok (d, ip, .done
      ((List.range (readCount ip off n)).map fun k ↦ byteAt d ip (off.toNat + k))) := by
  have htest : ¬ (ip.size < off ∨ off + n < off) := by
    rw [not_or, BitVec.not_lt, BitVec.not_lt]
    exact ⟨hoff, hwrap⟩
  have hclip := toNat_clip hoff hwrap
  unfold readi
  rw [if_neg hdev, if_neg htest]
  dsimp only
  rw [hclip, readLoop_eq le_rfl hblocks]
  rfl

/-! ## `writei` -/

/-- The bytes of a file that only got more blocks. -/
theorem Grows.byteAt_eq (h : Grows sb d inodes d' inodes') (hi : Live sb inodes i)
    (hx : slotAddr d (inodes i) (leaf (x / bSize)) ≠ 0) :
    byteAt d' (inodes' i) x = byteAt d (inodes i) x := by
  unfold byteAt blockOf
  rw [h.slots i _ hi hx, h.data i _ hi (leaf_ne_table _) hx]

/-- The bytes of files when one block of one file is written. -/
theorem Mapped.byteAt_update {filled : ℕ → Slot → Prop} {taken : ℕ → Prop} {bn b : ℕ}
    (h : Mapped sb d inodes filled taken) (hb : holding sb d inodes (i, leaf bn) = some b)
    (block : Block) (hj : Live sb inodes j) (hbn : bn < maxFile) (hmax : x / bSize < maxFile)
    (hx : slotAddr d (inodes j) (leaf (x / bSize)) ≠ 0) :
    byteAt (update d b block) (inodes j) x =
      if j = i ∧ x / bSize = bn then block.byte (x % bSize) else byteAt d (inodes j) x := by
  have hslot := h.slotAddr_update_leaf hb (leaf_ne_table bn) block hj
  unfold byteAt blockOf
  rw [hslot]
  split
  · rename_i hsame
    obtain ⟨rfl, rfl⟩ := hsame
    have hself := (holding_eq_some.mp hb).2.2
    rw [hself, update_self]
  · rename_i hother
    have hne : (slotAddr d (inodes j) (leaf (x / bSize))).toNat ≠ b := by
      intro heq
      have hheld := holding_of_live hj hx
      rw [heq] at hheld
      obtain ⟨rfl, hleaf⟩ := Prod.mk.inj (h.holders.sole _ _ _ hheld hb)
      apply hother
      refine ⟨rfl, ?_⟩
      rw [← level_leaf hmax, hleaf, level_leaf hbn]
    rw [update_of_ne hne]

/-- One file has been overlaid with `n` bytes of `src` from `off` on. -/
structure Overlaid (sb : Superblock) (d : Disk) (inodes : ℕ → Dinode) (len : ℕ → ℕ) (i off n : ℕ)
    (src : ℕ → Byte) (d' : Disk) (ip' : Dinode) : Prop where
  booked : Booked sb d' (update inodes i ip')
    (extents (update len i (max (len i) (blocksFor (off + n)))))
  same : (inodes i).SameBut ip'
  slots : ∀ s, slotAddr d (inodes i) s ≠ 0 → slotAddr d' ip' s = slotAddr d (inodes i) s
  dinodes : ∀ j < sb.ninodes, d'.dinode sb j = d.dinode sb j
  others : ∀ j x, j ≠ i → Live sb inodes j → x / bSize < len j →
    byteAt d' (inodes j) x = byteAt d (inodes j) x
  self : ∀ x, x / bSize < len i ∨ (off ≤ x ∧ x < off + n) →
    byteAt d' ip' x = splice (byteAt d (inodes i)) off n src x

theorem blocksFor_le (h : off ≤ bSize * n) : blocksFor off ≤ n := by
  unfold blocksFor
  simp only [bSize] at *
  omega

theorem le_blocksFor (n : ℕ) : n ≤ bSize * blocksFor n := by
  unfold blocksFor
  simp only [bSize]
  omega

theorem div_lt_blocksFor (h : x < n) : x / bSize < blocksFor n := by
  unfold blocksFor
  simp only [bSize]
  omega

theorem blocksFor_piece (hn : n ≠ 0) : blocksFor (off + piece off n) = off / bSize + 1 := by
  have hpos : 0 < piece off n := piece_pos hn
  have hin := off_add_piece off n
  unfold blocksFor
  simp only [bSize] at *
  omega

/-- A byte of the block that is written, before or behind the piece. -/
theorem byte_write_of_outside {b : Block} {src : ℕ → Byte} (hdiv : x / bSize = off / bSize)
    (hout : ¬ (off ≤ x ∧ x < off + piece off n)) :
    (b.write (off % bSize) (piece off n) src).byte (x % bSize) = b.byte (x % bSize) := by
  have hmod : x % bSize < off % bSize ∨ off % bSize + piece off n ≤ x % bSize := by
    simp only [bSize] at *
    omega
  rcases hmod with hlow | hhigh
  · exact Block.byte_write_of_lt hlow
  · exact Block.byte_write_of_ge hhigh

theorem filled_of_lt (h : Booked sb d inodes (extents len)) (hi : Live sb inodes i)
    (hx : x / bSize < len i) (hmax : x / bSize < maxFile) :
    slotAddr d (inodes i) (leaf (x / bSize)) ≠ 0 := by
  rw [h.mapped.filled i _ hi, extents, level_leaf hmax]
  exact hx

namespace Overlaid

variable {src : ℕ → Byte}

theorem nothing (h : Booked sb d inodes (extents len)) (hoff : off ≤ bSize * len i) :
    Overlaid sb d inodes len i off 0 src d (inodes i) where
  booked := by
    rw [Nat.add_zero, Nat.max_eq_left (blocksFor_le hoff), update_eq_self,
      update_eq_self]
    exact h
  same := .refl _
  slots _ _ := rfl
  dinodes _ _ := rfl
  others _ _ _ _ _ := rfl
  self x _ := by rw [splice_zero]

/-- A piece is written to the block of the file that it lies in. -/
theorem of_piece {b : ℕ} (h : Booked sb d inodes (extents len))
    (hshort : ∀ j, Live sb inodes j → len j ≤ maxFile) (hi : Live sb inodes i)
    (hoff : off ≤ bSize * len i) (hend : off + n ≤ maxFile * bSize) (hn : n ≠ 0)
    (hok : bmap sb d (inodes i) (off / bSize) = .ok (d', ip', b)) :
    Overlaid sb d inodes len i off (piece off n) src
      (update d' b ((d' b).write (off % bSize) (piece off n) src)) ip' := by
  have hpos : 0 < piece off n := piece_pos hn
  have hle := piece_le off n
  have hin := off_add_piece off n
  have hbn : off / bSize < maxFile := by
    simp only [bSize, maxFile] at *
    omega
  have hlast : off / bSize ≤ len i := by
    simp only [bSize] at *
    omega
  obtain ⟨hbooked, hgrows, hsame, hne, rfl⟩ := h.bmap_spec hi hlast hbn hok
  have hself : update inodes i ip' i = ip' := update_self ..
  have hi' : Live sb (update inodes i ip') i := (hgrows.live i).mpr hi
  have hheld : holding sb d' (update inodes i ip') (i, leaf (off / bSize)) =
      some (blockOf d' ip' (off / bSize)) := by
    rw [holding_eq_some, hself]
    exact ⟨hi', hne, rfl⟩
  have hdata := (hbooked.mapped.range_slot hi' (hself.symm ▸ hne)).1
  rw [hself] at hdata
  set w := (d' (blockOf d' ip' (off / bSize))).write (off % bSize) (piece off n) src
  refine ⟨?_, hsame, ?_, ?_, ?_, ?_⟩
  · rw [blocksFor_piece hn]
    exact hbooked.update_leaf hheld (leaf_ne_table _) _
  · intro s hs
    have hwrite := hbooked.mapped.slotAddr_update_leaf hheld (leaf_ne_table _) w hi'
    have hgrown := hgrows.slots i s hi hs
    rw [hself] at hwrite hgrown
    rw [hwrite, hgrown]
  · intro j hj
    exact (Disk.dinode_update_of_ge h.laid hj hdata).trans (hgrows.dinodes j hj)
  · intro j x hji hj hx
    have hmax := hx.trans_le (hshort j hj)
    have hslot := filled_of_lt h hj hx hmax
    have hother : update inodes i ip' j = inodes j := update_of_ne hji ..
    have hj' : Live sb (update inodes i ip') j := (hgrows.live j).mpr hj
    have hgrown := hgrows.byteAt_eq hj hslot
    have hslot' := (hgrows.slots j _ hj hslot).trans_ne hslot
    have hwrite := hbooked.mapped.byteAt_update hheld w hj' hbn hmax hslot'
    rw [if_neg fun hh ↦ hji hh.1, hother] at hwrite
    rw [hother] at hgrown
    exact hwrite.trans hgrown
  · intro x hx
    have hold : x / bSize < len i → slotAddr d' ip' (leaf (x / bSize)) ≠ 0 ∧
        byteAt d' ip' x = byteAt d (inodes i) x := by
      intro hlt
      have hslot := filled_of_lt h hi hlt (hlt.trans_le (hshort i hi))
      have hgrown := hgrows.slots i _ hi hslot
      have hbyte := hgrows.byteAt_eq hi hslot
      rw [hself] at hgrown hbyte
      exact ⟨hgrown.trans_ne hslot, hbyte⟩
    have hupdate := hbooked.mapped.byteAt_update (x := x) hheld w hi' hbn
    rw [hself] at hupdate
    by_cases hmem : off ≤ x ∧ x < off + piece off n
    · obtain ⟨k, rfl⟩ := Nat.exists_eq_add_of_le hmem.1
      have hk : k < piece off n := Nat.lt_of_add_lt_add_left hmem.2
      have hdiv := div_of_lt_piece hk
      rw [hdiv] at hupdate
      rw [hupdate hbn hne, if_pos ⟨rfl, rfl⟩, mod_of_lt_piece hk,
        Block.byte_write_add hk (by omega), splice_add hk]
    · have hlt : x / bSize < len i := hx.resolve_right hmem
      have hsplice : splice (byteAt d (inodes i)) off (piece off n) src x = byteAt d (inodes i) x :=
        if_neg hmem
      obtain ⟨hslot, hbyte⟩ := hold hlt
      rw [hupdate (hlt.trans_le (hshort i hi)) hslot, hsplice]
      split
      · rename_i hblock
        rw [← hbyte, byteAt, hblock.2]
        exact byte_write_of_outside hblock.2 hmem
      · exact hbyte

theorem live (h : Overlaid sb d inodes len i off n src d' ip') (j : ℕ) :
    Live sb (update inodes i ip') j ↔ Live sb inodes j := by
  apply live_update
  rw [h.same]

/-- The files stay below the limit. -/
theorem short (h : Overlaid sb d inodes len i off n src d' ip')
    (hshort : ∀ j, Live sb inodes j → len j ≤ maxFile) (hend : off + n ≤ maxFile * bSize) (j : ℕ)
    (hj : Live sb (update inodes i ip') j) :
    update len i (max (len i) (blocksFor (off + n))) j ≤ maxFile := by
  have hle := hshort j ((h.live j).mp hj)
  by_cases heq : j = i
  · rw [heq] at hle
    rw [heq, update_self]
    exact max_le hle (blocksFor_le (Nat.mul_comm maxFile bSize ▸ hend))
  · rw [update_of_ne heq]
    exact hle

/-- Two overlays, one right behind the other. -/
theorem trans {m : ℕ} {d'' : Disk} {ip'' : Dinode} (h : Overlaid sb d inodes len i off m src d' ip')
    (h' : Overlaid sb d' (update inodes i ip')
      (update len i (max (len i) (blocksFor (off + m)))) i (off + m) n
      (fun k ↦ src (m + k)) d'' ip'') :
    Overlaid sb d inodes len i off (m + n) src d'' ip'' := by
  have hself : update inodes i ip' i = ip' := update_self ..
  refine ⟨?_, ?_, ?_, ?_, ?_, ?_⟩
  · have hbooked := h'.booked
    have hmono : blocksFor (off + m) ≤ blocksFor (off + (m + n)) :=
      Nat.div_le_div_right (by omega)
    rwa [update_idem, update_idem, update_self, Nat.add_assoc,
      Nat.max_assoc, Nat.max_eq_right hmono] at hbooked
  · have hsame := h'.same
    rw [hself] at hsame
    exact h.same.trans hsame
  · intro s hs
    have hslot := h.slots s hs
    have hthen := h'.slots s
    rw [hself] at hthen
    rw [hthen (hslot.trans_ne hs), hslot]
  · exact fun j hj ↦ (h'.dinodes j hj).trans (h.dinodes j hj)
  · intro j x hji hj hx
    have hother : update inodes i ip' j = inodes j := update_of_ne hji ..
    have hthen := h'.others j x hji ((h.live j).mpr hj)
    rw [hother, update_of_ne hji] at hthen
    exact (hthen hx).trans (h.others j x hji hj hx)
  · intro x hx
    have hthen := h'.self x
    rw [hself, update_self] at hthen
    rw [← splice_splice m]
    by_cases hmem : off + m ≤ x ∧ x < off + m + n
    · rw [hthen (.inr hmem), splice_of_mem hmem.1 hmem.2, splice_of_mem hmem.1 hmem.2]
    · have hfirst : x / bSize < len i ∨ (off ≤ x ∧ x < off + m) := by
        rcases hx with hlt | hrange
        · exact .inl hlt
        · right
          omega
      have hlt : x / bSize < max (len i) (blocksFor (off + m)) := by
        rcases hfirst with hlt | hrange
        · exact lt_max_of_lt_left hlt
        · exact lt_max_of_lt_right (div_lt_blocksFor hrange.2)
      have hkeep : ∀ f : ℕ → Byte,
          splice f (off + m) n (fun k ↦ src (m + k)) x = f x := fun f ↦ if_neg hmem
      rw [hthen (.inl hlt), hkeep, hkeep]
      exact h.self x hfirst

end Overlaid

theorem writeLoop_spec {src : ℕ → Byte} (hfuel : n ≤ fuel)
    (h : Booked sb d inodes (extents len)) (hshort : ∀ j, Live sb inodes j → len j ≤ maxFile)
    (hi : Live sb inodes i) (hoff : off ≤ bSize * len i) (hend : off + n ≤ maxFile * bSize)
    (hok : writeLoop sb fuel d (inodes i) src off n = .ok (d', ip')) :
    Overlaid sb d inodes len i off n src d' ip' := by
  induction fuel generalizing d inodes len src off n with
  | zero =>
    have hn : n = 0 := Nat.le_zero.mp hfuel
    subst hn
    cases hok
    exact .nothing h hoff
  | succ fuel ih =>
    rw [writeLoop] at hok
    by_cases hn : n = 0
    · subst hn
      rw [if_pos rfl] at hok
      cases hok
      exact .nothing h hoff
    · rw [if_neg hn] at hok
      have hle := piece_le off n
      have hpos : 0 < piece off n := piece_pos hn
      obtain ⟨⟨d₁, ip₁, b⟩, hbmap, hok⟩ := Outcome.bind_eq_ok hok
      have hfirst : Overlaid sb d inodes len i off (piece off n) src _ ip₁ :=
        .of_piece h hshort hi hoff hend hn hbmap
      have hself : update inodes i ip₁ i = ip₁ := update_self ..
      change writeLoop sb fuel (update d₁ b ((d₁ b).write (off % bSize) (piece off n) src))
        ip₁ (fun k ↦ src (piece off n + k)) (off + piece off n) (n - piece off n) = _ at hok
      rw [← hself] at hok
      have hoff' : off + piece off n ≤
          bSize * update len i (max (len i) (blocksFor (off + piece off n))) i := by
        rw [update_self]
        exact (le_blocksFor _).trans (Nat.mul_le_mul_left _ (le_max_right _ _))
      have hrest := ih (by omega) hfirst.booked (hfirst.short hshort (by omega))
        ((hfirst.live i).mpr hi) hoff' (by omega) hok
      have hall := hfirst.trans hrest
      rwa [Nat.add_sub_cancel' hle] at hall

/-- The only panic of the loop is that of `balloc`. -/
theorem writeLoop_error {src : ℕ → Byte} {e : FsPanic} (hend : off + n ≤ maxFile * bSize)
    (h : writeLoop sb fuel d ip src off n = .error e) : e = .outOfBlocks := by
  induction fuel generalizing d ip src off n with
  | zero => cases h
  | succ fuel ih =>
    rw [writeLoop] at h
    by_cases hn : n = 0
    · rw [if_pos hn] at h
      cases h
    · rw [if_neg hn] at h
      have hbn : off / bSize < maxFile := by
        simp only [bSize, maxFile] at *
        omega
      rcases Outcome.bind_eq_error h with hbmap | ⟨r, -, hrest⟩
      · exact Booked.bmap_error hbn hbmap
      · exact ih (by omega) hrest

end Xv6Mmap.Fs
