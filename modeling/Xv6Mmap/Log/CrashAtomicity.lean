import Xv6Mmap.Log.Commit

/-!
# Crash atomicity of the redo log

Single-block writes are atomic and reach the disk in program order, so a crash inside a run leaves
the disk after a prefix of the blocks handed to `bwrite`.  Three phases cover every such disk: the
header is still empty and the home blocks are old (`Pending`), the header names the transaction
and the log holds its blocks (`Committed`), or the header is empty again and the home blocks are
new (`Installed`).  `commit` moves from the first to the last; a crashed recovery stays in its
phase or moves from the second to the third; a complete recovery never ends in the second.
-/

namespace Xv6Mmap.Log

open Function Library BlockWrites BitVec List

@[simp]
theorem count_zero : (0 : Word).count = 0 := by decide

theorem toInt_pos_iff (w : Word) : 0 < w.toInt ↔ 0 < w.count := by
  unfold Word.count
  omega

theorem count_lt (w : Word) : w.count < 2 ^ 31 := by
  have := toInt_lt (x := w)
  unfold Word.count
  omega

namespace BlockData

theorem word_setWord (data : BlockData) (i j : ℕ) (value : Word) (hj : j < 128) :
    (data.setWord i value).word j = if j = i then value else data.word j := by
  simp [word, setWord, hj]

end BlockData

namespace State

theorem word_encode (block : ℕ → Word) (data : BlockData) (m j : ℕ) (hj : j < 128) :
    ((range m).foldl (fun hb i ↦ hb.setWord (1 + i) (block i)) data).word j =
      if 0 < j ∧ j ≤ m then block (j - 1) else data.word j := by
  induction m with
  | zero =>
    rw [if_neg (by omega)]
    rfl
  | succ m ih =>
    rw [range_succ, foldl_append, foldl_cons, foldl_nil,
      BlockData.word_setWord _ _ _ _ hj, ih]
    by_cases hlast : j = 1 + m
    · subst hlast
      simp [Nat.add_comm]
    · have hiff : (0 < j ∧ j ≤ m) ↔ (0 < j ∧ j ≤ m + 1) := by omega
      simp [hlast, hiff]

theorem encodeHead_zero (lh : LogHeader) (buf : BlockData) :
    (encodeHead lh buf).word 0 = lh.n := by
  unfold encodeHead
  rw [word_encode _ _ _ _ (by omega), BlockData.word_setWord _ _ _ _ (by omega)]
  simp

theorem encodeHead_succ (lh : LogHeader) (buf : BlockData) (i : ℕ) (hi : i < lh.n.count)
    (hfits : lh.n.count ≤ logSize) : (encodeHead lh buf).word (1 + i) = lh.block i := by
  have hbound : 1 + i < 128 := by
    unfold logSize at hfits
    omega
  unfold encodeHead
  rw [word_encode _ _ _ _ hbound, if_pos (by omega)]
  simp

/-! ## Runs as lists of writes -/

/-- The state after a list of blocks has been handed to `bwrite`. -/
def writeAll (s : State) (writes : List (Word × BlockData)) : State :=
  { s with
    disk := perform s.disk writes
    cache := perform s.cache writes
    writes := s.writes ++ writes }

theorem bwrite_eq_writeAll (s : State) (blockno : Word) (data : BlockData) :
    s.bwrite blockno data = s.writeAll [(blockno, data)] := rfl

theorem writeAll_writeAll (s : State) (first second : List (Word × BlockData)) :
    (s.writeAll first).writeAll second = s.writeAll (first ++ second) := by
  simp [writeAll, perform_append, List.append_assoc]

/-- A loop whose `tail`-th iteration writes `value tail` to `address tail` performs these writes
in order, when neither depends on what earlier iterations wrote. -/
theorem foldl_bwrite (s : State) (address : State → ℕ → Word) (value : State → ℕ → BlockData)
    (m : ℕ) (haddress : ∀ writes tail, address (s.writeAll writes) tail = address s tail)
    (hvalue : ∀ tail < m, value (s.writeAll (indexed (address s) (value s) (range tail))) tail =
      value s tail) :
    (range m).foldl (fun s tail ↦ s.bwrite (address s tail) (value s tail)) s =
      s.writeAll (indexed (address s) (value s) (range m)) := by
  induction m with
  | zero => simp [indexed, writeAll]
  | succ m ih =>
    have hprefix := ih fun tail htail ↦ hvalue tail (Nat.lt_succ_of_lt htail)
    rw [range_succ, foldl_append, foldl_cons, foldl_nil, hprefix,
      haddress, hvalue m (Nat.lt_succ_self m), bwrite_eq_writeAll, writeAll_writeAll,
      indexed_append]
    rfl

/-- The log area on disk, header block included. -/
def InLog (s : State) (b : Word) : Prop := ∃ i < s.size.count, b = s.start + BitVec.ofNat 32 i

/-- What `log_write` maintains of the in-memory header: the logged blocks are distinct, fit the
header and the log area, and are not log blocks themselves. -/
structure Loggable (s : State) : Prop where
  fits : s.lh.n.count ≤ logSize
  room : s.lh.n.count < s.size.count
  distinct : ∀ i < s.lh.n.count, ∀ j < s.lh.n.count, s.lh.block i = s.lh.block j → i = j
  outside : ∀ i < s.lh.n.count, ¬ s.InLog (s.lh.block i)

variable {s : State} {tail : ℕ}

theorem inLog_start (h : s.Loggable) : s.InLog s.start :=
  ⟨0, by have := h.room; omega, by simp⟩

theorem inLog_logBlock (h : s.Loggable) (htail : tail < s.lh.n.count) :
    s.InLog (s.logBlock tail) :=
  ⟨tail + 1, by have := h.room; omega, rfl⟩

theorem logBlock_ne_start (s : State) (htail : tail < 2 ^ 31) :
    s.logBlock tail ≠ s.start := by
  intro hequal
  have hnat := congrArg BitVec.toNat hequal
  simp only [logBlock, toNat_add, toNat_ofNat] at hnat
  omega

theorem logBlock_injective (s : State) {i j : ℕ} (hi : i < 2 ^ 31) (hj : j < 2 ^ 31)
    (hequal : s.logBlock i = s.logBlock j) : i = j := by
  have hnat := congrArg BitVec.toNat hequal
  simp only [logBlock, toNat_add, toNat_ofNat] at hnat
  omega

/-- The content a transaction gives each block it logged. -/
def logged (s : State) (tail : ℕ) : BlockData := s.cache (s.lh.block tail)

theorem writeLog_eq (h : s.Loggable) :
    s.writeLog = s.writeAll (indexed s.logBlock s.logged (range s.lh.n.count)) := by
  refine foldl_bwrite s logBlock logged _ (fun _ _ ↦ rfl) fun tail htail ↦ ?_
  change perform s.cache _ (s.lh.block tail) = s.cache (s.lh.block tail)
  apply perform_indexed_of_ne
  intro index hindex hequal
  have hlt : index < s.lh.n.count := (mem_range.mp hindex).trans htail
  exact h.outside tail htail (hequal ▸ inLog_logBlock h hlt)

/-- Installing copies each log block to the home block the header names. -/
theorem installTrans_eq (s : State)
    (houtside : ∀ i < s.lh.n.count, ∀ j < s.lh.n.count, s.lh.block i ≠ s.logBlock j) :
    s.installTrans = s.writeAll
      (indexed s.lh.block (fun tail ↦ s.cache (s.logBlock tail)) (range s.lh.n.count)) := by
  refine foldl_bwrite s (fun s tail ↦ s.lh.block tail) (fun s tail ↦ s.cache (s.logBlock tail))
    _ (fun _ _ ↦ rfl) fun tail htail ↦ ?_
  change perform s.cache _ (s.logBlock tail) = s.cache (s.logBlock tail)
  apply perform_indexed_of_ne
  intro index hindex
  exact houtside index ((mem_range.mp hindex).trans htail) tail htail

/-- The header block that names the transaction. -/
def headBlock (s : State) : BlockData :=
  encodeHead s.lh (perform s.cache (indexed s.logBlock s.logged (List.range s.lh.n.count)) s.start)

/-- The header block with `n = 0` written over a given one. -/
def emptyHead (lh : LogHeader) (buf : BlockData) : BlockData := encodeHead { lh with n := 0 } buf

theorem emptyHead_zero (lh : LogHeader) (buf : BlockData) : (emptyHead lh buf).word 0 = 0 :=
  encodeHead_zero _ _

/-- All disk writes of a commit, in program order. -/
def commitWrites (s : State) : List (Word × BlockData) :=
  indexed s.logBlock s.logged (List.range s.lh.n.count) ++
    (s.start, s.headBlock) ::
      (indexed s.lh.block s.logged (List.range s.lh.n.count) ++
        [(s.start, emptyHead s.lh s.headBlock)])

theorem cache_after_head (h : s.Loggable) (htail : tail < s.lh.n.count) :
    (s.writeLog.writeHead).cache (s.logBlock tail) = s.logged tail := by
  have hn := count_lt s.lh.n
  rw [writeLog_eq h]
  change update (perform s.cache _) s.start _ (s.logBlock tail) = _
  rw [update_of_ne (s.logBlock_ne_start (by omega))]
  apply perform_indexed_of_mem
  · intro i hi j hj hequal
    have hi' := mem_range.mp hi
    have hj' := mem_range.mp hj
    exact s.logBlock_injective (by omega) (by omega) hequal
  · exact mem_range.mpr htail

theorem writes_commit (h : s.Loggable) (hpos : 0 < s.lh.n.count) :
    s.commit.writes = s.writes ++ s.commitWrites := by
  unfold commit
  rw [if_pos ((toInt_pos_iff _).mpr hpos)]
  have hlog := writeLog_eq h
  have hlh : s.writeLog.writeHead.lh = s.lh := by rw [hlog]; rfl
  have hstart : s.writeLog.writeHead.start = s.start := by rw [hlog]; rfl
  have hinstall : s.writeLog.writeHead.installTrans = s.writeLog.writeHead.writeAll
      (indexed s.lh.block s.logged (range s.lh.n.count)) := by
    rw [installTrans_eq, hlh]
    · congr 1
      apply map_congr_left
      intro tail htail
      have hcache := cache_after_head h (mem_range.mp htail)
      have hblock : s.writeLog.writeHead.logBlock tail = s.logBlock tail := by
        unfold logBlock
        rw [hstart]
      change (s.lh.block tail, s.writeLog.writeHead.cache (s.writeLog.writeHead.logBlock tail)) = _
      rw [hblock, hcache]
    · intro i hi j hj hequal
      rw [hlh] at hi hj hequal
      apply h.outside i hi
      rw [hequal]
      have hblock : s.writeLog.writeHead.logBlock j = s.logBlock j := by
        unfold logBlock
        rw [hstart]
      exact hblock ▸ inLog_logBlock h hj
  have hcached : (s.writeLog.writeHead.writeAll
      (indexed s.lh.block s.logged (range s.lh.n.count))).cache s.start = s.headBlock := by
    change perform s.writeLog.writeHead.cache _ s.start = _
    rw [perform_indexed_of_ne]
    · rw [hlog]
      change update _ s.start _ s.start = _
      rw [update_self]
      rfl
    · intro i hi hequal
      exact h.outside i (mem_range.mp hi) (hequal ▸ inLog_start h)
  rw [hinstall]
  change (s.writeLog.writes ++ [(s.writeLog.start, encodeHead s.writeLog.lh _)] ++ _) ++
    [(s.writeLog.writeHead.start, encodeHead { s.writeLog.writeHead.lh with n := 0 }
      ((s.writeLog.writeHead.writeAll
        (indexed s.lh.block s.logged (range s.lh.n.count))).cache s.writeLog.writeHead.start))] = _
  rw [hstart, hcached, hlh, hlog]
  simp [commitWrites, writeAll, headBlock, emptyHead, bread]

/-- The disk writes a run issues. -/
def issued (run : State → State) (s : State) : List (Word × BlockData) :=
  (run { s with writes := [] }).writes

/-- The disk after a crash of `run` behind its first `k` disk writes. -/
def crashDisk (run : State → State) (s : State) (k : ℕ) : Word → BlockData :=
  perform s.disk ((s.issued run).take k)

/-- The machine started again on a disk: the buffer cache and `log.lh` are empty. -/
def reboot (s : State) (disk : Word → BlockData) : State :=
  { s with disk := disk, cache := disk, lh := { n := 0, block := fun _ ↦ 0 }, writes := [] }

/-- The disk after recoveries that crash behind their first `k` writes, for each `k` of the list,
each on the disk the one before it left. -/
def crashedRecoveries (s : State) (disk : Word → BlockData) (crashes : List ℕ) : Word → BlockData :=
  crashes.foldl (fun disk k ↦ (s.reboot disk).crashDisk recoverFromLog k) disk

def recovered (s : State) (disk : Word → BlockData) : Word → BlockData :=
  (s.reboot disk).recoverFromLog.disk

def HomeEq (s : State) (left right : Word → BlockData) : Prop :=
  ∀ b, ¬ s.InLog b → left b = right b

/-- The disk with all blocks of the transaction written home. -/
def transactionDisk (s : State) : Word → BlockData :=
  perform s.disk (indexed s.lh.block s.logged (List.range s.lh.n.count))

/-- The first `write_head` of the commit is among the first `k` disk writes. -/
def HeadWritten (s : State) (k : ℕ) : Prop :=
  ∃ data, (s.start, data) ∈ (s.issued commit).take k

/-! ## The three phases of the disk -/

structure Pending (s : State) (disk : Word → BlockData) : Prop where
  empty : (disk s.start).word 0 = 0
  home : s.HomeEq disk s.disk

structure Committed (s : State) (disk : Word → BlockData) : Prop where
  count : (disk s.start).word 0 = s.lh.n
  blocks : ∀ i < s.lh.n.count, (disk s.start).word (1 + i) = s.lh.block i
  copies : ∀ i < s.lh.n.count, disk (s.logBlock i) = s.logged i
  home : ∀ b, ¬ s.InLog b → (∀ i < s.lh.n.count, s.lh.block i ≠ b) → disk b = s.disk b

structure Installed (s : State) (disk : Word → BlockData) : Prop where
  empty : (disk s.start).word 0 = 0
  home : s.HomeEq disk s.transactionDisk

theorem transactionDisk_logged (h : s.Loggable) {i : ℕ} (hi : i < s.lh.n.count) :
    s.transactionDisk (s.lh.block i) = s.logged i := by
  apply perform_indexed_of_mem
  · intro j hj k hk
    exact h.distinct j (mem_range.mp hj) k (mem_range.mp hk)
  · exact mem_range.mpr hi

theorem transactionDisk_other (s : State) {b : Word} (hb : ∀ i < s.lh.n.count, s.lh.block i ≠ b) :
    s.transactionDisk b = s.disk b := by
  apply perform_indexed_of_ne
  intro i hi
  exact hb i (mem_range.mp hi)

variable {disk : Word → BlockData}

/-- Part of the installation leaves the disk committed. -/
theorem Committed.install (h : s.Loggable)
    (hdisk : s.Committed disk) {indices : List ℕ} (hindices : ∀ i ∈ indices, i < s.lh.n.count) :
    s.Committed (perform disk (indexed s.lh.block s.logged indices)) := by
  have hlog (b : Word) (hb : s.InLog b) :
      perform disk (indexed s.lh.block s.logged indices) b = disk b := by
    grind [perform_indexed_of_ne, h.outside]
  refine ⟨?_, ?_, ?_, ?_⟩
  · rw [hlog _ (inLog_start h)]
    exact hdisk.count
  · rw [hlog _ (inLog_start h)]
    exact hdisk.blocks
  · intro i hi
    rw [hlog _ (inLog_logBlock h hi)]
    exact hdisk.copies i hi
  · grind [perform_indexed_of_ne, hdisk.home]

/-- The whole installation followed by the cleared header leaves the disk installed. -/
theorem Committed.installed (h : s.Loggable)
    (hdisk : s.Committed disk) {head : BlockData} (hhead : head.word 0 = 0) :
    s.Installed (perform disk
      (indexed s.lh.block s.logged (range s.lh.n.count) ++ [(s.start, head)])) := by
  rw [perform_append]
  constructor
  · rw [perform_cons, perform_nil, update_self]
    exact hhead
  · intro b hb
    have hstart : s.start ≠ b := fun hequal ↦ hb (hequal ▸ inLog_start h)
    rw [perform_cons, perform_nil, update_of_ne hstart.symm]
    by_cases hlogged : ∃ i < s.lh.n.count, s.lh.block i = b
    · obtain ⟨i, hi, rfl⟩ := hlogged
      rw [transactionDisk_logged h hi]
      apply perform_indexed_of_mem
      · intro j hj k hk
        exact h.distinct j (mem_range.mp hj) k (mem_range.mp hk)
      · exact mem_range.mpr hi
    · push Not at hlogged
      rw [transactionDisk_other s hlogged,
        perform_indexed_of_ne _ _ _ _ _ fun i hi ↦ hlogged i (mem_range.mp hi)]
      exact hdisk.home b hb hlogged

/-! ## Crashes inside a commit -/

theorem issued_commit (h : s.Loggable) (hpos : 0 < s.lh.n.count) :
    s.issued commit = s.commitWrites :=
  writes_commit (s := { s with writes := [] }) { h with } hpos

theorem pending_start (hempty : (s.disk s.start).word 0 = 0) : s.Pending s.disk :=
  ⟨hempty, fun _ _ ↦ rfl⟩

theorem pending_copies (h : s.Loggable) (hempty : (s.disk s.start).word 0 = 0)
    {indices : List ℕ} (hindices : ∀ i ∈ indices, i < s.lh.n.count) :
    s.Pending (perform s.disk (indexed s.logBlock s.logged indices)) := by
  constructor
  · rw [perform_indexed_of_ne]
    · exact hempty
    · intro i hi
      have := count_lt s.lh.n
      have := hindices i hi
      exact s.logBlock_ne_start (by omega)
  · intro b hb
    apply perform_indexed_of_ne
    intro i hi hequal
    exact hb (hequal ▸ inLog_logBlock h (hindices i hi))

theorem committed_head (h : s.Loggable) :
    s.Committed (perform s.disk
      (indexed s.logBlock s.logged (range s.lh.n.count) ++ [(s.start, s.headBlock)])) := by
  have hn := count_lt s.lh.n
  rw [perform_append, perform_cons, perform_nil]
  refine ⟨?_, ?_, ?_, ?_⟩
  · rw [update_self]
    exact encodeHead_zero _ _
  · intro i hi
    rw [update_self]
    exact encodeHead_succ _ _ i hi h.fits
  · intro i hi
    rw [update_of_ne (s.logBlock_ne_start (by omega))]
    apply perform_indexed_of_mem
    · intro j hj k hk hequal
      have hj' := mem_range.mp hj
      have hk' := mem_range.mp hk
      exact s.logBlock_injective (by omega) (by omega) hequal
    · exact mem_range.mpr hi
  · grind [inLog_start, update_apply, perform_indexed_of_ne, inLog_logBlock]

variable {k : ℕ}

theorem mem_take_range {m i : ℕ} (hi : i ∈ (range m).take k) : i < m :=
  mem_range.mp (mem_of_mem_take hi)

/-- Before its header write a crashed commit has changed nothing but log blocks. -/
theorem crash_commit_pending (h : s.Loggable) (hempty : (s.disk s.start).word 0 = 0)
    (hk : k ≤ s.lh.n.count) : s.Pending (s.crashDisk commit k) := by
  unfold crashDisk
  rcases Nat.eq_zero_or_pos s.lh.n.count with hzero | hpos
  · have hnone : k = 0 := by omega
    rw [hnone, take_zero]
    exact pending_start hempty
  · rw [issued_commit h hpos, commitWrites, take_append_of_le_length (by simpa using hk),
      take_indexed]
    exact pending_copies h hempty fun i hi ↦ mem_take_range hi

/-- From its header write on a crashed commit has left the whole transaction on disk. -/
theorem crash_commit_committed (h : s.Loggable) (hpos : 0 < s.lh.n.count) (hk : s.lh.n.count < k) :
    s.Committed (s.crashDisk commit k) ∨ s.Installed (s.crashDisk commit k) := by
  have hsplit : (s.issued commit).take k =
      (indexed s.logBlock s.logged (range s.lh.n.count) ++ [(s.start, s.headBlock)]) ++
        (indexed s.lh.block s.logged (range s.lh.n.count) ++
          [(s.start, emptyHead s.lh s.headBlock)]).take (k - s.lh.n.count - 1) := by
    have hmore : k - s.lh.n.count = (k - s.lh.n.count - 1) + 1 := by omega
    rw [issued_commit h hpos, commitWrites, take_append,
      take_of_length_le (by simpa using hk.le), length_indexed, length_range, hmore,
      take_succ_cons]
    simp
  unfold crashDisk
  rw [hsplit, perform_append]
  have hhead := committed_head h
  by_cases hinstall : k - s.lh.n.count - 1 ≤ s.lh.n.count
  · left
    rw [take_append_of_le_length (by simpa using hinstall), take_indexed]
    exact hhead.install h fun i hi ↦ mem_take_range hi
  · right
    rw [take_of_length_le (by simp; omega)]
    exact hhead.installed h (emptyHead_zero _ _)

/-- Only the header write of a commit goes to the header block before the installation. -/
theorem count_lt_of_headWritten (h : s.Loggable) (hk : s.HeadWritten k) :
    0 < s.lh.n.count ∧ s.lh.n.count < k := by
  obtain ⟨data, hdata⟩ := hk
  rcases Nat.eq_zero_or_pos s.lh.n.count with hzero | hpos
  · have hnone : s.issued commit = [] := by
      have hint : ¬ 0 < s.lh.n.toInt := by
        rw [toInt_pos_iff]
        omega
      simp [issued, commit, hint]
    simp [hnone] at hdata
  · refine ⟨hpos, ?_⟩
    by_contra hle
    rw [issued_commit h hpos, commitWrites, take_append_of_le_length (by simp; omega)] at hdata
    obtain ⟨i, hi, hequal⟩ := (mem_indexed _ _).mp (mem_of_mem_take hdata)
    have hi' := mem_range.mp hi
    have := count_lt s.lh.n
    exact s.logBlock_ne_start (by omega) (congrArg Prod.fst hequal)

/-! ## Recovery -/

/-- Recovery installs what the header names and then clears the header. -/
theorem recover_eq_writeAll (s : State) (disk : Word → BlockData) (indices : ℕ) (block : ℕ → Word)
    (hcount : ((disk s.start).word 0).count = indices)
    (hblock : ∀ i < indices, (disk s.start).word (1 + i) = block i)
    (houtside : ∀ i < indices, ∀ j < indices, block i ≠ s.logBlock j) :
    ∃ head, head.word 0 = 0 ∧
      (s.reboot disk).recoverFromLog.writes =
        indexed block (fun i ↦ disk (s.logBlock i)) (range indices) ++ [(s.start, head)] ∧
      (s.reboot disk).recoverFromLog.disk = perform disk
        (indexed block (fun i ↦ disk (s.logBlock i)) (range indices) ++ [(s.start, head)]) := by
  subst hcount
  have hread (i : ℕ) (hi : i < ((disk s.start).word 0).count) :
      (s.reboot disk).readHead.lh.block i = block i := by
    change (if i < ((disk s.start).word 0).count then _ else _) = _
    rw [if_pos hi]
    exact hblock i hi
  have hinstall : (s.reboot disk).readHead.installTrans = (s.reboot disk).readHead.writeAll
      (indexed block (fun i ↦ disk (s.logBlock i))
        (range ((disk s.start).word 0).count)) := by
    rw [installTrans_eq]
    · congr 1
      apply map_congr_left
      intro i hi
      exact Prod.ext (hread i (mem_range.mp hi)) rfl
    · intro i hi j hj
      rw [hread i hi]
      exact houtside i hi j hj
  refine ⟨_, encodeHead_zero (s.reboot disk).readHead.installTrans.clearHead.lh
    ((s.reboot disk).readHead.installTrans.clearHead.bread s.start), ?_, ?_⟩
  · change ((s.reboot disk).readHead.installTrans.clearHead.writeHead).writes = _
    rw [hinstall]
    rfl
  · change ((s.reboot disk).readHead.installTrans.clearHead.writeHead).disk = _
    rw [hinstall, perform_append]
    rfl

/-- With an empty header recovery only rewrites the header block. -/
theorem recover_of_empty (s : State) (h : (disk s.start).word 0 = 0) :
    ∃ head, head.word 0 = 0 ∧ (s.reboot disk).issued recoverFromLog = [(s.start, head)] ∧
      s.recovered disk = perform disk [(s.start, head)] := by
  have hcount : ((disk s.start).word 0).count = 0 := by rw [h]; exact count_zero
  have hspec := recover_eq_writeAll s disk 0 (fun _ ↦ 0) hcount (by omega) (by omega)
  exact hspec

theorem recover_of_committed (h : s.Loggable) (hdisk : s.Committed disk) :
    ∃ head, head.word 0 = 0 ∧
      (s.reboot disk).issued recoverFromLog =
        indexed s.lh.block s.logged (range s.lh.n.count) ++ [(s.start, head)] ∧
      s.recovered disk = perform disk
        (indexed s.lh.block s.logged (range s.lh.n.count) ++ [(s.start, head)]) := by
  have hcopies : indexed s.lh.block (fun i ↦ disk (s.logBlock i)) (range s.lh.n.count) =
      indexed s.lh.block s.logged (range s.lh.n.count) := by
    apply map_congr_left
    intro i hi
    exact Prod.ext rfl (hdisk.copies i (mem_range.mp hi))
  have hspec := recover_eq_writeAll s disk s.lh.n.count s.lh.block (by rw [hdisk.count])
    hdisk.blocks fun i hi j hj hequal ↦ h.outside i hi (hequal ▸ inLog_logBlock h hj)
  rw [hcopies] at hspec
  exact hspec

theorem homeEq_head (h : s.Loggable) (disk : Word → BlockData) (head : BlockData)
    (k : ℕ) : s.HomeEq (perform disk ([(s.start, head)].take k)) disk := by
  intro b hb
  apply perform_of_not_written
  intro write hwrite hequal
  have hmem := mem_of_mem_take hwrite
  rw [mem_singleton] at hmem
  exact hb (by rw [← hequal, hmem]; exact inLog_start h)

theorem empty_head (h : (disk s.start).word 0 = 0)
    {head : BlockData} (hhead : head.word 0 = 0) (k : ℕ) :
    (perform disk ([(s.start, head)].take k) s.start).word 0 = 0 := by
  cases k with
  | zero => exact h
  | succ k =>
    rw [take_succ_cons, take_nil, perform_cons, perform_nil, update_self]
    exact hhead

section

variable (h : s.Loggable)
include h

theorem Pending.crash (hdisk : s.Pending disk) (k : ℕ) :
    s.Pending ((s.reboot disk).crashDisk recoverFromLog k) := by
  obtain ⟨head, hhead, hissued, -⟩ := recover_of_empty s hdisk.empty
  unfold crashDisk
  rw [hissued]
  exact ⟨empty_head hdisk.empty hhead k,
    fun b hb ↦ (homeEq_head h disk head k b hb).trans (hdisk.home b hb)⟩

theorem Installed.crash (hdisk : s.Installed disk) (k : ℕ) :
    s.Installed ((s.reboot disk).crashDisk recoverFromLog k) := by
  obtain ⟨head, hhead, hissued, -⟩ := recover_of_empty s hdisk.empty
  unfold crashDisk
  rw [hissued]
  exact ⟨empty_head hdisk.empty hhead k,
    fun b hb ↦ (homeEq_head h disk head k b hb).trans (hdisk.home b hb)⟩

theorem Committed.crash (hdisk : s.Committed disk) (k : ℕ) :
    s.Committed ((s.reboot disk).crashDisk recoverFromLog k) ∨
      s.Installed ((s.reboot disk).crashDisk recoverFromLog k) := by
  obtain ⟨head, hhead, hissued, -⟩ := recover_of_committed h hdisk
  unfold crashDisk
  rw [hissued]
  by_cases hk : k ≤ s.lh.n.count
  · left
    rw [take_append_of_le_length (by simpa using hk), take_indexed]
    exact hdisk.install h fun i hi ↦ mem_take_range hi
  · right
    rw [take_of_length_le (by simp; omega)]
    exact hdisk.installed h hhead

theorem pending_crashedRecoveries (crashes : List ℕ) (hdisk : s.Pending disk) :
    s.Pending (s.crashedRecoveries disk crashes) := by
  induction crashes generalizing disk with
  | nil => exact hdisk
  | cons k crashes ih => exact ih (hdisk.crash h k)

theorem durable_crashedRecoveries (crashes : List ℕ) (hdisk : s.Committed disk ∨ s.Installed disk) :
    s.Committed (s.crashedRecoveries disk crashes) ∨
      s.Installed (s.crashedRecoveries disk crashes) := by
  induction crashes generalizing disk with
  | nil => exact hdisk
  | cons k crashes ih =>
    rcases hdisk with hcommitted | hinstalled
    · exact ih (hcommitted.crash h k)
    · exact ih (Or.inr (hinstalled.crash h k))

theorem Pending.recovered (hdisk : s.Pending disk) : s.Pending (s.recovered disk) := by
  obtain ⟨head, hhead, hissued, hrecovered⟩ := recover_of_empty s hdisk.empty
  have hcrash := hdisk.crash h 1
  unfold crashDisk at hcrash
  rw [hissued] at hcrash
  rw [hrecovered]
  exact hcrash

theorem durable_recovered
    (hdisk : s.Committed disk ∨ s.Installed disk) : s.Installed (s.recovered disk) := by
  rcases hdisk with hcommitted | hinstalled
  · obtain ⟨head, hhead, -, hrecovered⟩ := recover_of_committed h hcommitted
    rw [hrecovered]
    exact hcommitted.installed h hhead
  · obtain ⟨head, hhead, hissued, hrecovered⟩ := recover_of_empty s hinstalled.empty
    have hcrash := hinstalled.crash h 1
    unfold crashDisk at hcrash
    rw [hissued] at hcrash
    rw [hrecovered]
    exact hcrash

end

/-- **Crash atomicity.** A commit that crashes behind any number `k` of its disk writes, followed
by any number of crashed recoveries and one complete recovery, leaves the home blocks as they were
or with the whole transaction written, the latter as soon as the header write reached the disk. -/
theorem commit_crash_atomic (s : State) (hempty : (s.disk s.start).word 0 = 0) (h : s.Loggable)
    (k : ℕ) (crashes : List ℕ) :
    (s.HomeEq (s.recovered (s.crashedRecoveries (s.crashDisk commit k) crashes)) s.disk ∨
      s.HomeEq (s.recovered (s.crashedRecoveries (s.crashDisk commit k) crashes))
        s.transactionDisk) ∧
    (s.HeadWritten k →
      s.HomeEq (s.recovered (s.crashedRecoveries (s.crashDisk commit k) crashes))
        s.transactionDisk) ∧
    (s.recovered (s.crashedRecoveries (s.crashDisk commit k) crashes) s.start).word 0 = 0 := by
  by_cases hcommitted : 0 < s.lh.n.count ∧ s.lh.n.count < k
  · have hdisk := durable_recovered h (durable_crashedRecoveries h crashes
      (crash_commit_committed h hcommitted.1 hcommitted.2))
    exact ⟨Or.inr hdisk.home, fun _ ↦ hdisk.home, hdisk.empty⟩
  · have hcrash : s.Pending (s.crashDisk commit k) := by
      rcases Nat.eq_zero_or_pos s.lh.n.count with hzero | hpos
      · have hint : ¬ 0 < s.lh.n.toInt := by
          rw [toInt_pos_iff]
          omega
        have hnone : s.crashDisk commit k = s.disk := by
          simp [crashDisk, issued, commit, hint]
        rw [hnone]
        exact pending_start hempty
      · exact crash_commit_pending h hempty (by omega)
    have hdisk := (pending_crashedRecoveries h crashes hcrash).recovered h
    exact ⟨Or.inl hdisk.home, fun hhead ↦ absurd (count_lt_of_headWritten h hhead) hcommitted,
      hdisk.empty⟩

/-- A transaction that logs block 40 with the words 7 and block 41 with the words 9, over the log area
of blocks 2 to 31. -/
def twoBlocks : State where
  disk := fun _ _ ↦ 0
  cache := fun b _ ↦ if b = 40 then 7 else if b = 41 then 9 else 0
  start := 2
  size := 30
  lh := { n := 2, block := fun i ↦ 40 + BitVec.ofNat 32 i }
  writes := []

theorem twoBlocks_loggable : twoBlocks.Loggable where
  fits := by decide
  room := by decide
  distinct := by decide
  outside := by
    unfold InLog
    decide

/-- A crash in `install_trans` with one of the two blocks written home, one in the middle of the
recovery and one at its very start still end with both blocks written. -/
theorem twoBlocks_recovered :
    twoBlocks.HeadWritten 4 ∧ twoBlocks.crashDisk commit 4 41 0 = 0 ∧
      twoBlocks.HomeEq
        (twoBlocks.recovered (twoBlocks.crashedRecoveries (twoBlocks.crashDisk commit 4) [1, 0]))
        twoBlocks.transactionDisk := by
  have hhead : twoBlocks.HeadWritten 4 :=
    ⟨_, List.mem_cons_of_mem _ (List.mem_cons_of_mem _ List.mem_cons_self)⟩
  exact ⟨hhead, by decide +kernel,
    (commit_crash_atomic twoBlocks (by decide) twoBlocks_loggable 4 [1, 0]).2.1 hhead⟩

end State

end Xv6Mmap.Log
