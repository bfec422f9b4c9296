import Xv6Mmap.Fs.FileSystem

/-!
# Block ownership

Every call keeps the files in order: each block belongs to one place of one file, and the bitmap says
which blocks belong to a file.  So a block is never freed twice, and reading does not allocate.
-/

namespace Xv6Mmap.Fs

open Library Option Function

variable {sb : Superblock} {d : Disk} {i : ℕ} {ip : Dinode}

/-- A disk without files. -/
theorem Owned.of_fresh (hlaid : sb.Laid) (htype : ∀ i < sb.ninodes, (d.dinode sb i).type = 0)
    (hbits : ∀ b < sb.size, d.used sb b = decide (b < sb.dataStart)) : Owned sb d := by
  have hfree : ∀ i, ¬ Live sb (d.dinode sb) i := fun i hi ↦ hi.2.2 (htype i hi.2.1)
  refine ⟨hlaid, ?_, ?_, ?_, ?_, ?_, ?_⟩
  · exact fun i hi ↦ (hfree i hi).elim
  · exact fun i _ hi ↦ (hfree i hi).elim
  · exact fun i _ hi ↦ (hfree i hi).elim
  · exact fun i _ _ _ hi ↦ (hfree i hi).elim
  · grind
  · intro b hb
    rw [hbits b (hb.trans_le (Nat.sub_le _ _)), decide_eq_true_eq]
    exact hb

namespace FileSystem

/-- The files are in order, and the inodes in memory are copies of allocated inodes on disk. -/
structure Consistent (sb : Superblock) (s : FileSystem) : Prop where
  owned : Owned sb s.disk
  cached : ∀ i ip, s.icache i = some ip →
    Live sb (s.disk.dinode sb) i ∧ ip = s.disk.dinode sb i

variable {s s' : FileSystem} {a : FsAct}

namespace Consistent

section

variable (h : Consistent sb s) {r : Except FsPanic FileSystem}
include h

theorem live (hip : s.icache i = some ip) : Live sb (s.disk.dinode sb) i :=
  (h.cached i ip hip).1

theorem eq (hip : s.icache i = some ip) : ip = s.disk.dinode sb i :=
  (h.cached i ip hip).2

/-- The disk changes, and with it at most the copy of inode `i`. -/
theorem update (howned : Owned sb d)
    (hothers : ∀ j < sb.ninodes, j ≠ i → d.dinode sb j = s.disk.dinode sb j) {o : Option Dinode}
    (ho : ∀ ip, o = some ip → Live sb (d.dinode sb) i ∧ ip = d.dinode sb i) :
    Consistent sb ⟨d, Function.update s.icache i o⟩ := by
  refine ⟨howned, ?_⟩
  intro j ip hip
  change Function.update s.icache i o j = some ip at hip
  by_cases hj : j = i
  · rw [hj] at hip ⊢
    rw [update_self] at hip
    exact ho ip hip
  · rw [update_of_ne hj] at hip
    obtain ⟨hlive, heq⟩ := h.cached j ip hip
    have hsame := hothers j hlive.2.1 hj
    refine ⟨⟨hlive.1, hlive.2.1, ?_⟩, ?_⟩
    · rw [hsame]
      exact hlive.2.2
    · rw [hsame]
      exact heq

theorem ilock (hi : 0 < i ∧ i < sb.ninodes) (hok : s.ilock sb i = .ok s') : Consistent sb s' := by
  unfold FileSystem.ilock at hok
  split at hok
  · cases hok
    exact h
  · dsimp only at hok
    split at hok
    · cases hok
    · rename_i htype
      cases hok
      apply h.update h.owned
      · exact fun _ _ _ ↦ rfl
      · rintro ip ⟨rfl⟩
        exact ⟨⟨hi.1, hi.2, htype⟩, rfl⟩

theorem exec_readi (inum : ℕ) (off n : Word)
    (hr : s.exec sb (.readi inum off n) = some r) : r = .ok s := by
  obtain ⟨ip, hip, rfl⟩ := map_eq_some_iff.mp hr
  have heq := h.eq hip
  rw [heq, h.owned.readi_eq (h.live hip)]
  change Except.ok (s.setInode s.disk inum (s.disk.dinode sb inum)) = _
  rw [← heq, setInode_eq_self hip]

theorem writei (hip : s.icache i = some ip) {src : ℕ → Byte} {off n : Word} {ip' : Dinode}
    {r : IoResult Word} (hok : Fs.writei sb s.disk i ip src off n = .ok (d, ip', r)) :
    Consistent sb (s.setInode d i ip') := by
  have hlive := h.live hip
  rw [h.eq hip] at hok
  have hsame : Consistent sb (s.setInode s.disk i (s.disk.dinode sb i)) := by
    rwa [← h.eq hip, setInode_eq_self hip]
  by_cases hdev : (s.disk.dinode sb i).type = tDev
  · rw [writei_of_device hdev] at hok
    cases hok
    exact hsame
  · by_cases hfits : Fits (s.disk.dinode sb i) off n
    · obtain ⟨-, rfl, hwritten⟩ := h.owned.writei_fits hlive hdev hfits hok
      apply h.update hwritten.owned hwritten.others
      rintro _ ⟨rfl⟩
      exact ⟨hwritten.live hlive, rfl⟩
    · rw [writei_of_not_fits hdev hfits] at hok
      cases hok
      exact hsame

theorem ialloc {type : BitVec 16} (hok : Fs.ialloc sb s.disk type = .ok (d, i)) :
    Consistent sb { s with disk := d } := by
  obtain ⟨hpos, hlt, hfree, rfl⟩ := ialloc_spec hok
  have hnone : s.icache i = none := by
    rw [eq_none_iff_forall_ne_some]
    intro ip hip
    exact (h.live hip).2.2 hfree
  have hupdate := h.update (h.owned.ialloc hok) (o := none)
    (fun j _ hj ↦ Disk.dinode_setDinode_of_ne hj _) nofun
  rwa [← hnone, update_eq_self] at hupdate

/-- `iput` does not panic. -/
theorem iput (i : ℕ) (last : Bool) : ∃ s', s.iput sb i last = .ok s' ∧ Consistent sb s' := by
  unfold FileSystem.iput
  split
  · exact ⟨s, rfl, h⟩
  · rename_i ip hip
    split
    · exact ⟨s, rfl, h⟩
    · split
      · obtain ⟨d, htrunc, howned, hself, hothers, -⟩ := h.owned.itrunc (h.live hip)
        rw [h.eq hip, htrunc]
        refine ⟨_, rfl, ?_⟩
        apply h.update
        · apply howned.replace (h.live hip).2.1
          · rw [hself]
            exact fun _ ↦ slotAddr_truncated d _
          · exact (s.disk.dinode sb i).addr_truncated
          · rfl
        · intro j hj hji
          exact (Disk.dinode_setDinode_of_ne hji _).trans (hothers j hj hji)
        · exact nofun
      · exact ⟨_, rfl, h.update h.owned (fun _ _ _ ↦ rfl) nofun⟩

theorem setLinks (hip : s.icache i = some ip) (major minor nlink : BitVec 16) :
    Consistent sb (s.setInode
      (iupdate sb s.disk i { ip with major := major, minor := minor, nlink := nlink }) i
      { ip with major := major, minor := minor, nlink := nlink }) := by
  have hlive := h.live hip
  have heq := h.eq hip
  have hself : (s.disk.setDinode sb i
      { ip with major := major, minor := minor, nlink := nlink }).dinode sb i =
        { ip with major := major, minor := minor, nlink := nlink } :=
    Disk.dinode_setDinode_self ..
  apply h.update
  · apply h.owned.setDinode hlive.2.1
    · rw [heq]
    · rw [heq]
    · rw [heq]
  · exact fun j _ hj ↦ Disk.dinode_setDinode_of_ne hj _
  · rintro _ ⟨rfl⟩
    refine ⟨⟨hlive.1, hlive.2.1, ?_⟩, hself.symm⟩
    rw [iupdate, hself, heq]
    exact hlive.2.2

theorem exec (hr : s.exec sb a = some r) :
    (∃ s', r = .ok s' ∧ Consistent sb s') ∨
      r = .error .outOfBlocks ∨ r = .error .noInodes ∨ r = .error .noType := by
  cases a with
  | ilock inum =>
    obtain ⟨hinum, rfl⟩ := ite_some_none_eq_some.mp hr
    cases hlock : s.ilock sb inum with
    | ok s' => exact .inl ⟨s', rfl, h.ilock hinum hlock⟩
    | error e =>
      have he : e = .noType := by
        unfold FileSystem.ilock at hlock
        split at hlock
        · cases hlock
        · dsimp only at hlock
          split at hlock
          · cases hlock
            rfl
          · cases hlock
      rw [he]
      exact .inr (.inr (.inr rfl))
  | readi inum off n => exact .inl ⟨s, h.exec_readi inum off n hr, h⟩
  | writei inum src off n =>
    obtain ⟨ip, hip, rfl⟩ := map_eq_some_iff.mp hr
    cases hwrite : Fs.writei sb s.disk inum ip src off n with
    | ok q => exact .inl ⟨_, rfl, h.writei hip hwrite⟩
    | error e =>
      rw [(writei_error hwrite).2.2]
      exact .inr (.inl rfl)
  | ialloc type =>
    cases hr
    cases halloc : Fs.ialloc sb s.disk type with
    | ok q => exact .inl ⟨_, rfl, h.ialloc halloc⟩
    | error e =>
      rw [ialloc_error halloc]
      exact .inr (.inr (.inl rfl))
  | iput inum last =>
    cases hr
    exact .inl (h.iput inum last)
  | setLinks inum major minor nlink =>
    obtain ⟨ip, hip, rfl⟩ := map_eq_some_iff.mp hr
    exact .inl ⟨_, rfl, h.setLinks hip major minor nlink⟩

theorem step (hs : s.step sb a = some s') : Consistent sb s' := by
  obtain ⟨r, hr, hok⟩ := bind_eq_some_iff.mp hs
  rcases h.exec hr with ⟨s'', rfl, hconsistent⟩ | rfl | rfl | rfl
  · cases hok
    exact hconsistent
  · cases hok
  · cases hok
  · cases hok

end

end Consistent

/-- No inode is in memory. -/
def boot (d : Disk) : FileSystem := ⟨d, fun _ ↦ none⟩

theorem consistent_of_reaches (h : Owned sb d)
    (hrun : Runs.Reaches (step sb) Runs.unguarded (boot d) s) : Consistent sb s := by
  have hstart : Consistent sb (boot d) := ⟨h, nofun⟩
  exact hrun.invariant hstart fun _ _ _ hbefore _ hstep ↦ hbefore.step hstep

/-- In every run over a disk whose files are in order they stay in order.  So a free block is never
freed, no block index is out of range, and `readi` neither panics nor changes the state. -/
theorem block_ownership (h : Owned sb d)
    (hrun : Runs.Reaches (step sb) Runs.unguarded (boot d) s) :
    Owned sb s.disk ∧
      (∀ a, s.exec sb a ≠ some (.error .freeingFreeBlock) ∧
        s.exec sb a ≠ some (.error .bmapOutOfRange)) ∧
      ∀ inum off n r, s.exec sb (.readi inum off n) = some r → r = .ok s := by
  have hconsistent := consistent_of_reaches h hrun
  have hpanic : ∀ a e, s.exec sb a = some (.error e) →
      e = .outOfBlocks ∨ e = .noInodes ∨ e = .noType := by grind [hconsistent.exec]
  refine ⟨hconsistent.owned, ?_, fun inum off n r ↦ hconsistent.exec_readi inum off n⟩
  intro a
  constructor
  · intro hr
    rcases hpanic a _ hr with he | he | he <;> cases he
  · intro hr
    rcases hpanic a _ hr with he | he | he <;> cases he

/-- A disk of eight blocks, four of them for data, with eight inodes. -/
def smallSuper : Superblock :=
  { size := 8, nblocks := 4, ninodes := 8, inodestart := 2, bmapstart := 3 }

/-- The bitmap marks the first four blocks. -/
def smallDisk : Disk := Function.update (fun _ ↦ Block.zero) 3 (Block.zero.write 0 1 fun _ ↦ 15)

theorem smallDisk_owned : Owned smallSuper smallDisk := by
  apply Owned.of_fresh
  · exact
      { pos := by decide
        small := by decide
        inodes := by decide
        bitmap := by decide }
  · decide +kernel
  · decide +kernel

/-- A file is made, written and, since there is no link to it, freed. -/
def writtenAndFreed : List FsAct :=
  [.ialloc tFile, .ilock 1, .writei 1 (fun k ↦ BitVec.ofNat 8 k) 0 600, .iput 1 true]

theorem block_ownership_writtenAndFreed :
    let s := (Runs.run (step smallSuper) writtenAndFreed (boot smallDisk)).get (by decide +kernel)
    (s.disk.dinode smallSuper 1).type = 0 ∧ s.disk.used smallSuper 4 = false ∧
      Owned smallSuper s.disk :=
  ⟨by decide +kernel, by decide +kernel, (block_ownership smallDisk_owned
    (Runs.reaches_of_run (Option.some_get _).symm)).1⟩

end FileSystem

end Xv6Mmap.Fs
