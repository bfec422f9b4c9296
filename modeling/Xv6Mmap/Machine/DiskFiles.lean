import Xv6Mmap.Machine.FileContent
import Xv6Mmap.Fs.ByteArrays

/-!
# The files of the machine and the files of the disk

`readi`, `writei` and `filewrite` appear twice: on the byte arrays of the machine, next to page faults
and the page cache, and on the blocks of the disk, down to `bmap` and `balloc`.  As long as the machine
has the files of the disk, a call on the disk that does not panic is the call of the machine: both
return the same, and afterwards the machine has the files of the disk.
-/

namespace Xv6Mmap

open Function Library Prog Memory Bytes List
open Fs (Superblock FileSystem OpenFile IoResult ByteFile byteFile tDev)
open Fs.FileSystem (filewriteLoop_of_done filewriteLoop_of_fail)

variable {nproc : ℕ}

/-- An inode of the machine is a file of the disk. -/
structure Inode.IsFile (inode : Inode) (g : ByteFile) : Prop where
  major : inode.major = if g.type = tDev then some g.major else none
  bytes : (List.range inode.size.toNat).map inode.data = g.bytes

namespace Inode.IsFile

variable {inode : Inode} {g : ByteFile} (h : inode.IsFile g)
include h

theorem size_eq : inode.size.toNat = g.bytes.length := by
  rw [← h.bytes, length_map, length_range]

theorem ordinary (hdev : g.type ≠ tDev) : inode.major = none := by
  rw [h.major, if_neg hdev]

theorem written {off n : Word} (hoff : off ≤ inode.size) (hend : off.toNat + n.toNat < 2 ^ 32)
    (src : ℕ → Byte) :
    (inode.written off n src).IsFile (g.write off.toNat ((List.range n.toNat).map src)) := by
  refine ⟨h.major, ?_⟩
  rw [size_written hoff hend, ByteFile.write, ← h.bytes, overlay_map_range hoff]
  rfl

end Inode.IsFile

/-- The inode with the number `i` of a disk. -/
def inodeRef (dev : Word) (i : ℕ) : InodeRef := ⟨dev, BitVec.ofNat 32 i⟩

/-- The machine holds no buffer and has the files of the disk `dev`. -/
structure Mirrors (sb : Superblock) (dev : Word) (fs : FileSystem) (s : Machine nproc) : Prop where
  consistent : fs.Consistent sb
  held : s.held = none
  inodes : ∀ i g, byteFile sb fs.disk i = some g → (s.inodes (inodeRef dev i)).IsFile g

/-- An open file of the machine is one of the file system. -/
structure File.Opens (file : File) (dev : Word) (o : OpenFile) : Prop where
  type : file.type = .inode
  writable : file.writable = o.writable
  ip : file.ip = inodeRef dev o.inum
  off : file.off = o.off

/-- The result of a call as the number that the code returns. -/
def Fs.IoResult.word : IoResult Word → Word
  | .done n => n
  | _ => -1

namespace Kernel

variable {sb : Superblock} {dev f : Word} {fs fs' : FileSystem} {s : Machine nproc} {i : ℕ}
  {g : ByteFile} {off n : Word} {src : ℕ → Byte} {fetch : ℕ → Kernel nproc Byte}

theorem readi_mirrors (h : Mirrors sb dev fs s) (hg : byteFile sb fs.disk i = some g)
    (hdev : g.type ≠ tDev) (dst off n : Word) :
    ∃ fs' r, fs.readi sb i off n = .ok (fs', r) ∧ Mirrors sb dev fs' s ∧
      readi (inodeRef dev i) dst off n s = match r with
        | .done bytes => (.ok (BitVec.ofNat 32 bytes.length), { s with
            mem := blit s.mem dst bytes.length fun k ↦ bytes.getD k 0 })
        | _ => (.ok (-1), s) := by
  have hfile := h.inodes i g hg
  have hsize := hfile.size_eq
  have hshows : fs.Shows sb (byteFile sb fs.disk) _ := ⟨h.consistent, rfl, rfl⟩
  obtain ⟨fs', hok, hfs'⟩ := hshows.readi hg hdev off n
  refine ⟨fs', _, hok, ⟨hfs'.consistent, h.held, hfs'.inodes ▸ h.inodes⟩, ?_⟩
  by_cases hin : off.toNat ≤ g.bytes.length ∧ off.toNat + n.toNat < 2 ^ 32
  · rw [if_pos hin]
    have hinside : ((s.inodes (inodeRef dev i)).size < off || off + n < off) = false := by
      simp only [Bool.or_eq_false_iff, decide_eq_false_iff_not, BitVec.lt_def, BitVec.toNat_add]
      omega
    have hcount : (if (s.inodes (inodeRef dev i)).size < off + n then
        (s.inodes (inodeRef dev i)).size - off else n).toNat =
        ((g.bytes.drop off.toNat).take n.toNat).length := by
      rw [length_take, length_drop, ← hsize]
      split
      · rename_i hlt
        rw [BitVec.lt_def, BitVec.toNat_add] at hlt
        rw [BitVec.toNat_sub_of_le (by rw [BitVec.le_def]; omega)]
        omega
      · rename_i hlt
        rw [BitVec.lt_def, BitVec.toNat_add] at hlt
        omega
    rw [readi_apply _ h.held dst n (hfile.ordinary hdev) hinside]
    dsimp only
    rw [← hcount, BitVec.ofNat_toNat, BitVec.setWidth_eq]
    congr 2
    refine blit_congr fun k hk ↦ ?_
    rw [hcount, length_take, length_drop] at hk
    have hlt : off.toNat + k < g.bytes.length := by omega
    rw [getD_eq_getElem?_getD, getElem?_take_of_lt (by omega), getElem?_drop, getElem?_eq_getElem hlt]
    simp only [← hfile.bytes, getElem_map, getElem_range, Option.getD_some]
  · rw [if_neg hin, readi, bind_of_ok (get_apply s)]
    simp only [hfile.ordinary hdev]
    rw [if_pos]
    · rfl
    · simp only [Bool.or_eq_true, decide_eq_true_eq, BitVec.lt_def, BitVec.toNat_add]
      omega

section Writing

variable (hsmall : sb.ninodes ≤ 2 ^ 32) (hreads : Reads fetch fun k _ ↦ src k)
include hsmall hreads

/-- A chunk is written on both sides, or refused on both. -/
theorem writei_mirrors {r : IoResult Word} (h : Mirrors sb dev fs s)
    (hg : byteFile sb fs.disk i = some g) (hdev : g.type ≠ tDev) (k : ℕ)
    (hok : fs.writei sb i (fun j ↦ src (k + j)) off n = .ok (fs', r)) :
    (r = if g.Takes off.toNat n.toNat then .done n else .fail) ∧
      (∃ g', byteFile sb fs'.disk i = some g' ∧ g'.type = g.type) ∧
      ∃ t, writei (inodeRef dev i) fetch k off n s = (.ok r.word, t) ∧ t.files = s.files ∧
        Mirrors sb dev fs' t := by
  have hfile := h.inodes i g hg
  have hstart : off ≤ (s.inodes (inodeRef dev i)).size ↔ off.toNat ≤ g.bytes.length := by
    rw [BitVec.le_def, hfile.size_eq]
  by_cases htakes : g.Takes off.toNat n.toNat
  · obtain ⟨rfl, hconsistent, hinodes⟩ := h.consistent.writei_ok hg hdev htakes hok
    rw [if_pos htakes, hinodes]
    refine ⟨rfl, ⟨_, update_self .., rfl⟩, _, hreads.writei_of_fits h.held (hfile.ordinary hdev) k
      (hstart.mpr htakes.1) htakes.2.2, rfl, hconsistent, h.held, ?_⟩
    rw [hinodes]
    intro j e hj
    by_cases hji : j = i
    · rw [hji] at hj ⊢
      rw [update_self] at hj
      cases hj
      dsimp only
      rw [update_self]
      exact hfile.written (hstart.mpr htakes.1) htakes.2.1 _
    · rw [update_of_ne hji] at hj
      have hne : inodeRef dev j ≠ inodeRef dev i := by
        have hlt := (Fs.live_of_byteFile hj).1.2.1
        have hlt' := (Fs.live_of_byteFile hg).1.2.1
        intro heq
        have htoNat := congrArg BitVec.toNat (congrArg InodeRef.inum heq)
        simp only [inodeRef, BitVec.toNat_ofNat] at htoNat
        omega
      dsimp only
      rw [update_of_ne hne]
      exact h.inodes j e hj
  · have hshows : fs.Shows sb (byteFile sb fs.disk) _ := ⟨h.consistent, rfl, rfl⟩
    obtain ⟨fs₁, hfail, hfs₁⟩ := hshows.writei_fail (fun j ↦ src (k + j)) hg hdev htakes
    cases hfail.symm.trans hok
    rw [if_neg htakes, hfs₁.inodes]
    refine ⟨rfl, ⟨g, hg, rfl⟩, s, writei_of_not_fits (hfile.ordinary hdev) k ?_, rfl,
      hfs₁.consistent, h.held, hfs₁.inodes ▸ h.inodes⟩
    rintro ⟨hoff, hend⟩
    exact htakes ⟨hstart.mp hoff, hend.trans_lt (by decide), hend⟩

omit hsmall in
/-- Caching what has been written waits for a page that is locked, and changes no file. -/
theorem updatePage_mirrors (offset inum size : Word) (k : ℕ) :
    Triple (· = s) (updatePage offset inum dev fetch k size)
      (fun _ t ↦ t.files = s.files ∧ t.inodes = s.inodes ∧ t.held = s.held)
      fun e _ ↦ e = .stuck := by
  refine .get_at ?_
  split
  · exact .pure_at ⟨rfl, rfl, rfl⟩
  · rename_i page _
    refine .bind (Q := fun _ t ↦ t.files = s.files ∧ t.inodes = s.inodes ∧ t.held = s.held) ?_
      fun _ ↦ ?_
    · refine .get_at ?_
      split
      · exact .halt fun _ _ ↦ rfl
      · exact .modify fun t ht ↦ by rw [ht]; exact ⟨rfl, rfl, rfl⟩
    · intro t ht
      rw [bind_of_ok (hreads.fetchBytes _ _)]
      exact ht

theorem writeChunks_mirrors {fuel k m : ℕ} {o o' : OpenFile} {r : IoResult ℕ} (hk : k ≤ m)
    (h : Mirrors sb dev fs s) (hopen : (s.files f).Opens dev o)
    (hg : byteFile sb fs.disk o.inum = some g) (hdev : g.type ≠ tDev)
    (hok : fs.filewriteLoop sb fuel o src k m = .ok (fs', o', r)) :
    Triple (· = s) (writeChunks f fetch fuel k (m - k))
      (fun ok t ↦ (r = if ok then .done m else .fail) ∧ Mirrors sb dev fs' t ∧
        (t.files f).Opens dev o') fun e _ ↦ e = .stuck := by
  induction fuel generalizing s fs o k g with
  | zero =>
    cases hok
    exact .pure_at ⟨rfl, h, hopen⟩
  | succ fuel ih =>
    rw [writeChunks]
    by_cases hdone : m ≤ k
    · rw [FileSystem.filewriteLoop, if_pos hdone] at hok
      cases hok
      rw [if_pos (Nat.sub_eq_zero_of_le hdone)]
      exact .pure_at ⟨rfl, h, hopen⟩
    have hmax : writeMax = 1536 := rfl
    obtain ⟨c, hc⟩ : ∃ c, c = min (m - k) writeMax := ⟨_, rfl⟩
    have hlen : (BitVec.ofNat 32 c).toNat = c := by
      rw [hc]
      exact toNat_chunk _
    rw [if_neg (by omega), ← hc]
    refine .get_at ?_
    rw [hopen.ip, hopen.off]
    cases hwritei : fs.writei sb o.inum (fun j ↦ src (k + j)) o.off (BitVec.ofNat 32 c) with
    | error e =>
      rw [FileSystem.filewriteLoop, if_neg hdone, ← hc] at hok
      dsimp only at hok
      rw [hwritei] at hok
      cases hok
    | ok p =>
      obtain ⟨fs₁, r₁⟩ := p
      obtain ⟨hr, ⟨g₁, hg₁, htype⟩, t, hrun, hfiles, ht⟩ :=
        writei_mirrors hsmall hreads h hg hdev k hwritei
      rw [hlen] at hr
      rintro x hx
      rw [hx, bind_of_ok hrun]
      split at hr
      · subst hr
        rw [filewriteLoop_of_done hdone hc hwritei] at hok
        rw [IoResult.word, slt_zero_of_small (by omega), if_neg Bool.false_ne_true, if_neg (by simp)]
        refine Triple.bind (updatePage_mirrors hreads _ _ _ _) (fun _ ↦ ?_) t rfl
        refine .modify_bind fun u hu ↦ ?_
        obtain ⟨hufiles, huinodes, huheld⟩ := hu
        have hsame : u.files f = s.files f := by rw [hufiles, hfiles]
        rw [hlen, Nat.sub_sub]
        refine ih (o := { o with off := o.off + BitVec.ofNat 32 c }) (by omega)
          ⟨ht.consistent, huheld.trans ht.held, ?_⟩ ?_ hg₁ (htype.trans_ne hdev) hok
        · dsimp only
          rw [huinodes]
          exact ht.inodes
        · dsimp only
          rw [update_self, hsame]
          exact ⟨hopen.type, hopen.writable, hopen.ip, by rw [hopen.off]⟩
      · subst hr
        rw [filewriteLoop_of_fail hdone hc hwritei] at hok
        cases hok
        refine ⟨rfl, ht, ?_⟩
        rw [hfiles]
        exact hopen

/-- **`filewrite` on blocks and `filewrite` on the machine** are one: where the one on blocks does not
panic, the other returns the same, with the same files and the same offset, or waits for a page that
is locked. -/
theorem filewrite_mirrors {o o' : OpenFile} {r : IoResult ℕ} (h : Mirrors sb dev fs s)
    (hopen : (s.files f).Opens dev o) (hg : byteFile sb fs.disk o.inum = some g)
    (hdev : g.type ≠ tDev) (hok : fs.filewrite sb o src n = .ok (fs', o', r)) :
    Triple (· = s) (filewrite f fetch n)
      (fun w t ↦ w = (r.map (BitVec.ofNat 32)).word ∧ Mirrors sb dev fs' t ∧
        (t.files f).Opens dev o') fun e _ ↦ e = .stuck := by
  refine .get_at ?_
  rw [hopen.writable, hopen.type]
  rw [FileSystem.filewrite] at hok
  by_cases hwritable : o.writable = false
  · rw [if_pos hwritable] at hok
    cases hok
    rw [if_pos (by rw [hwritable]; rfl)]
    exact .pure_at ⟨rfl, h, hopen⟩
  rw [if_neg hwritable] at hok
  rw [if_neg (by simpa using hwritable)]
  dsimp only
  have hslt : n.slt 0 = decide (n.toInt < 0) := BitVec.slt_eq_decide
  by_cases hn : n.toInt < 0
  · rw [if_pos hn] at hok
    cases hok
    rw [show n.count = 0 from Int.toNat_of_nonpos hn.le, hslt, decide_eq_true hn]
    intro t ht
    rw [ht]
    exact ⟨rfl, h, hopen⟩
  · rw [if_neg hn] at hok
    have hcount : n.count = n.toNat := by
      rw [BitVec.toInt_eq_toNat_cond] at hn
      exact count_eq_toNat (by omega)
    rw [hcount, hslt, decide_eq_false hn]
    refine .bind (writeChunks_mirrors hsmall hreads (Nat.zero_le _) h hopen hg hdev hok) fun ok ↦ ?_
    cases ok with
    | true =>
      refine .pure fun t ht ↦ ⟨?_, ht.2⟩
      rw [ht.1]
      exact ((BitVec.ofNat_toNat 32 n).trans (BitVec.setWidth_eq n)).symm
    | false =>
      refine .pure fun t ht ↦ ⟨?_, ht.2⟩
      rw [ht.1]
      rfl

end Writing

end Kernel

end Xv6Mmap
