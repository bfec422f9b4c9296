import Xv6Mmap.Library.Traced
import Xv6Mmap.Machine.CacheCoherence
import Xv6Mmap.Machine.WriteBack

/-!
# Where `filewrite` updates cached pages

`filewrite` cuts a write into chunks of 1536 bytes and hands each chunk to `updatePage`, which copies
it into the cached page of its first byte.  The chunks do not end at page boundaries: the calls stay
inside their pages only if the write stays inside one page, or if a chunk happens to end at the one
page boundary that the write crosses.  A write to the console is accepted at any offset.
-/

namespace Xv6Mmap

/-- A call of `updatePage`: the file offset and the number of bytes. -/
structure PageUpdate where
  offset : Word
  size : Word
  deriving DecidableEq

/-- The bytes of the page that are written, `start_addr` up to `start_addr + size`, end in it. -/
def PageUpdate.InPage (e : PageUpdate) : Prop :=
  (e.offset.srem pgSize).toNat + e.size.toNat ≤ pgSize.toNat

instance (e : PageUpdate) : Decidable e.InPage :=
  inferInstanceAs (Decidable (_ ≤ _))

namespace Kernel

open Library Prog Traced Machine BitVec List Function

variable {nproc : ℕ} {off left : ℕ} {size : ℕ}

/-- The loop of `filewrite`, with a record of its `updatePage` calls. -/
def writeChunksTraced (f : Word) (fetch : ℕ → Kernel nproc Byte) :
    ℕ → ℕ → ℕ → Traced Halt (Machine nproc) PageUpdate Bool
  | 0, _, _ => return true
  | n + 1, i, left =>
    if left = 0 then return true
    else do
      let n1 := BitVec.ofNat 32 (min left writeMax)
      let s ← lift get
      let r ← lift (writei (s.files f).ip fetch i (s.files f).off n1)
      if r.slt 0 then return false
      else if r != n1 then lift (halt .panic)
      else
        record { offset := (s.files f).off, size := r }
        lift (updatePage (s.files f).off (s.files f).ip.inum (s.files f).ip.dev fetch i r)
        lift (setFile f fun file ↦ { file with off := file.off + r })
        writeChunksTraced f fetch n (i + r.toNat) (left - r.toNat)

def filewriteTraced (f : Word) (fetch : ℕ → Kernel nproc Byte) (n : Word) :
    Traced Halt (Machine nproc) PageUpdate Word := do
  let s ← lift get
  if !(s.files f).writable then return -1
  else
    match (s.files f).type with
    | .none => lift (halt .panic)
    | .inode =>
      if ← writeChunksTraced f fetch n.count 0 n.count then return if n.slt 0 then -1 else n
      else return -1

theorem writeChunksTraced_erases (f : Word) (fetch : ℕ → Kernel nproc Byte) (n i left : ℕ) :
    Erases (writeChunksTraced f fetch n i left) (writeChunks f fetch n i left) := by
  induction n generalizing i left with
  | zero => exact erases_pure true
  | succ n ih =>
    rw [writeChunksTraced, writeChunks]
    refine .ite _ (erases_pure true) ((erases_lift get).bind fun s ↦ ?_)
    refine (erases_lift _).bind fun r ↦ .ite _ (erases_pure false) ?_
    refine .ite _ (erases_lift _) (.record_bind _ ?_)
    exact (erases_lift _).bind fun _ ↦ (erases_lift _).bind fun _ ↦ ih _ _

/-- The record is one of `filewrite` itself. -/
theorem filewriteTraced_erases (f : Word) (fetch : ℕ → Kernel nproc Byte) (n : Word) :
    Erases (filewriteTraced f fetch n) (filewrite f fetch n) := by
  refine (erases_lift get).bind fun s ↦ .ite _ (erases_pure _) ?_
  cases (s.files f).type with
  | none => exact erases_lift _
  | inode =>
    exact (writeChunksTraced_erases f fetch _ _ _).bind fun ok ↦
      .ite _ (erases_pure _) (erases_pure _)

/-! ## The chunks of a write -/

/-- The chunks of `m` bytes from `off` on, with room for `fuel` of them. -/
def chunks : ℕ → ℕ → ℕ → List PageUpdate
  | 0, _, _ => []
  | fuel + 1, off, m =>
    if m = 0 then []
    else { offset := BitVec.ofNat 32 off, size := BitVec.ofNat 32 (min m writeMax) } ::
      chunks fuel (off + min m writeMax) (m - min m writeMax)

/-- How many of `n` bytes `filewrite` gets into a file at `off`: none behind its end, and whole chunks
only if the largest file is too small for all.  The console takes everything, another device nothing. -/
def accepted (inode : Inode) (off n : ℕ) : ℕ :=
  match inode.major with
  | some major => if major = console then n else 0
  | none =>
    if inode.size.toNat < off then 0
    else if off + n ≤ maxFile * bSize then n
    else (maxFile * bSize - off) / writeMax * writeMax

theorem writeMax_eq : writeMax = 1536 := rfl

theorem maxBytes_eq : maxFile * bSize = 71680 := rfl

theorem accepted_le (inode : Inode) (off n : ℕ) : accepted inode off n ≤ n := by
  unfold accepted
  split
  · split_ifs
    · exact le_rfl
    · exact Nat.zero_le n
  · split_ifs
    · exact Nat.zero_le n
    · exact le_rfl
    · simp only [writeMax_eq, maxBytes_eq] at *
      omega

theorem accepted_console {inode : Inode} (h : inode.major = some console) (off n : ℕ) :
    accepted inode off n = n := by
  rw [accepted, h]
  exact if_pos rfl

section Ordinary

variable {inode inode' : Inode} (h : inode.major = none)
include h

/-- A chunk is refused: nothing more is written. -/
theorem accepted_of_refused
    (hrefused : inode.size.toNat < off ∨ maxFile * bSize < off + min left writeMax) :
    accepted inode off left = 0 := by
  rw [accepted, h]
  split_ifs <;> simp only [writeMax_eq, maxBytes_eq] at * <;> omega

/-- A chunk is written, and the file has grown by it if it ended before. -/
theorem accepted_of_written (h' : inode'.major = none) (hoff : off ≤ inode.size.toNat)
    (hfits : off + min left writeMax ≤ maxFile * bSize)
    (hsize : off + min left writeMax ≤ inode'.size.toNat) :
    accepted inode off left =
      min left writeMax + accepted inode' (off + min left writeMax) (left - min left writeMax) := by
  rw [accepted, accepted, h, h']
  dsimp only
  split_ifs <;> simp only [writeMax_eq, maxBytes_eq] at * <;> omega

end Ordinary

/-- All chunks but the last are full. -/
theorem chunks_append {fuel m : ℕ} (hleft : left ≠ 0) (hm : m ≤ left - min left writeMax) :
    chunks (fuel + 1) off (min left writeMax + m) =
      { offset := BitVec.ofNat 32 off, size := BitVec.ofNat 32 (min left writeMax) } ::
        chunks fuel (off + min left writeMax) m := by
  have hwidth := writeMax_eq
  have hsame : min (min left writeMax + m) writeMax = min left writeMax := by omega
  rw [chunks, if_neg (by omega), hsame, Nat.add_sub_cancel_left]

/-- The condition under which no chunk of `m` bytes from `off` on, an `int`, crosses a page boundary:
they stay in one page, or cross the boundary that the first or the second chunk ends at, and no other.
At a negative offset `%` is negative unless it is zero, so that one chunk is all there can be. -/
def StaysInPage (off m : ℕ) : Prop :=
  if off % 2 ^ 32 < 2 ^ 31 then
    off % 4096 + m ≤ 4096 ∨
      (off % 4096 = 1024 ∨ off % 4096 = 2560) ∧ off % 4096 + m ≤ 8192 ∧
        (off % 2 ^ 32 + 4096 < 2 ^ 31 ∨ off % 4096 + m ≤ 4096 + writeMax)
  else m = 0 ∨ off % 4096 = 0 ∧ m ≤ writeMax

theorem inPage_iff {n : ℕ} (hn : n ≤ writeMax) :
    PageUpdate.InPage { offset := BitVec.ofNat 32 off, size := BitVec.ofNat 32 n } ↔
      if off % 2 ^ 32 < 2 ^ 31 then off % 4096 + n ≤ 4096 else off % 4096 = 0 := by
  have hoff : (BitVec.ofNat 32 off).toNat = off % 2 ^ 32 := toNat_ofNat off 32
  have hn' : (BitVec.ofNat 32 n).toNat = n := by
    rw [toNat_ofNat, Nat.mod_eq_of_lt (by rw [writeMax_eq] at hn; omega)]
  have hpage : pgSize.toNat = 4096 := rfl
  rw [PageUpdate.InPage]
  dsimp only
  rw [hn', hpage]
  split
  · rw [srem_pgSize_of_lt (by omega), hoff]
    omega
  · rw [srem_pgSize_of_ge (by omega), hoff, writeMax_eq] at *
    split <;> omega

theorem chunks_inPage_iff {fuel m : ℕ} (hfuel : m ≤ fuel) :
    (∀ e ∈ chunks fuel off m, e.InPage) ↔ StaysInPage off m := by
  induction fuel generalizing off m with
  | zero =>
    simp only [chunks, not_mem_nil, false_implies, implies_true, true_iff, StaysInPage]
    split <;> omega
  | succ fuel ih =>
    have hwidth := writeMax_eq
    rw [chunks]
    by_cases hm : m = 0
    · rw [if_pos hm]
      simp only [not_mem_nil, false_implies, implies_true, true_iff, StaysInPage]
      split <;> omega
    · rw [if_neg hm, forall_mem_cons, inPage_iff (min_le_right _ _), ih (by omega)]
      simp only [StaysInPage]
      split_ifs <;> omega

/-! ## The calls of a run -/

/-- The calls of `updatePage` that writing `n` bytes through `f` takes. -/
def updatesOf (s : Machine nproc) (f n : Word) : List PageUpdate :=
  if (s.files f).writable then
    chunks n.count (s.files f).off.toNat
      (accepted (s.inodes (s.files f).ip) (s.files f).off.toNat n.count)
  else []

/-- A `filewrite` to `ip` through `f` that has written `i` bytes from offset `base` on and holds no
buffer.  Only the offset of a device can wrap around. -/
structure Between (f : Word) (ip : InodeRef) (base i : ℕ) (t : Machine nproc) : Prop where
  held : t.held = none
  ip_eq : (t.files f).ip = ip
  off_eq : (t.files f).off = BitVec.ofNat 32 (base + i)
  small : (t.inodes ip).major = none → base + i < 2 ^ 32

section Run

variable (p : Fin nproc) (addr : Word) {f : Word} {ip : InodeRef} {base : ℕ} {t : Machine nproc}

/-- Faults on the way leave files and inodes alone. -/
theorem diskFrame_loadKernel :
    Respects (.ofEq fun t : Machine nproc ↦ (t.files, t.inodes, t.held))
      (loadKernel p addr) :=
  respects_loadKernel (p := p)
    { mem := fun _ _ ↦ rfl
      pagecache := fun _ _ _ ↦ rfl
      freelist := fun _ _ ↦ rfl
      reset := fun _ _ ↦ rfl
      table := fun _ _ _ _ ↦ rfl
      entry := fun _ _ _ _ _ ↦ rfl
      killed := fun _ ↦ rfl
      storedSize := fun _ _ _ ↦ rfl } addr

/-- A call of `writei` for a chunk of `m` bytes has returned `r`: it is refused, or all of it is
written. -/
def ChunkDone (ip : InodeRef) (off left : ℕ) (m : Word) (t : Machine nproc) (r : Word)
    (u : Machine nproc) : Prop :=
  (r = -1 ∧ accepted (t.inodes ip) off left = 0) ∨
    (r = m ∧ u.held = none ∧ u.files = t.files ∧
      ((u.inodes ip).major = none → off + m.toNat < 2 ^ 32) ∧
      accepted (t.inodes ip) off left =
        min left writeMax + accepted (u.inodes ip) (off + m.toNat) (left - m.toNat))

theorem writei_chunk_device {i : ℕ} {m : Word} (h : Between f ip base i t)
    (hm : m.toNat = min left writeMax) {major : BitVec 16} (hmajor : (t.inodes ip).major = some major) :
    Triple (· = t) (writei ip (fun j ↦ loadKernel p (addr + BitVec.ofNat 32 j)) i (t.files f).off m)
      (ChunkDone ip (base + i) left m t) fun _ _ ↦ True := by
  refine .get_at ?_
  rw [hmajor]
  dsimp only
  split
  · rename_i hconsole
    subst hconsole
    have hfetched : Triple (· = t) (fetchBytes (fun j ↦ loadKernel p (addr + BitVec.ofNat 32 j)) i
        m.count) (fun _ u ↦ (u.files, u.inodes, u.held) = (t.files, t.inodes, t.held))
        fun _ _ ↦ True :=
      (Triple.of_frame (respects_fetchBytes (fun j _ ↦ diskFrame_loadKernel p _) _ _ le_rfl)
        t).post (fun _ _ ↦ id) fun _ _ _ ↦ trivial
    refine .bind hfetched fun _ ↦ .pure fun u hu ↦ .inr ?_
    simp only [Prod.mk.injEq] at hu
    obtain ⟨hfiles, hinodes, hheld⟩ := hu
    rw [hinodes, accepted_console hmajor, accepted_console hmajor]
    refine ⟨rfl, hheld.trans h.held, hfiles, fun hnone ↦ ?_, by omega⟩
    rw [hmajor] at hnone
    cases hnone
  · rename_i hdriver
    refine .pure_at (.inl ⟨rfl, ?_⟩)
    rw [accepted, hmajor]
    exact if_neg hdriver

theorem writei_chunk_file {i : ℕ} {m : Word} (h : Between f ip base i t) (hleft : left ≠ 0)
    (hm : m.toNat = min left writeMax) (hmajor : (t.inodes ip).major = none) :
    Triple (· = t) (writei ip (fun j ↦ loadKernel p (addr + BitVec.ofNat 32 j)) i (t.files f).off m)
      (ChunkDone ip (base + i) left m t) fun _ _ ↦ True := by
  have hmax : maxFile * bSize = 71680 := rfl
  have hwidth : writeMax = 1536 := rfl
  have hsmall := h.small hmajor
  have hoff : (t.files f).off.toNat = base + i := by
    rw [h.off_eq, toNat_ofNat, Nat.mod_eq_of_lt hsmall]
  have hsum := toNat_add (t.files f).off m
  rw [hoff] at hsum
  refine .get_at ?_
  rw [hmajor]
  dsimp only
  split
  · rename_i hstart
    refine .pure_at (.inl ⟨rfl, accepted_of_refused hmajor ?_⟩)
    rw [Bool.or_eq_true, decide_eq_true_eq, decide_eq_true_eq, lt_def, lt_def, hsum, hoff] at hstart
    omega
  rename_i hstart
  rw [Bool.or_eq_true, decide_eq_true_eq, decide_eq_true_eq, lt_def, lt_def, hsum, hoff] at hstart
  split
  · refine .pure_at (.inl ⟨rfl, accepted_of_refused hmajor (.inr ?_)⟩)
    omega
  let I : Machine nproc → Prop := fun u ↦ u.files = t.files ∧ (u.inodes ip).major = none
  have hdata (u : Machine nproc) (data : ℕ → Byte) (hu : I u) :
      I { u with inodes := update u.inodes ip { u.inodes ip with data := data } } := by
    simpa [I] using hu
  have hfetch (j : ℕ) : Keeps I (loadKernel p (addr + BitVec.ofNat 32 j)) := by
    refine .of_respects fun u hu ↦ ?_
    have hsame := diskFrame_loadKernel p (addr + BitVec.ofNat 32 j) u
    simp only [Frame.ofEq, Prod.mk.injEq] at hsame
    exact ⟨hsame.1.trans hu.1, by rw [hsame.2.1]; exact hu.2⟩
  have hblocks := writeBlocks_rule (I := I) (J := fun u ↦ I u ∧ u.held = none) (fun _ ↦ And.left)
    (fun _ _ ↦ id) hdata (fun _ hu ↦ ⟨hu, rfl⟩) (fun j _ ↦ hfetch j) m.toNat i
    (t.files f).off.toNat m.toNat le_rfl
  refine .bind ((hblocks.post (fun _ _ ↦ id) fun _ _ _ ↦ trivial).at_state ⟨⟨rfl, hmajor⟩, h.held⟩)
    fun _ ↦ ?_
  refine .modify_bind fun w hw ↦ .pure_at (.inr ?_)
  obtain ⟨⟨hfiles, hfile⟩, hheld⟩ := hw
  refine ⟨rfl, hheld, hfiles, fun _ ↦ by omega, ?_⟩
  rw [hm]
  -- the file has grown to the end of the chunk
  apply accepted_of_written hmajor
  · simp only [update_self]
    split <;> exact hfile
  · omega
  · omega
  · simp only [update_self]
    split
    · change _ ≤ ((t.files f).off + m).toNat
      omega
    · rename_i hgrows
      have hpos : 0 < m := by
        change 0 < m.toNat
        omega
      have hreach : ((t.files f).off + m).toNat ≤ (w.inodes ip).size.toNat :=
        BitVec.not_lt.mp fun hless ↦ hgrows ⟨hpos, hless⟩
      omega

theorem writei_chunk {i : ℕ} {m : Word} (h : Between f ip base i t) (hleft : left ≠ 0)
    (hm : m.toNat = min left writeMax) :
    Triple (· = t) (writei ip (fun j ↦ loadKernel p (addr + BitVec.ofNat 32 j)) i (t.files f).off m)
      (ChunkDone ip (base + i) left m t) fun _ _ ↦ True := by
  cases hmajor : (t.inodes ip).major with
  | some major => exact writei_chunk_device p addr h hm hmajor
  | none => exact writei_chunk_file p addr h hleft hm hmajor

/-- **The calls of the loop**: those of the chunks that fit, or the first of them if it halts. -/
theorem writeChunksTraced_chunks (n : ℕ) {i : ℕ} (hn : left ≤ n)
    {l : List PageUpdate} (h : Between f ip base i t) :
    Triple (fun x ↦ x = (t, l))
      (writeChunksTraced f (fun j ↦ loadKernel p (addr + BitVec.ofNat 32 j)) n i left)
      (fun _ x ↦ x.2 = l ++ chunks n (base + i)
        (accepted (t.inodes ip) (base + i) left))
      fun _ x ↦ x.2 <+: l ++ chunks n (base + i)
        (accepted (t.inodes ip) (base + i) left) := by
  induction n generalizing i left t l with
  | zero =>
    refine .pure_at ?_
    rw [chunks, append_nil]
  | succ n ih =>
    have hmax : maxFile * bSize = 71680 := rfl
    have hwidth : writeMax = 1536 := rfl
    rw [writeChunksTraced]
    by_cases hdone : left = 0
    · rw [if_pos hdone]
      refine .pure_at ?_
      have hzero : accepted (t.inodes ip) (base + i) left = 0 :=
        Nat.eq_zero_of_le_zero (hdone ▸ accepted_le _ _ _)
      rw [hzero, chunks, if_pos rfl, append_nil]
    · rw [if_neg hdone]
      have hchunk := toNat_chunk left
      generalize hm : BitVec.ofNat 32 (min left writeMax) = m at hchunk ⊢
      refine triple_lift_get_bind ?_
      rintro _ rfl
      dsimp only
      rw [h.ip_eq]
      have hwritei := triple_lift (writei_chunk p addr h hdone hchunk) l
      refine (hwritei.pre fun x hx ↦ by rw [hx]; exact ⟨rfl, rfl⟩).seq (fun _ x hx ↦ ?_)
        fun r ↦ .of_forall ?_
      · rw [hx.2]
        exact prefix_append _ _
      rintro ⟨u, l'⟩ ⟨hcases, hl⟩
      obtain rfl : l' = l := hl
      rcases hcases with ⟨hr, hrefused⟩ | ⟨hr, hheld, hfiles, hsmall, hrest⟩
      · rw [if_pos (by rw [hr]; decide)]
        refine .pure_at ?_
        rw [hrefused, chunks, if_pos rfl, append_nil]
      · dsimp only at hheld hfiles hsmall hrest
        rw [hr, slt_zero_of_small (by omega), if_neg Bool.false_ne_true, if_neg (by simp)]
        -- the calls that are left are those of the rest of the write
        rw [hrest, hchunk, chunks_append hdone (accepted_le _ _ _), hm]
        have hoffset := h.off_eq
        rw [← hoffset, append_cons]
        refine .modify_bind ?_
        rintro _ rfl
        have hframe := respects_updatePage
          (fun j (_ : j < i + m.toNat) ↦ diskFrame_loadKernel p (addr + BitVec.ofNat 32 j))
          { mem := fun _ _ ↦ rfl, pagecache := fun _ _ _ ↦ rfl } (t.files f).off ip.inum ip.dev i m
          le_rfl
        have hupdate := triple_lift (.of_frame hframe u)
          (l' ++ [{ offset := (t.files f).off, size := m }])
        refine (hupdate.pre fun x hx ↦ by rw [hx]; exact ⟨rfl, rfl⟩).seq (fun _ x hx ↦ ?_)
          fun _ ↦ .of_forall ?_
        · rw [hx.2]
          exact prefix_append _ _
        rintro ⟨v, l''⟩ ⟨hsame, hl⟩
        obtain rfl : l'' = _ := hl
        obtain ⟨hvfiles, hvinodes, hvheld⟩ :
            v.files = u.files ∧ v.inodes = u.inodes ∧ v.held = u.held := by
          simpa [Frame.ofEq] using hsame
        have hnext : Between f ip base (i + m.toNat) { v with
            files := Function.update v.files f { v.files f with off := (v.files f).off + m } } := by
          refine ⟨hvheld.trans hheld, ?_, ?_, ?_⟩
          · dsimp only
            rw [update_self, hvfiles, hfiles]
            exact h.ip_eq
          · dsimp only
            rw [update_self, hvfiles, hfiles, h.off_eq, ← Nat.add_assoc, ofNat_add _ m.toNat,
              ofNat_toNat, setWidth_eq]
          · dsimp only
            rw [hvinodes, ← Nat.add_assoc]
            exact hsmall
        rw [← hchunk, ← hvinodes, Nat.add_assoc]
        rintro _ rfl
        exact ih (by omega) hnext _ rfl

/-- The calls of `filewrite`, of which a run that halts makes the first ones. -/
theorem filewriteTraced_updates {s : Machine nproc} {n : Word}
    (htype : (s.files f).type = .inode) (hheld : s.held = none) :
    Triple (fun x ↦ x = (s, []))
      (filewriteTraced f (fun j ↦ loadKernel p (addr + BitVec.ofNat 32 j)) n)
      (fun _ x ↦ x.2 = updatesOf s f n) fun _ x ↦ x.2 <+: updatesOf s f n := by
  refine triple_lift_get_bind ?_
  rintro _ rfl
  dsimp only
  rw [updatesOf]
  cases hwritable : (s.files f).writable with
  | false =>
    refine .pure_at ?_
    rfl
  | true =>
    rw [if_neg (by decide), htype, if_pos rfl]
    have hstart : Between f (s.files f).ip (s.files f).off.toNat 0 s := by
      refine ⟨hheld, rfl, ?_, fun _ ↦ (s.files f).off.isLt⟩
      rw [Nat.add_zero, ofNat_toNat, setWidth_eq]
    refine .bind (writeChunksTraced_chunks p addr n.count le_rfl hstart) fun ok ↦ ?_
    split
    · exact .pure fun _ ↦ id
    · exact .pure fun _ ↦ id

end Run

end Kernel

open Library Kernel in
/-- **Page-cache updates stay in their page** if, and when `filewrite` returns only if, the bytes that
are written stay in one page, or a chunk ends at the one page boundary that they cross. -/
theorem filewrite_updates_inPage {nproc : ℕ} (s : Machine nproc) (p : Fin nproc) (f addr n : Word)
    (htype : (s.files f).type = .inode) (hheld : s.held = none) :
    let fetch := fun j ↦ loadKernel p (addr + BitVec.ofNat 32 j)
    let inside := ∀ e ∈ Traced.events (filewriteTraced f fetch n) s, e.InPage
    let stays := (s.files f).writable = true → StaysInPage (s.files f).off.toNat
      (accepted (s.inodes (s.files f).ip) (s.files f).off.toNat n.count)
    (stays → inside) ∧ ((filewrite f fetch n s).1.toBool = true → inside → stays) := by
  intro fetch inside stays
  have hiff : (∀ e ∈ updatesOf s f n, e.InPage) ↔ stays := by
    simp only [updatesOf, stays]
    split
    · rename_i hwritable
      rw [forall_prop_of_true hwritable]
      exact chunks_inPage_iff (accepted_le _ _ _)
    · rename_i hwritable
      simp [hwritable]
  have hrun := filewriteTraced_updates p addr (n := n) htype hheld (s, []) rfl
  have herases := filewriteTraced_erases f fetch n (s, [])
  rcases hc : filewriteTraced f fetch n (s, []) with ⟨outcome, x⟩
  have hevents : Traced.events (filewriteTraced f fetch n) s = x.2 := by rw [Traced.events, hc]
  rw [hc] at hrun herases
  rw [← hiff, show inside = ∀ e ∈ x.2, e.InPage by rw [← hevents], ← herases]
  cases outcome with
  | ok r =>
    have hall : x.2 = updatesOf s f n := hrun
    rw [hall]
    exact ⟨id, fun _ ↦ id⟩
  | error e =>
    have hfirst : x.2 <+: updatesOf s f n := hrun
    exact ⟨fun h e he ↦ h e (hfirst.subset he), nofun⟩

open Library Kernel BootImage in
/-- The last 96 bytes of a page that is cached are written, with one call. -/
theorem filewrite_updates_inPage_tail :
    let fetch := fun j ↦ (loadKernel 0 (0 + BitVec.ofNat 32 j) : Kernel 1 Byte)
    let s := (copyPage someInode 0 0x400000 1 0 (withFile 0 0)).2
    (s.pagecache.findPage someInode.inum 0 someInode.dev).isSome = true ∧
      Traced.events (filewriteTraced 0 fetch 96) s = [{ offset := 4000, size := 96 }] ∧
      ∀ e ∈ Traced.events (filewriteTraced 0 fetch 96) s, e.InPage := by
  intro fetch s
  have hoff : (s.files 0).off.toNat = 4000 := by decide +kernel
  have haccepted : accepted (s.inodes (s.files 0).ip) 4000 (Word.count 96) = 96 := by decide +kernel
  refine ⟨by decide +kernel, by decide +kernel, ?_⟩
  apply (filewrite_updates_inPage s 0 0 0 96 (by decide +kernel) (by decide +kernel)).1
  intro _
  rw [hoff, haccepted]
  exact Or.inl (by decide)

open Library Kernel BootImage in
/-- Two pages of a file are cached and 200 bytes are written from offset 4000 on: the copy into the
first page runs over into the frame of the second. -/
theorem filewrite_overruns_page :
    let fetch := fun j ↦ (loadKernel 0 (BitVec.ofNat 32 j) : Kernel 1 Byte)
    let s := ((do copyPage someInode 0 0x400000 1 0; copyPage someInode 4096 0x400000 1 0 :
      Kernel 1 Unit) (withFile 0 0)).2
    Traced.events (filewriteTraced 0 fetch 200) s = [{ offset := 4000, size := 200 }] ∧
      ¬ PageUpdate.InPage { offset := 4000, size := 200 } ∧
      (s.pagecache.findPage someInode.inum 0 someInode.dev).map (fun i ↦ (s.pagecache.pages i).page) =
        some 0x300000 ∧
      s.mem 0x301000 = 7 ∧ (filewrite 0 fetch 200 s).2.mem 0x301000 = 0 := by
  decide +kernel

end Xv6Mmap
