import Xv6Mmap.Machine.Growth

/-!
# Writing a region back

When `my_munmap` writes a region back whose pages are all present, no page fault is taken on the way:
page tables, free list and processes stay as they are.  The call succeeds if the file is no device
and open for writing and the region lies within what the file can hold.
-/

namespace Xv6Mmap

open Function Library Prog

variable {N : ℕ}

/-- Page tables, free list and processes are as they were. -/
structure Quiet (s t : Machine N) : Prop where
  pgdirs : t.pgdirs = s.pgdirs
  freelist : t.freelist = s.freelist
  procs : t.procs = s.procs

theorem Quiet.refl (s : Machine N) : Quiet s s := ⟨rfl, rfl, rfl⟩

/-- An inode is of the same kind as before and has not shrunk. -/
structure Inode.Grows (a b : Inode) : Prop where
  size : a.size ≤ b.size
  major : b.major = a.major

theorem Inode.Grows.refl (a : Inode) : a.Grows a := ⟨BitVec.le_refl _, rfl⟩

theorem Inode.Grows.trans {a b c : Inode} (h : a.Grows b) (h' : b.Grows c) : a.Grows c :=
  ⟨BitVec.le_trans h.size h'.size, h'.major.trans h.major⟩

namespace Kernel

open Machine

variable {s t : Machine N} {p : Fin N} {I : Machine N → Prop}

/-- The kernel reads a byte of a page that is present without a fault. -/
theorem loadKernel_present {addr : Word} (h : present s p addr = true) :
    loadKernel p addr s = (.ok (s.mem (physical s p addr)), s) := by
  rw [loadKernel, loadFaulting, bind_of_ok (get_apply s), if_pos h]
  rfl

/-- Something that holds from a quiet state on, whatever is written to files. -/
theorem keeps_loadKernel_present {addr : Word}
    (hI : ∀ t, I t → present t p addr = true) : Keeps I (loadKernel p addr) := by
  intro t ht
  rw [loadKernel_present (hI t ht)]
  exact ht

/-- All pages of a region are present. -/
def Touched (s : Machine N) (p : Fin N) (mr : MmapRegion) : Prop :=
  ∀ j < mr.size.count, present s p (mr.virtAddr + BitVec.ofNat 32 j) = true

/-! ## `writei` and `filewrite` -/

/-- Since `s`, a file has been written up to offset `off` of `f`. -/
structure Writing (s : Machine N) (f : Word) (off : ℕ) (t : Machine N) : Prop where
  quiet : Quiet s t
  files : ∀ g, (t.files g).writable = (s.files g).writable ∧ (t.files g).ip = (s.files g).ip
  grows : ∀ ip, (s.inodes ip).Grows (t.inodes ip)
  ordinary : (t.inodes (t.files f).ip).major = none
  off_eq : (t.files f).off.toNat = off
  reached : off ≤ (t.inodes (t.files f).ip).size.toNat

/-- The state in the middle of a `writei` that has been called in state `t`. -/
structure Filling (s t u : Machine N) : Prop where
  quiet : Quiet s u
  files : u.files = t.files
  sizes : ∀ ip, (u.inodes ip).size = (t.inodes ip).size
  majors : ∀ ip, (u.inodes ip).major = (t.inodes ip).major

section Fetch

variable {fetch : ℕ → Kernel N Byte} {bound : ℕ} {f : Word}

theorem keeps_fetchBytes (hfetch : ∀ j < bound, Keeps I (fetch j)) (i m : ℕ)
    (him : i + m ≤ bound) : Keeps I (fetchBytes fetch i m) :=
  .of_respects (respects_fetchBytes (fun j hj ↦ (hfetch j hj).respects) i m him)

/-- **The block loop of `writei`**, with `J` between two blocks and `I` while a buffer is held. -/
theorem writeBlocks_rule {I J : Machine N → Prop} {ip : InodeRef} (hJ : ∀ u, J u → I u)
    (hheld : ∀ u held, I u → I { u with held := held })
    (hdata : ∀ u data, I u →
      I { u with inodes := update u.inodes ip { u.inodes ip with data := data } })
    (hrelease : ∀ u, I u → J { u with held := none })
    (hfetch : ∀ j < bound, Keeps I (fetch j)) (n i off left : ℕ) (hleft : i + left ≤ bound) :
    Triple J (writeBlocks ip fetch n i off left) (fun _ ↦ J) fun _ ↦ I := by
  induction n generalizing i off left with
  | zero => exact .pure fun _ ↦ id
  | succ n ih =>
    rw [writeBlocks]
    split
    · exact .pure fun _ ↦ id
    · refine .bind (Q := fun _ ↦ I) ((Triple.of_respects (respects_bread ip _)).pre hJ) fun _ ↦ ?_
      refine .bind (Q := fun _ ↦ I) (.modify fun u hu ↦ hheld u _ hu) fun _ ↦ ?_
      dsimp only
      refine .bind (keeps_fetchBytes hfetch _ _ (by omega)) fun bytes ↦ ?_
      refine .bind (Q := fun _ ↦ I) (.modify fun u hu ↦ hdata u _ hu) fun _ ↦ ?_
      exact .bind (.modify hrelease) fun _ ↦ ih _ _ _ (by omega)

/-- **`writei` within what the file can hold** writes all bytes. -/
theorem writei_writing {off i : ℕ} {n : Word} (h : Writing s f off t) (hn : 0 < n.toNat)
    (hfits : off + n.toNat ≤ maxFile * bSize) (hbound : i + n.toNat ≤ bound)
    (hfetch : ∀ j < bound, Keeps (Filling s t) (fetch j)) :
    Triple (· = t) (writei (t.files f).ip fetch i (t.files f).off n)
      (fun r u ↦ r = n ∧ Quiet s u ∧ u.files = t.files ∧
        (∀ ip, (t.inodes ip).Grows (u.inodes ip)) ∧
        off + n.toNat ≤ (u.inodes (t.files f).ip).size.toNat) fun _ u ↦ Quiet s u := by
  have hmax : maxFile * bSize = 71680 := rfl
  have hoff := h.off_eq
  have hreached := h.reached
  have hsum : ((t.files f).off + n).toNat = off + n.toNat := by
    rw [BitVec.toNat_add]
    omega
  refine .get_at ?_
  have hin : ¬ (decide ((t.inodes (t.files f).ip).size < (t.files f).off) ||
      decide ((t.files f).off + n < (t.files f).off)) = true := by
    rw [Bool.or_eq_true, decide_eq_true_eq, decide_eq_true_eq, BitVec.lt_def, BitVec.lt_def]
    omega
  simp only [h.ordinary]
  rw [if_neg hin, if_neg (by omega)]
  have hstart : Filling s t t := ⟨h.quiet, rfl, fun _ ↦ rfl, fun _ ↦ rfl⟩
  have hheld (u : Machine N) (held : Option (InodeRef × ℕ)) (hu : Filling s t u) :
      Filling s t { u with held := held } :=
    ⟨{ hu.quiet with }, hu.files, hu.sizes, hu.majors⟩
  have hdata (u : Machine N) (data : ℕ → Byte) (hu : Filling s t u) :
      Filling s t { u with
        inodes := update u.inodes (t.files f).ip { u.inodes (t.files f).ip with data := data } } := by
    refine ⟨{ hu.quiet with }, hu.files, ?_, ?_⟩
    · grind [update_apply, hu.sizes]
    · grind [update_apply, hu.majors]
  have hblocks := writeBlocks_rule (fun _ ↦ id) hheld hdata (hheld · none) hfetch n.toNat i
    (t.files f).off.toNat n.toNat hbound
  refine (hblocks.at_state hstart).seq (fun _ _ hw ↦ hw.quiet) fun _ ↦ ?_
  refine .modify_bind fun w hw ↦ .pure fun x hx ↦ ?_
  subst hx
  refine ⟨rfl, { hw.quiet with }, hw.files,
    fun ip ↦ ⟨?_, ?_⟩, ?_⟩
  · grind [update_apply, hw.sizes]
  · grind [update_apply, hw.majors]
  · simp only [update_self]
    split
    · exact hsum.ge
    · rename_i hlarge
      rw [not_and, BitVec.not_lt, BitVec.le_def, hsum] at hlarge
      exact hlarge (by rw [BitVec.lt_def]; exact hn)

/-- Caching what has been written changes neither files nor inodes. -/
theorem updatePage_quiet {v : Machine N} (hv : Quiet s v) (offset inum dev : Word) (i : ℕ)
    (size : Word) (hsize : i + size.toNat ≤ bound)
    (hfetch : ∀ j < bound, ∀ I : Machine N → Prop, (∀ u, I u → Quiet s u) → Keeps I (fetch j)) :
    Triple (· = v) (updatePage offset inum dev fetch i size)
      (fun _ u ↦ Quiet s u ∧ u.files = v.files ∧ u.inodes = v.inodes) fun _ u ↦ Quiet s u := by
  have hcache : CacheFrame (.ofInvariant fun u : Machine N ↦
      Quiet s u ∧ u.files = v.files ∧ u.inodes = v.inodes) := by
    constructor
    · exact fun _ _ h ↦ ⟨{ h.1 with }, h.2⟩
    · exact fun _ _ _ h ↦ ⟨{ h.1 with }, h.2⟩
  have hkeeps := Triple.of_respects (respects_updatePage
    (fun j hj ↦ (hfetch j hj _ fun u hu ↦ hu.1).respects) hcache offset inum dev i size hsize)
  exact (hkeeps.post (fun _ _ ↦ id) fun _ _ hu ↦ hu.1).at_state ⟨hv, rfl, rfl⟩

theorem writeChunks_writing (fuel i off left : ℕ) (hfuel : left ≤ fuel)
    (hfits : off + left ≤ maxFile * bSize) (hbound : i + left ≤ bound)
    (hfetch : ∀ j < bound, ∀ I : Machine N → Prop, (∀ u, I u → Quiet s u) → Keeps I (fetch j)) :
    Triple (Writing s f off) (writeChunks f fetch fuel i left)
      (fun ok t ↦ ok = true ∧ Writing s f (off + left) t) fun _ t ↦ Quiet s t := by
  induction fuel generalizing i off left with
  | zero =>
    obtain rfl : left = 0 := by omega
    exact .pure fun t ht ↦ ⟨rfl, ht⟩
  | succ fuel ih =>
    rw [writeChunks]
    by_cases hdone : left = 0
    · rw [if_pos hdone, hdone]
      exact .pure fun t ht ↦ ⟨rfl, ht⟩
    · rw [if_neg hdone]
      have hmax : maxFile * bSize = 71680 := rfl
      have hchunk := toNat_chunk left
      have hwidth : 0 < writeMax := by decide
      generalize BitVec.ofNat 32 (min left writeMax) = n at hchunk ⊢
      have hle : n.toNat ≤ left := by omega
      refine .get_bind fun t ht ↦ ?_
      refine .bind (writei_writing ht (by omega) (by omega) (by omega)
        fun j hj ↦ hfetch j hj _ fun u hu ↦ hu.quiet) fun r ↦ .of_forall ?_
      rintro u ⟨rfl, hquiet, hfiles, hgrows, hreached⟩
      rw [slt_zero_of_small (by omega), if_neg Bool.false_ne_true, if_neg (by simp)]
      refine .bind (updatePage_quiet hquiet _ _ _ _ _ (by omega) hfetch) fun _ ↦ ?_
      refine .modify_bind fun w hw ↦ ?_
      obtain ⟨hquiet', hfiles', hinodes'⟩ := hw
      have hnext := ih (i + r.toNat) (off + r.toNat) (left - r.toNat) (by omega) (by omega)
        (by omega)
      rw [show off + r.toNat + (left - r.toNat) = off + left by omega] at hnext
      refine hnext.at_state ?_
      have hsame : w.files = t.files := hfiles'.trans hfiles
      have hfile : (update w.files f { w.files f with off := (w.files f).off + r } f) =
          { t.files f with off := (t.files f).off + r } := by
        rw [update_self, hsame]
      refine ⟨{ hquiet' with }, fun g ↦ ?_, fun ip ↦ ?_, ?_, ?_,
        ?_⟩
      · rw [← (ht.files g).1, ← (ht.files g).2, ← hsame]
        by_cases hg : g = f
        · subst hg
          simp only [update_self, and_self]
        · simp only [update_of_ne hg, and_self]
      · have hgrown := (ht.grows ip).trans (hgrows ip)
        rw [← hinodes'] at hgrown
        exact hgrown
      · dsimp only
        rw [hfile, hinodes']
        exact (hgrows _).major.trans ht.ordinary
      · dsimp only
        rw [hfile, BitVec.toNat_add, ht.off_eq]
        omega
      · dsimp only
        rw [hfile, hinodes']
        exact hreached

/-- What `filewrite` needs to write `n` bytes at offset `off`. -/
structure FileHolds (s : Machine N) (f off : Word) (n : ℕ) : Prop where
  writable : (s.files f).writable = true
  ordinary : (s.inodes (s.files f).ip).major = none
  start : off ≤ (s.inodes (s.files f).ip).size
  fits : off.toNat + n ≤ maxFile * bSize

/-- **`filewrite` within what the file can hold** succeeds. -/
theorem filewrite_writing {n : Word} (hbound : n.count ≤ bound) (hn : n.slt 0 = false)
    (hholds : FileHolds s f (s.files f).off n.count)
    (hfetch : ∀ j < bound, ∀ I : Machine N → Prop, (∀ u, I u → Quiet s u) → Keeps I (fetch j)) :
    Triple (· = s) (filewrite f fetch n)
      (fun r t ↦ r = n ∧ ∃ off, Writing s f off t) fun _ t ↦ Quiet s t := by
  refine .get_at ?_
  rw [hholds.writable, if_neg (by decide)]
  have hstart : Writing s f (s.files f).off.toNat s :=
    ⟨.refl s, fun _ ↦ ⟨rfl, rfl⟩, fun _ ↦ .refl _, hholds.ordinary, rfl, hholds.start⟩
  cases (s.files f).type with
  | none => exact .halt fun u hu ↦ hu ▸ .refl s
  | inode =>
    refine .bind ((writeChunks_writing n.count 0 _ _ le_rfl hholds.fits (by omega) hfetch).at_state
      hstart) fun ok ↦ .of_forall ?_
    rintro u ⟨rfl, hu⟩
    rw [if_pos rfl, hn]
    refine .pure_at ?_
    exact ⟨rfl, _, hu⟩

end Fetch

/-- What is known of files and inodes after a write-back: no file has become read-only or another
file, and no inode has shrunk or become a device. -/
structure FilesKept (s t : Machine N) : Prop where
  files : ∀ g, (t.files g).writable = (s.files g).writable ∧ (t.files g).ip = (s.files g).ip
  grows : ∀ ip, (s.inodes ip).Grows (t.inodes ip)

/-- The write-back of a region goes through: its pages are all present, and its file can hold it. -/
def WritesThrough (s : Machine N) (p : Fin N) (mr : MmapRegion) : Prop :=
  Touched s p mr ∧ mr.size.slt 0 = false ∧ FileHolds s mr.f mr.offset mr.size.count

theorem WritesThrough.mono {mr : MmapRegion} (h : WritesThrough s p mr) (hfiles : FilesKept s t)
    (hpresent : ∀ j < mr.size.count, present s p (mr.virtAddr + BitVec.ofNat 32 j) = true →
      present t p (mr.virtAddr + BitVec.ofNat 32 j) = true) : WritesThrough t p mr := by
  obtain ⟨htouched, hsize, hholds⟩ := h
  refine ⟨fun j hj ↦ hpresent j hj (htouched j hj), hsize, ?_, ?_, ?_, hholds.fits⟩
  · rw [(hfiles.files _).1]
    exact hholds.writable
  · rw [(hfiles.files _).2]
    exact (hfiles.grows _).major.trans hholds.ordinary
  · rw [(hfiles.files _).2]
    exact BitVec.le_trans hholds.start (hfiles.grows _).size

/-- **The write-back of a region that is all there succeeds.** -/
theorem writeBack_quiet {mr : MmapRegion} (h : MmapRegion.writesBack mr = true →
    WritesThrough s p mr) :
    Triple (· = s) (writeBack p mr) (fun ok t ↦ ok = true ∧ Quiet s t ∧ FilesKept s t)
      fun _ t ↦ Quiet s t := by
  rw [writeBack]
  by_cases hback : MmapRegion.writesBack mr = true
  · rw [if_pos hback]
    obtain ⟨htouched, hsize, hholds⟩ := h hback
    refine .modify_bind ?_
    rintro t rfl
    have hfile : update t.files mr.f { t.files mr.f with off := mr.offset } mr.f =
        { t.files mr.f with off := mr.offset } := update_self _ _ _
    have hholds' : FileHolds { t with
        files := update t.files mr.f { t.files mr.f with off := mr.offset } } mr.f
        (update t.files mr.f { t.files mr.f with off := mr.offset } mr.f).off
        mr.size.count := by
      refine ⟨?_, ?_, ?_, ?_⟩
      · simp only [hfile]
        exact hholds.writable
      · simp only [hfile]
        exact hholds.ordinary
      · simp only [hfile]
        exact hholds.start
      · simp only [hfile]
        exact hholds.fits
    have hfetch (j : ℕ) (hj : j < mr.size.count) (I : Machine N → Prop)
        (hI : ∀ u, I u → Quiet { t with
          files := update t.files mr.f { t.files mr.f with off := mr.offset } } u) :
        Keeps I (loadKernel p (mr.virtAddr + BitVec.ofNat 32 j)) := by
      refine keeps_loadKernel_present fun u hu ↦ ?_
      have hquiet := hI u hu
      rw [present, hquiet.pgdirs, hquiet.procs]
      exact htouched j hj
    refine (filewrite_writing le_rfl hsize hholds' hfetch).seq
      (fun _ u hu ↦ { hu with }) fun r ↦ .pure ?_
    rintro u ⟨rfl, off, hu⟩
    refine ⟨by rw [hsize]; rfl, { hu.quiet with },
      fun g ↦ ?_, hu.grows⟩
    rw [(hu.files g).1, (hu.files g).2]
    by_cases hg : g = mr.f
    · subst hg
      simp only [update_self, and_self]
    · simp only [update_of_ne hg, and_self]
  · rw [if_neg hback]
    refine .pure_at ?_
    exact ⟨rfl, .refl s, fun _ ↦ ⟨rfl, rfl⟩, fun _ ↦ .refl _⟩

end Kernel

end Xv6Mmap
