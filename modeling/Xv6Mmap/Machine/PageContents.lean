import Xv6Mmap.Machine.CacheCoherence
import Xv6Mmap.Machine.FrameSafety
import Xv6Mmap.Machine.Taking

/-!
# What a page of a file is loaded with

`map_pagecache_page_util` fills a frame in at most two rounds, one for each page of the file that the
mapped bytes lie in.  The second round starts from offset `PGSIZE` of the file and not from the page
behind the first one, so the bytes behind a page boundary are the right ones in the first page of the
file only, or where the file repeats itself.
-/

namespace Xv6Mmap

open Library Prog Memory Machine BitVec List

variable {N : ℕ} {p : Fin N} {s t u : Machine N} {ip : InodeRef} {frame : Word} {c n : ℕ}
  {bytes : ℕ → Byte}

/-- The first `n` bytes of a frame are given by `bytes`, and the rest is zero. -/
def HoldsBytes (frame : Word) (n : ℕ) (bytes : ℕ → Byte) (t : Machine N) : Prop :=
  ∀ j < 4096, t.mem (frame + BitVec.ofNat 32 j) = if j < n then bytes j else 0

/-- Since `s`, a frame of its own has been loaded with the first `n` of the given bytes. -/
structure Loading (s : Machine N) (frame : Word) (n : ℕ) (bytes : ℕ → Byte) (t : Machine N) :
    Prop where
  ready : t.CacheReady
  aligned : frame.toNat % 4096 = 0
  apart : ∀ i, (t.pagecache.pages i).page ≠ frame
  rest : ∃ mem cache, t = { s with mem := mem, pagecache := cache }
  holds : HoldsBytes frame n bytes t

/-- Where in the file byte `j` of a page comes from that is filled from `offset` on. -/
def fillPos (offset j : ℕ) : ℕ := if offset % 4096 + j < 4096 then offset + j else offset % 4096 + j

namespace Kernel

variable {offset size destOffset va perm f d : Word}

/-- Past the end of the file there is nothing to read, and in a device neither. -/
theorem content_unavailable (hoffset : offset.toNat < 2 ^ 31) (h : ¬ PageAvailable s ip offset)
    (k : ℕ) : (s.inodes ip).content ((pageStart offset).toNat + k) = 0 := by
  have hstart := pageStart_of_lt hoffset
  have hpast : ¬ PageReadable s ip offset := fun hreadable ↦ h (.inr hreadable)
  rw [PageReadable, Bool.or_eq_false_iff, decide_eq_false_iff_not, decide_eq_false_iff_not,
    lt_def, lt_def, toNat_add, show pgSize.toNat = 4096 from rfl] at hpast
  refine if_neg fun hread ↦ hpast ⟨hread.1, ?_⟩
  have hlt := hread.2
  omega

/-- One round of the copy loop adds a chunk behind the first `c` bytes. -/
theorem copyPage_loading (size destOffset : Word) (h : Loading s frame c bytes t)
    (hdev : ip.dev ≠ 0) (hoffset : offset.toNat < 2 ^ 31) (hfit : destOffset.toNat + size.toNat ≤ 4096)
    (hend : c + size.toNat ≤ 4096) (hbytes : ∀ k < size.toNat, bytes (c + k) =
      (s.inodes ip).content ((pageStart offset).toNat + destOffset.toNat + k)) :
    Triple (· = t) (copyPage ip offset (frame + BitVec.ofNat 32 c) size destOffset)
      (fun _ ↦ Loading s frame (c + size.toNat) bytes) fun _ _ ↦ True := by
  have hfar (i : Fin nPageCache) {j : ℕ} (hj : j < 4096) :=
    frame_apart (h.ready.aligned i) h.aligned (h.apart i) hj
  have hinodes : t.inodes = s.inodes := by
    obtain ⟨_, _, rfl⟩ := h.rest
    rfl
  have hoff {a : Word} := toNat_sub_offset (show c < 2 ^ 32 by omega) a frame
  refine (copyPage_copies offset h.ready hdev hfit fun i k hk ↦ ?_).post ?_ fun _ _ _ ↦ trivial
  · have hclear := frame_apart h.aligned (h.ready.aligned i) (h.apart i).symm hk
    rw [hoff, if_pos (by omega)]
    omega
  rintro _ u ⟨n, hfetched, hn⟩
  refine ⟨hfetched.ready, h.aligned, fun i ↦ hfetched.frames i ▸ h.apart i, ?_, fun j hj ↦ ?_⟩
  · obtain ⟨_, _, rfl⟩ := h.rest
    exact hfetched.rest
  -- bytes of the chunk are new; the others are as they were
  have hdistance := hoff (a := frame + BitVec.ofNat 32 j)
  rw [toNat_offset (by omega)] at hdistance
  by_cases hin : c ≤ j ∧ j < c + n
  · have hbyte := hfetched.bytes (j - c) (by omega)
    rw [BitVec.add_assoc, ← ofNat_add, Nat.add_sub_cancel' hin.1, hinodes] at hbyte
    rw [hbyte, if_pos (by omega), ← hbytes (j - c) (by omega), Nat.add_sub_cancel' hin.1]
  · rw [hfetched.mem_eq _ (hfar · hj) (by split at hdistance <;> omega), h.holds j hj]
    by_cases hlow : j < c
    · rw [if_pos hlow, if_pos (by omega)]
    · rw [if_neg hlow]
      split
      · obtain ⟨_, hnone⟩ := hn.resolve_left (by omega)
        have hzero := content_unavailable hoffset hnone (destOffset.toNat + (j - c))
        rw [hinodes, ← Nat.add_assoc, ← hbytes (j - c) (by omega), Nat.add_sub_cancel' (by omega)]
          at hzero
        exact hzero.symm
      · rfl

/-- The first round reads to the end of the page, the second one takes the rest. -/
theorem toNat_fillChunk (hoffset : offset.toNat < 2 ^ 31) (hsize : size.toNat ≤ 4096) :
    (fillChunk offset size).toNat = min size.toNat (4096 - offset.toNat % 4096) := by
  have hrem := srem_pgSize_of_lt hoffset
  have hroom : (pgSize - offset.srem pgSize).toNat = 4096 - offset.toNat % 4096 := by
    rw [toNat_sub, hrem, show pgSize.toNat = 4096 from rfl]
    omega
  rw [fillChunk, slt_of_small (by omega) (by omega), hroom, apply_ite BitVec.toNat, hroom]
  simp only [decide_eq_true_eq]
  split <;> omega

/-- **The copy loop** fills a blank frame with the bytes at `fillPos`. -/
theorem fillPage_loading (h : Loading s frame 0 bytes t) (hdev : ip.dev ≠ 0)
    (hoffset : offset.toNat < 2 ^ 31) (hsize : size.toNat ≤ 4096)
    (hbytes : ∀ j, bytes j = (s.inodes ip).content (fillPos offset.toNat j)) :
    Triple (· = t) (fillPage ip (size.toNat + 1) frame offset 0 size)
      (fun _ ↦ Loading s frame size.toNat bytes) fun _ _ ↦ True := by
  have hchunk := toNat_fillChunk hoffset hsize
  have hrem := srem_pgSize_of_lt hoffset
  have hstart := pageStart_of_lt hoffset
  refine fillPage_cases (M := Loading s frame (fillChunk offset size).toNat bytes) hsize ?_ ?_ ?_ ?_
  · rintro u rfl hnone
    refine ⟨h.ready, h.aligned, h.apart, h.rest, fun j hj ↦ ?_⟩
    rw [h.holds j hj, if_neg (Nat.not_lt_zero j)]
    split
    · rename_i hlt
      have hinodes : u.inodes = s.inodes := by
        obtain ⟨_, _, rfl⟩ := h.rest
        rfl
      rcases hnone with rfl | hpast
      · exact absurd hlt (Nat.not_lt_zero j)
      · rw [lt_def, hrem, hinodes] at hpast
        rw [hbytes, fillPos, Inode.content, if_neg]
        split <;> omega
    · rfl
  · have hcopy := copyPage_loading (fillChunk offset size) (offset.srem pgSize) h hdev hoffset
      (by omega) (by omega) fun k hk ↦ ?_
    · rwa [BitVec.add_zero, Nat.zero_add] at hcopy
    · rw [hbytes, fillPos, hrem, hstart, if_pos (by omega)]
      exact congrArg (s.inodes ip).content (by omega)
  · intro hall u hu
    rwa [hall] at hu
  · intro hmore
    have hne : (fillChunk offset size).toNat ≠ size.toNat := fun heq ↦
      hmore (eq_of_toNat_eq heq)
    have hleft : (size - fillChunk offset size).toNat = size.toNat - (fillChunk offset size).toNat :=
      toNat_sub_of_le (le_def.mpr (by omega))
    refine .of_forall fun u hu ↦ ?_
    have hcopy := copyPage_loading (size - fillChunk offset size) 0 hu hdev
      (show pgSize.toNat < 2 ^ 31 by decide) (by rw [show (0 : Word).toNat = 0 from rfl]; omega)
      (by omega) fun k hk ↦ ?_
    · rwa [ofNat_toNat, setWidth_eq, hleft, Nat.add_sub_cancel' (by omega)] at hcopy
    · rw [hbytes, fillPos, if_neg (by omega), show (pageStart pgSize).toNat = 4096 from rfl,
        show (0 : Word).toNat = 0 from rfl]
      exact congrArg (s.inodes ip).content (by omega)

/-- Mapping a page enters it; a page that has been entered is not mapped again. -/
theorem mapPage_entered {v : Vpn} {e : Word} (he : e.has pteP = true) (a pa : Word) :
    Triple (fun t ↦ s.Taking t ∧ (t.pgdirs d).Tabled ∧
        ((t.pgdirs d).pte v = e ∨ v = vpn a ∧ e = pa ||| perm ||| pteP)) (mapPage d a pa perm)
      (fun ok t ↦ ok = true → s.Taking t ∧ (t.pgdirs d).Tabled ∧ (t.pgdirs d).pte v = e)
      fun _ _ ↦ True := by
  refine .of_forall ?_
  rintro t ⟨htaking, htabled, hentry⟩
  refine (mapPage_run d a pa perm t).post ?_ fun _ _ _ ↦ trivial
  rintro _ u hu rfl
  obtain ⟨w, hwalked, habsent, rfl⟩ := hu
  have hgrown := grown_of_walked hwalked
  refine ⟨(htaking.trans (.of_grown hgrown)).congr rfl rfl fun _ ↦ rfl, ?_, ?_⟩
  · change ((w.setDir d ((w.pgdirs d).withPte (vpn a) _)).pgdirs d).Tabled
    rw [pgdirs_setDir_self]
    exact (tabled_of_walked hwalked htabled).withPte (isSome_of_walked hwalked) _
  · rcases hentry with hentry | ⟨rfl, rfl⟩
    · rw [← hgrown.entries htabled] at hentry
      rw [pte_setPte_of_ne w _ (.inr ?_), hentry]
      rintro rfl
      rw [hentry, he] at habsent
      cases habsent
    · exact pte_setPte_self w d _ _

theorem mapPagesFrom_entered {v : Vpn} {e : Word} (he : e.has pteP = true) (n : ℕ) (a pa : Word) :
    Triple (fun t ↦ s.Taking t ∧ (t.pgdirs d).Tabled ∧
        ((t.pgdirs d).pte v = e ∨ v = vpn a ∧ e = pa ||| perm ||| pteP))
      (mapPagesFrom d a pa perm n)
      (fun ok t ↦ ok = true → s.Taking t ∧ (t.pgdirs d).Tabled ∧ (t.pgdirs d).pte v = e)
      fun _ _ ↦ True := by
  induction n generalizing a pa with
  | zero => exact mapPage_entered he a pa
  | succ n ih =>
    refine .bind (mapPage_entered he a pa) fun ok ↦ ?_
    cases ok with
    | false => exact .pure fun _ _ ↦ nofun
    | true => exact (ih _ _).pre fun t ht ↦ ⟨(ht rfl).1, (ht rfl).2.1, .inl (ht rfl).2.2⟩

theorem mappages_entered (va size perm : Word) (htabled : (s.pgdirs d).Tabled) (pa : Word) :
    Triple (· = s) (mappages d va size pa perm)
      (fun ok t ↦ ok = true → s.Taking t ∧ (t.pgdirs d).pte (vpn va) = pa ||| perm ||| pteP)
      fun _ _ ↦ True := by
  refine ((mapPagesFrom_entered (has_pteP_or (pa ||| perm)) _ _ pa).at_state
    ⟨.refl s, htabled, .inr ⟨(vpn_pgRoundDown va).symm, rfl⟩⟩).post ?_ fun _ _ ↦ id
  exact fun _ _ ht hmapped ↦ ⟨(ht hmapped).1, (ht hmapped).2.2⟩

variable {E : Word → Vpn → Prop} {D R : Set Word} {rest : List Word}

/-- The first free frame, after it has been taken and cleared. -/
theorem loading_blank (hsound : FrameSound E D R s) (hready : s.CacheReady)
    (hfree : s.freelist = frame :: rest) (bytes : ℕ → Byte) :
    Loading { s with freelist := rest } frame 0 bytes
      { s with freelist := rest, mem := blit s.mem frame 4096 fun _ ↦ 0 } := by
  have hmem : frame ∈ s.freelist := hfree ▸ mem_cons_self
  have haligned := (hsound.free_ok frame hmem).2
  have hapart (i : Fin nPageCache) : (s.pagecache.pages i).page ≠ frame := fun heq ↦
    hsound.owners.not_free (.cache i) frame heq hmem
  have hready' : CacheReady { s with freelist := rest } := { hready with }
  constructor
  case ready =>
    exact ready_blit hready'
      (fun i k hk ↦ frame_apart haligned (hready.aligned i) (hapart i).symm hk) _
  case aligned => exact haligned
  case apart => exact hapart
  case rest => exact ⟨_, _, rfl⟩
  case holds =>
    intro j hj
    dsimp only
    rw [blit_offset hj (by decide), if_neg (Nat.not_lt_zero j)]

/-- **`map_pagecache_page_util` maps the first free frame, filled with the bytes at `fillPos`.** -/
theorem mapPagecachePageUtil_loading (hsound : FrameSound E D R s)
    (htabled : (s.pgdirs (s.procs p).pgdir).Tabled) (hready : s.CacheReady)
    (hdev : (s.files f).ip.dev ≠ 0) (hoffset : offset.toNat < 2 ^ 31) (hsize : size.toNat ≤ 4096)
    (hrun : mapPagecachePageUtil p f va perm offset size s = (.ok size, t)) :
    ∃ frame, s.freelist.head? = some frame ∧
      (t.pgdirs (s.procs p).pgdir).pte (vpn va) = frame ||| perm ||| pteP ∧
      HoldsBytes frame size.toNat
        (fun j ↦ (s.inodes (s.files f).ip).content (fillPos offset.toNat j)) t := by
  have hvalid : size ≠ -1 := by
    rintro rfl
    exact absurd hsize (by decide)
  cases hfree : s.freelist with
  | nil =>
    rw [mapPagecachePageUtil, bind_of_ok (kalloc_nil hfree)] at hrun
    cases hrun
    exact absurd rfl hvalid
  | cons frame rest =>
    rw [mapPagecachePageUtil, bind_of_ok (kalloc_cons hfree)] at hrun
    dsimp only at hrun
    rw [bind_of_ok (memset_apply _ _ _ _), bind_of_ok (get_apply _)] at hrun
    dsimp only at hrun
    obtain ⟨_, u, hfill, hrun⟩ := bind_eq_ok hrun
    obtain ⟨mapped, w, hmap, hrun⟩ := bind_eq_ok hrun
    have hloading := (fillPage_loading (loading_blank hsound hready hfree _) hdev hoffset hsize
      fun _ ↦ rfl).returned rfl hfill
    obtain ⟨mem, cache, hu⟩ := hloading.rest
    have hdirs : u.pgdirs = s.pgdirs := by rw [hu]
    have hentered := (mappages_entered va pgSize perm (hdirs ▸ htabled) frame).returned rfl hmap
    cases mapped with
    | false =>
      cases hrun
      exact absurd rfl hvalid
    | true =>
      cases hrun
      obtain ⟨htaking, hentry⟩ := hentered rfl
      refine ⟨frame, rfl, hentry, fun j hj ↦ ?_⟩
      rw [htaking.mem, hloading.holds j hj]
      · -- the frames that page tables take are other ones
        intro g hg
        have hg : g ∈ rest := by
          rw [hu] at hg
          exact hg
        refine frame_apart (hsound.free_ok g ?_).2 hloading.aligned ?_ hj
        · exact hfree ▸ mem_cons_of_mem frame hg
        · rintro rfl
          exact (nodup_cons.mp (hfree ▸ hsound.owners.nodup)).1 hg
      · exact fun i ↦ frame_apart (hloading.ready.aligned i) hloading.aligned (hloading.apart i) hj

/-- **What a page of a file holds.**  When `map_pagecache_page_util` succeeds on a cache in order, the
frame that it maps holds `size` bytes of the file from `offset` on, with zeros behind them, if and
only if each byte behind a page boundary is also found where the second round reads it. -/
theorem mapPagecachePageUtil_holds_iff (hsound : FrameSound E D R s)
    (htabled : (s.pgdirs (s.procs p).pgdir).Tabled) (hready : s.CacheReady)
    (hdev : (s.files f).ip.dev ≠ 0) (hoffset : offset.toNat < 2 ^ 31) (hsize : size.toNat ≤ 4096)
    (hrun : mapPagecachePageUtil p f va perm offset size s = (.ok size, t)) :
    ∃ frame, s.freelist.head? = some frame ∧
      (t.pgdirs (s.procs p).pgdir).pte (vpn va) = frame ||| perm ||| pteP ∧
      (HoldsBytes frame size.toNat
          (fun j ↦ (s.inodes (s.files f).ip).content (offset.toNat + j)) t ↔
        ∀ j < size.toNat, 4096 ≤ offset.toNat % 4096 + j →
          (s.inodes (s.files f).ip).content (offset.toNat % 4096 + j) =
            (s.inodes (s.files f).ip).content (offset.toNat + j)) := by
  obtain ⟨frame, hhead, hentry, hholds⟩ :=
    mapPagecachePageUtil_loading hsound htabled hready hdev hoffset hsize hrun
  refine ⟨frame, hhead, hentry, fun h j hj hover ↦ ?_, fun h j hj ↦ ?_⟩
  · have hbyte := (hholds j (by omega)).symm.trans (h j (by omega))
    dsimp only at hbyte
    rwa [if_pos hj, if_pos hj, fillPos, if_neg (by omega)] at hbyte
  · rw [hholds j hj]
    by_cases hlt : j < size.toNat
    · dsimp only
      rw [if_pos hlt, if_pos hlt, fillPos]
      split
      · rfl
      · exact h j hlt (by omega)
    · rw [if_neg hlt, if_neg hlt]

open BootImage

/-- A machine with one file of three pages, each filled with its number. -/
def withPages : Machine 1 :=
  machine 0 10 (fun _ ↦ { type := .inode, ref := 1, readable := true, writable := true,
                          ip := someInode, off := 0 })
    fun _ ↦ { size := 12288, data := fun o ↦ BitVec.ofNat 8 (o / 4096) }

/-- A page from byte 100 of the file on lies in its first two pages. -/
theorem mapPagecachePageUtil_holds_first_page :
    ∃ t, mapPagecachePageUtil 0 0 0x60000000 pteU 100 4096 withPages = (.ok 4096, t) ∧
      HoldsBytes 0x400000 4096 (fun j ↦ (withPages.inodes someInode).content (100 + j)) t := by
  have hboot : withPages.Boot := boot (by decide)
  have hok : (mapPagecachePageUtil 0 0 0x60000000 pteU 100 4096 withPages).1 = .ok 4096 := by
    decide +kernel
  rcases hrun : mapPagecachePageUtil 0 0 0x60000000 pteU 100 4096 withPages with ⟨outcome, t⟩
  rw [hrun] at hok
  cases hok
  obtain ⟨frame, hhead, _, hiff⟩ := mapPagecachePageUtil_holds_iff hboot.frameSafe.sound
    (hboot.tabled _) hboot.cacheEmpty.cacheOk.toCacheReady (by decide) (by decide) (by decide) hrun
  cases hhead
  exact ⟨t, rfl, hiff.mpr fun _ _ _ ↦ rfl⟩

/-- The last byte of a page from byte 4097 of the file on is read from the second page of the file
and not from the third one. -/
theorem mapPagecachePageUtil_misreads_third_page :
    ∃ t, withPages.Boot ∧
      mapPagecachePageUtil 0 0 0x60000000 pteU 4097 4096 withPages = (.ok 4096, t) ∧
      ¬ HoldsBytes (pteAddr ((t.pgdirs (withPages.procs 0).pgdir).pte (vpn 0x60000000))) 4096
        (fun j ↦ (withPages.inodes someInode).content (4097 + j)) t := by
  have hrun : (mapPagecachePageUtil 0 0 0x60000000 pteU 4097 4096 withPages).1 = .ok 4096 ∧
      (let t := (mapPagecachePageUtil 0 0 0x60000000 pteU 4097 4096 withPages).2
      t.mem (pteAddr ((t.pgdirs (withPages.procs 0).pgdir).pte (vpn 0x60000000)) + 4095) = 1) := by
    decide +kernel
  rcases hresult : mapPagecachePageUtil 0 0 0x60000000 pteU 4097 4096 withPages with ⟨outcome, t⟩
  rw [hresult] at hrun
  obtain ⟨hok, hread⟩ := hrun
  cases hok
  refine ⟨t, boot (by decide), rfl, fun h ↦ ?_⟩
  have hbyte := h 4095 (by decide)
  rw [if_pos (by decide)] at hbyte
  exact absurd (hread.symm.trans hbyte) (by decide)

end Kernel

end Xv6Mmap
