import Xv6Mmap.Machine.PteIntegrity

/-!
# What parent and child share after `fork`

After a successful `fork`, parent and child map the same frame for every page of a shared region,
and different frames with equal bytes for every page of a private region that was present.  Three
things can break this: a `stored_size` that leaves nothing to load for a shared page that is absent
(the child then maps frame 0), a memory so full that the unchecked `mappages` of the child fails, and
a private page that maps frame 0, which `fork` takes for absent.
-/

namespace Xv6Mmap

open Library Prog Kernel Machine

variable {N : ℕ} {s t : Machine N} {p np : Fin N} {ledger : Ledger N}

namespace Machine

/-- A frame that `kalloc` has given out and that is still in use. -/
structure InUse (s : Machine N) (frame : Word) : Prop where
  ne_zero : frame ≠ 0
  aligned : frame.toNat % 4096 = 0
  not_free : frame ∉ s.freelist

end Machine

/-- What parent `p` and child `np` share for the pages of region `r` after the `fork` from `s` to
`t`. -/
structure ForkShares (s : Machine N) (p np : Fin N) (r : Region) (t : Machine N) : Prop where
  shared : r.flags.has mapShared = true → ∀ k < r.pageCount, ∃ frame, t.InUse frame ∧
    (Issued s t frame ∨ MapsFrame s p (r.page k) frame) ∧
    MapsFrame t p (r.page k) frame ∧ MapsFrame t np (r.page k) frame
  separate : r.flags.has mapShared = false → ∀ k < r.pageCount, ∀ own,
    MapsFrame s p (r.page k) own → ∃ frame, Issued s t frame ∧ frame ≠ own ∧
      MapsFrame t p (r.page k) own ∧ MapsFrame t np (r.page k) frame ∧
      ∀ j < 4096, t.mem (frame + BitVec.ofNat 32 j) = t.mem (own + BitVec.ofNat 32 j) ∧
        t.mem (own + BitVec.ofNat 32 j) = s.mem (own + BitVec.ofNat 32 j)

/-- The condition on the state in which `p` forks. -/
structure ForkFit (s : Machine N) (p : Fin N) : Prop where
  loads : ForkLoads s p
  framed : ∀ r ∈ (s.procs p).mmaps.live, r.flags.has mapShared = false → ∀ k < r.pageCount,
    ¬ MapsFrame s p (r.page k) 0
  memory : 66 + 2 * (((s.procs p).sz.toNat + 4095) / 4096) +
    3 * pagesBelow (s.procs p).mmaps (s.procs p).mmaps.total.toNat < s.freelist.length

theorem mapsFrame_of_entry {q : Fin N} {v : Vpn} {frame perm : Word}
    (hentry : (t.pgdirs (t.procs q).pgdir).pte v = frame ||| perm ||| pteP)
    (haligned : frame.toNat % 4096 = 0) (hperm : perm.toNat < 4096) : MapsFrame t q v frame := by
  rw [MapsFrame, hentry]
  exact ⟨has_pteP_or _, pteAddr_entry haligned hperm⟩

/-- The entry of a page of a live directory that names a frame is present. -/
theorem Machine.FrameSafe.mapsFrame (h : FrameSafe s) (hp : (s.procs p).state = .runnable) {v : Vpn}
    (hv : pteAddr ((s.pgdirs (s.procs p).pgdir).pte v) ≠ 0) :
    MapsFrame s p v (pteAddr ((s.pgdirs (s.procs p).pgdir).pte v)) := by
  refine ⟨h.sound.entries _ (mem_liveDirs (live_of_runnable hp)) v ?_, rfl⟩
  intro hzero
  rw [hzero] at hv
  exact hv rfl

section Copied

variable {i : ℕ}

/-- Pages of a shared region. -/
theorem Kernel.ForkCopied.shared (h : ForkCopied s p np t) (hsafe : FrameSafe s)
    (hp : (s.procs p).state = .runnable) (hspace : t.freelist ≠ [])
    (hi : i < (s.procs p).mmaps.total.toNat)
    (hperm : ((s.procs p).mmaps i).region.protection.toNat < 4096)
    (hshared : ((s.procs p).mmaps i).region.flags.has mapShared = true) {k : ℕ}
    (hk : k < ((s.procs p).mmaps i).region.pageCount) :
    ∃ frame, t.InUse frame ∧
      (Issued s t frame ∨ MapsFrame s p (((s.procs p).mmaps i).region.page k) frame) ∧
      MapsFrame t p (((s.procs p).mmaps i).region.page k) frame ∧
      MapsFrame t np (((s.procs p).mmaps i).region.page k) frame := by
  have hpage := h.pages i k hi hk
  generalize ((s.procs p).mmaps i).region = r at *
  have hchild : (t.pgdirs (t.procs np).pgdir).pte (r.page k) =
      pteAddr ((t.pgdirs (s.procs p).pgdir).pte (r.page k)) ||| r.protection ||| pteP :=
    (hpage.shared hshared).resolve_left fun hfailed ↦ hspace hfailed.2
  by_cases habsent : pteAddr ((s.pgdirs (s.procs p).pgdir).pte (r.page k)) = 0
  · -- `fork` has loaded the page into a frame of its own
    obtain ⟨frame, hissued, hentry⟩ := hpage.loaded hshared habsent
    obtain ⟨hne, haligned⟩ := hsafe.sound.free_ok frame (mem_of_issued hissued)
    rw [hentry, pteAddr_entry haligned hperm] at hchild
    rw [← h.parent_dir] at hentry
    refine ⟨frame, ⟨hne, haligned, not_mem_of_issued hissued hsafe.sound.owners.nodup⟩,
      .inl hissued, ?_, ?_⟩
    · exact mapsFrame_of_entry hentry haligned hperm
    · exact mapsFrame_of_entry hchild haligned hperm
  · -- the parent had touched the page before
    have hkept := hpage.kept (.inl habsent)
    have hmaps := hsafe.mapsFrame hp habsent
    obtain ⟨hnotfree, _⟩ := held_of_frameSafe hsafe hp habsent
    have haligned : (pteAddr ((s.pgdirs (s.procs p).pgdir).pte (r.page k))).toNat % 4096 = 0 := by
      rw [toNat_pteAddr]
      omega
    rw [hkept] at hchild
    refine ⟨_, ⟨habsent, haligned, fun hfree ↦ hnotfree (h.taking.free.subset hfree)⟩,
      .inr hmaps, ?_, mapsFrame_of_entry hchild haligned hperm⟩
    rw [MapsFrame, h.parent_dir, hkept]
    exact hmaps

/-- Pages of a private region. -/
theorem Kernel.ForkCopied.separate (h : ForkCopied s p np t) (hsafe : FrameSafe s)
    (hp : (s.procs p).state = .runnable) (hi : i < (s.procs p).mmaps.total.toNat)
    (hperm : ((s.procs p).mmaps i).region.protection.toNat < 4096)
    (hprivate : ((s.procs p).mmaps i).region.flags.has mapShared = false) {k : ℕ}
    (hk : k < ((s.procs p).mmaps i).region.pageCount) {own : Word} (hown : own ≠ 0)
    (hmaps : MapsFrame s p (((s.procs p).mmaps i).region.page k) own) :
    ∃ frame, Issued s t frame ∧ frame ≠ own ∧
      MapsFrame t p (((s.procs p).mmaps i).region.page k) own ∧
      MapsFrame t np (((s.procs p).mmaps i).region.page k) frame ∧
      ∀ j < 4096, t.mem (frame + BitVec.ofNat 32 j) = t.mem (own + BitVec.ofNat 32 j) ∧
        t.mem (own + BitVec.ofNat 32 j) = s.mem (own + BitVec.ofNat 32 j) := by
  have hpage := h.pages i k hi hk
  generalize ((s.procs p).mmaps i).region = r at *
  obtain ⟨hpresent, rfl⟩ := hmaps
  obtain ⟨frame, hissued, hentry, hbytes⟩ := hpage.copied hprivate hown
  obtain ⟨_, haligned⟩ := hsafe.sound.free_ok frame (mem_of_issued hissued)
  obtain ⟨hnotfree, _⟩ := held_of_frameSafe hsafe hp hown
  refine ⟨frame, hissued, ?_, ?_, mapsFrame_of_entry hentry haligned hperm, ?_⟩
  · rintro rfl
    exact hnotfree (mem_of_issued hissued)
  · rw [MapsFrame, h.parent_dir, hpage.kept (.inr hprivate)]
    exact ⟨hpresent, rfl⟩
  · grind [mem_held, h.taking]

end Copied

/-- **Fork shares exactly the shared pages.**  In every run from boot that keeps frames safe, a
`fork` that returns success in a state that meets the condition gives parent and child the same
frame for every page of a shared region, and separate frames with equal bytes for every page of a
private region that the parent had. -/
theorem fork_shares {s₀ : Machine N} (hboot : s₀.Boot)
    (hrun : Runs.Reaches Machine.stepLedger (fun x op ↦ x.1.KeepsFrames op) (s₀, fun _ ↦ [])
      (s, ledger))
    (hp : (s.procs p).state = .runnable) (hfit : ForkFit s p)
    (hfork : fork p s = (.ok (some np), t)) : ∀ r ∈ ledger p, ForkShares s p np r t := by
  have htracked : s.Tracked ledger := by
    refine hrun.invariant (I := fun x ↦ x.1.Tracked x.2) hboot.tracked ?_
    intro x op y hx hkeeps hstep
    obtain ⟨u, hnext, rfl⟩ := Option.map_eq_some_iff.mp hstep
    exact hx.step hkeeps hnext
  intro r hr
  have hlive := (htracked.recorded p hp).symm.subset hr
  have hsafe := htracked.safe
  have hcopied := fork_copied hsafe htracked.tabled hp hfit.loads hfork
  have hperm := (hsafe.fit p hp).1.2 r hlive
  have hspace : t.freelist ≠ [] := by grind [hcopied.count, hfit.memory]
  have hframed := hfit.framed r hlive
  obtain ⟨i, hi, rfl⟩ := List.mem_map.mp hlive
  have hi' := List.mem_range.mp hi
  constructor
  case shared =>
    intro hshared k hk
    exact hcopied.shared hsafe hp hspace hi' hperm hshared hk
  case separate =>
    intro hprivate k hk own hmaps
    refine hcopied.separate hsafe hp hi' hperm hprivate hk ?_ hmaps
    rintro rfl
    exact hframed hprivate k hk hmaps

/-- A shared page at a fixed address. -/
def fixedSharedPage : MmapCall :=
  { BootImage.sharedPage with
    addr := 0x60005000
    flags := mapShared ||| mapAnonymous ||| mapFixed }

open BootImage

/-- A process maps a private and a shared page, touches both and forks. -/
theorem fork_shares_two_pages :
    ∃ s ledger, Runs.runIf Machine.stepLedger (fun x op ↦ x.1.KeepsFrames op)
        [.mmap 0 anonymousPage, .mmap 0 fixedSharedPage, .load 0 mmapBase, .load 0 0x60005000]
        (idle 1 100, fun _ ↦ []) = some (s, ledger) ∧ (ledger 0).length = 2 ∧
      ∃ t, fork 0 s = (.ok (some 1), t) ∧ ∀ r ∈ ledger 0, ForkShares s 0 1 r t := by
  obtain ⟨⟨s, ledger⟩, hs, hrunnable, hlength, habsent, hframed, hmemory, hfork⟩ :
      ∃ x ∈ Runs.runIf Machine.stepLedger (fun x op ↦ x.1.KeepsFrames op)
        [.mmap 0 anonymousPage, .mmap 0 fixedSharedPage, .load 0 mmapBase, .load 0 0x60005000]
        (idle 1 100, fun _ ↦ []), (x.1.procs 0).state = .runnable ∧ (x.2 0).length = 2 ∧
        (∀ i < (x.1.procs 0).mmaps.total.toNat, absentFrom (x.1.pgdirs (x.1.procs 0).pgdir)
          ((x.1.procs 0).mmaps (i : ℕ)).region 0 = 0) ∧
        (∀ r ∈ (x.1.procs 0).mmaps.live, ∀ k < r.pageCount,
          pteAddr ((x.1.pgdirs (x.1.procs 0).pgdir).pte (r.page k)) ≠ 0) ∧
        66 + 2 * (((x.1.procs 0).sz.toNat + 4095) / 4096) +
          3 * pagesBelow (x.1.procs 0).mmaps (x.1.procs 0).mmaps.total.toNat <
            x.1.freelist.length ∧
        ((fork 0 x.1).1.toOption == some (some 1)) = true := by
    decide +kernel
  refine ⟨s, ledger, hs, hlength, _, eq_of_fork_result hfork, ?_⟩
  have hboot : (idle 1 100).Boot := boot (by decide)
  refine fork_shares hboot (Runs.reaches_of_runIf hs) hrunnable ⟨?_, ?_, hmemory⟩
    (eq_of_fork_result hfork)
  · intro i hi _
    exact Or.inl (habsent i hi)
  · intro r hr _ k hk hmaps
    exact hframed r hr k hk hmaps.2

/-- A shared region of two pages loses its first page after that has been touched: `stored_size` then
leaves nothing to load, and the child maps frame 0 for the other page. -/
theorem fork_shares_frame_zero :
    ∃ s₀ s t : Machine 2, ∃ ledger, s₀.Boot ∧
      Runs.Reaches Machine.stepLedger Runs.unguarded (s₀, fun _ ↦ []) (s, ledger) ∧
      fork 0 s = (.ok (some 1), t) ∧ ∃ r ∈ ledger 0, ¬ ForkShares s 0 1 r t := by
  obtain ⟨⟨s, ledger⟩, hs, hfork, r, hr, hshared, hcount, hzero⟩ :
      ∃ x ∈ Runs.run Machine.stepLedger [.mmap 0 { sharedPage with size := 2 * pgSize },
        .load 0 mmapBase, .munmap 0 mmapBase pgSize] (idle 1 100, fun _ ↦ []),
        ((fork 0 x.1).1.toOption == some (some 1)) = true ∧
        ∃ r ∈ x.2 0, r.flags.has mapShared = true ∧ 0 < r.pageCount ∧
          pteAddr (((fork 0 x.1).2.pgdirs ((fork 0 x.1).2.procs 1).pgdir).pte (r.page 0)) = 0 := by
    decide +kernel
  refine ⟨idle 1 100, s, (fork 0 s).2, ledger, boot (by decide),
    Runs.reaches_of_run hs, eq_of_fork_result hfork, r, hr, ?_⟩
  intro h
  obtain ⟨frame, huse, _, _, hchild⟩ := h.shared hshared 0 hcount
  apply huse.ne_zero
  rw [← hchild.2]
  exact hzero

end Xv6Mmap
