import Xv6Mmap.Machine.ForkPages
import Xv6Mmap.Machine.Ledger
import Xv6Mmap.Machine.WriteBackDeadlock

/-!
# Integrity of page-table entries

A protection word travels from `mmap` through the region table to `mappages`, where it is or-ed into
one word with the address of a frame.  In runs that keep frames safe and whose protection words have
no bits but the three that `PROT_NONE`, `PROT_READ` and `PROT_WRITE` use, every entry that a page
fault or a `fork` installs for a page of a region points to the frame that was taken for it, and
allows writing only if the region does.
-/

namespace Xv6Mmap

open Library Prog BitVec Machine List Function

variable {N : ℕ} {r : Region} {addr : Word}

/-! ## One entry -/

/-- A protection word without bits above `PTE_U`. -/
def Region.LowProtection (r : Region) : Prop := r.protection.toNat < 8

/-- Entry `pte` for a page of `r` points to `frame`, has no flags but `PTE_P`, `PTE_W` and `PTE_U`,
and allows writing only if `PROT_WRITE` was requested for `r`. -/
structure PteOk (r : Region) (frame pte : Word) : Prop where
  addr : pteAddr pte = frame
  flags : pteFlags pte &&& ~~~(pteP ||| pteW ||| pteU) = 0
  write : pte.has pteW = true → r.protection.has protWrite = true

theorem and_seven {perm : Word} (h : perm.toNat < 8) : perm &&& 7 = perm := by
  apply eq_of_toNat_eq
  rw [toNat_and, show (7 : Word).toNat = 2 ^ 3 - 1 from rfl, Nat.and_two_pow_sub_one_eq_mod]
  exact Nat.mod_eq_of_lt h

/-- The low bits of an aligned address are zero. -/
theorem aligned_and {frame mask : Word} (h : frame.toNat % 4096 = 0) (hmask : ~~~0xFFF &&& mask = 0) :
    frame &&& mask = 0 := by
  calc frame &&& mask = pteAddr frame &&& mask := by rw [pteAddr_of_aligned h]
    _ = frame &&& (~~~0xFFF &&& mask) := by rw [pteAddr, BitVec.and_assoc]
    _ = 0 := by
      rw [hmask]
      exact BitVec.and_zero

/-- **An entry built from a frame and a low protection word.** -/
theorem pteOk_entry {frame perm : Word} (haligned : frame.toNat % 4096 = 0) (hperm : perm.toNat < 8)
    (hwrite : perm.has pteW = true → r.protection.has protWrite = true) :
    PteOk r frame (frame ||| perm ||| pteP) where
  addr := pteAddr_entry haligned (by omega)
  flags := by
    have hmask : (0xFFF : Word) &&& ~~~(pteP ||| pteW ||| pteU) = 0xFF8 := by decide
    have hlow : perm &&& 0xFF8 = 0 := by
      calc perm &&& 0xFF8 = perm &&& 7 &&& 0xFF8 := by rw [and_seven hperm]
        _ = perm &&& (7 &&& 0xFF8) := BitVec.and_assoc _ _ _
        _ = 0 := BitVec.and_zero
    rw [pteFlags, BitVec.and_assoc, hmask, BitVec.and_or_distrib_right, BitVec.and_or_distrib_right,
      aligned_and haligned (by decide), hlow]
    decide
  write := by
    intro hentry
    apply hwrite
    rw [Word.has, BitVec.and_or_distrib_right, BitVec.and_or_distrib_right,
      aligned_and haligned (by decide), show pteP &&& pteW = 0 by decide] at hentry
    have hzero : (0 : Word) ||| perm &&& pteW ||| 0 = perm &&& pteW := by
      rw [BitVec.or_comm]
      exact BitVec.zero_or.trans BitVec.zero_or
    rw [hzero] at hentry
    exact hentry

/-! ## Page faults -/

namespace Kernel

open Machine

variable {s t u : Machine N} {p np : Fin N}

/-- A state in which `p` may take a page fault: its table is in order, its live regions are among
`regions`, and the structures that the fault handler works on are sound. -/
structure Serving (regions : List Region) (p : Fin N) (u : Machine N) : Prop where
  wellFormed : (u.procs p).mmaps.WellFormed
  live : ∀ r ∈ (u.procs p).mmaps.live, r ∈ regions
  tabled : (u.pgdirs (u.procs p).pgdir).Tabled
  free_ok : ∀ f ∈ u.freelist, f ≠ 0 ∧ f.toNat % 4096 = 0

/-- The entry that the fault handler picks for `addr` allows writing only if every live region that
the page belongs to does. -/
def FaultAgrees (u : Machine N) (p : Fin N) (addr : Word) : Prop :=
  ∀ i, faultEntry (u.procs p).mmaps addr = some i → ((u.procs p).mmaps i).protection.has pteW = true →
    ∀ r ∈ (u.procs p).mmaps.live, (∃ k < r.pageCount, r.page k = vpn addr) →
      r.protection.has protWrite = true

/-- The entry that the fault handler picks is a live one. -/
theorem faultEntry_live {T : RegionTable} {i : ℕ} (h : faultEntry T addr = some i) :
    (T i).region ∈ T.live := by
  have hmem := mem_of_find?_eq_some h
  exact mem_map.mpr ⟨i, hmem, rfl⟩

/-- What a page fault of `p` that leads from `u` to `t` may install for a page of region `r`: the
frame that `kalloc` returns in `u`. -/
def FaultInstalls (u : Machine N) (p : Fin N) (r : Region) (t : Machine N) : Prop :=
  ∀ k < r.pageCount,
    (t.pgdirs (u.procs p).pgdir).pte (r.page k) ≠ (u.pgdirs (u.procs p).pgdir).pte (r.page k) →
      ∃ frame, u.freelist.head? = some frame ∧
        PteOk r frame ((t.pgdirs (u.procs p).pgdir).pte (r.page k))

/-- **A page fault installs the frame that `kalloc` returned, with the flags of the region.** -/
theorem handlePageFault_installs {regions : List Region} (hserving : Serving regions p u)
    (hlow : ∀ r ∈ regions, r.LowProtection) (hbase : mmapBase ≤ addr)
    (hagrees : FaultAgrees u p addr) {outcome : Except Halt Unit}
    (hrun : handlePageFault p addr u = (outcome, t))
    (hr : r ∈ (u.procs p).mmaps.live) : FaultInstalls u p r t := by
  have hfaulted : Faulted u p addr t := by
    have hrule := handlePageFault_faulted (s := u) (p := p) hbase hserving.tabled u rfl
    rw [hrun] at hrule
    cases outcome with
    | ok _ | error _ => exact hrule
  intro k hk hchanged
  rcases hfaulted with hsame | ⟨i, frame, w, hentry, hinstalled, hdirs, _⟩
  · exact absurd (hsame _ _) hchanged
  · have hpage : r.page k = vpn addr := by
      by_contra hne
      apply hchanged
      rw [hdirs]
      apply hinstalled.others
      rw [vpn_pgRoundDown]
      exact .inr hne
    have hmem : frame ∈ u.freelist := mem_of_mem_head? (Option.mem_def.mpr hinstalled.taken)
    have hprotection : ((u.procs p).mmaps i).protection.toNat < 8 :=
      hlow _ (hserving.live _ (faultEntry_live hentry))
    refine ⟨frame, hinstalled.taken, ?_⟩
    rw [hdirs, hpage, ← vpn_pgRoundDown, hinstalled.entry]
    exact pteOk_entry (hserving.free_ok frame hmem).2 hprotection
      fun hwrite ↦ hagrees i hentry hwrite r hr ⟨k, hk, hpage⟩

/-! ## `fork` -/

/-- What a successful `fork` installs for the pages of region `r`: the parent gets frames taken from
the free list for absent shared pages; the child maps the parent's frame of a shared page, and a
frame taken for it for a private one. -/
structure ForkInstalls (s : Machine N) (p np : Fin N) (r : Region) (t : Machine N) : Prop where
  parent : ∀ k < r.pageCount,
    (t.pgdirs (s.procs p).pgdir).pte (r.page k) = (s.pgdirs (s.procs p).pgdir).pte (r.page k) ∨
      ∃ frame, Issued s t frame ∧ PteOk r frame ((t.pgdirs (s.procs p).pgdir).pte (r.page k))
  shared : r.flags.has mapShared = true → ∀ k < r.pageCount,
    (t.pgdirs (t.procs np).pgdir).pte (r.page k) = 0 ∨
      (pteAddr ((t.pgdirs (s.procs p).pgdir).pte (r.page k)) ≠ 0 ∧
        PteOk r (pteAddr ((t.pgdirs (s.procs p).pgdir).pte (r.page k)))
          ((t.pgdirs (t.procs np).pgdir).pte (r.page k)))
  separate : r.flags.has mapShared = false → ∀ k < r.pageCount,
    (t.pgdirs (t.procs np).pgdir).pte (r.page k) = 0 ∨
      ∃ frame, Issued s t frame ∧ PteOk r frame ((t.pgdirs (t.procs np).pgdir).pte (r.page k))

/-- After a successful `fork`, the parent has a frame for every shared page. -/
theorem CopiedPage.parent_frame {v : Vpn} {pd cd : Word} (h : CopiedPage s pd cd r v t)
    (hfree : ∀ f ∈ s.freelist, f ≠ 0 ∧ f.toNat % 4096 = 0) (hperm : r.protection.toNat < 4096)
    (hshared : r.flags.has mapShared = true) : pteAddr ((t.pgdirs pd).pte v) ≠ 0 := by
  by_cases habsent : pteAddr ((s.pgdirs pd).pte v) = 0
  · obtain ⟨frame, hissued, hentry⟩ := h.loaded hshared habsent
    obtain ⟨hne, haligned⟩ := hfree frame (mem_of_issued hissued)
    rw [hentry, pteAddr_entry haligned hperm]
    exact hne
  · rw [h.kept (.inl habsent)]
    exact habsent

theorem protWrite_of_pteW (h : r.protection.has pteW = true) :
    r.protection.has protWrite = true := h

theorem ForkCopied.installs (h : ForkCopied s p np t)
    (hfree : ∀ f ∈ s.freelist, f ≠ 0 ∧ f.toNat % 4096 = 0)
    (hr : r ∈ (s.procs p).mmaps.live) (hlow : r.LowProtection) : ForkInstalls s p np r t := by
  obtain ⟨i, hi, rfl⟩ := mem_map.mp hr
  have hi' := mem_range.mp hi
  have hentry {frame : Word} (hissued : Issued s t frame) :
      PteOk ((s.procs p).mmaps i).region frame
        (frame ||| ((s.procs p).mmaps i).region.protection ||| pteP) :=
    pteOk_entry (hfree frame (mem_of_issued hissued)).2 hlow protWrite_of_pteW
  have hlow' : ((s.procs p).mmaps i).region.protection.toNat < 4096 := Nat.lt_trans hlow (by decide)
  constructor
  case parent =>
    intro k hk
    have hpage := h.pages i k hi' hk
    by_cases hshared : ((s.procs p).mmaps i).region.flags.has mapShared = true
    · by_cases habsent : pteAddr ((s.pgdirs (s.procs p).pgdir).pte
          (((s.procs p).mmaps i).region.page k)) = 0
      · obtain ⟨frame, hissued, hequal⟩ := hpage.loaded hshared habsent
        refine .inr ⟨frame, hissued, ?_⟩
        rw [hequal]
        exact hentry hissued
      · exact .inl (hpage.kept (.inl habsent))
    · exact .inl (hpage.kept (.inr (by simpa using hshared)))
  case shared =>
    intro hshared k hk
    have hpage := h.pages i k hi' hk
    have hpresent := hpage.parent_frame hfree hlow' hshared
    refine (hpage.shared hshared).imp And.left fun hequal ↦ ⟨hpresent, ?_⟩
    rw [hequal]
    refine pteOk_entry ?_ hlow protWrite_of_pteW
    rw [toNat_pteAddr]
    omega
  case separate =>
    intro hprivate k hk
    have hpage := h.pages i k hi' hk
    by_cases habsent : pteAddr ((s.pgdirs (s.procs p).pgdir).pte
        (((s.procs p).mmaps i).region.page k)) = 0
    · exact .inl (hpage.absent hprivate habsent)
    · obtain ⟨frame, hissued, hequal, _⟩ := hpage.copied hprivate habsent
      refine .inr ⟨frame, hissued, ?_⟩
      rw [hequal]
      exact hentry hissued

end Kernel

/-! ## Runs -/

namespace Machine

open Kernel

variable {s t : Machine N} {ledger : Ledger N}

/-- What holds of a state and its ledger in every run that keeps frames safe. -/
structure Tracked (s : Machine N) (ledger : Ledger N) : Prop where
  safe : FrameSafe s
  recorded : s.Recorded ledger
  tabled : ∀ d, (s.pgdirs d).Tabled

theorem Boot.tracked (h : s.Boot) : s.Tracked fun _ ↦ [] where
  safe := h.frameSafe
  recorded := by
    intro p _
    have hempty := (RegionTable.wellFormed_of_total_eq_zero (h.tables p).total_eq_zero).2
    rw [hempty]
  tabled := h.tabled

theorem Tracked.step (h : s.Tracked ledger) {op : Op N} (hkeeps : s.KeepsFrames op)
    (hstep : s.step op = some t) : t.Tracked (op.record s ledger) where
  safe := h.safe.step hkeeps hstep
  recorded := h.recorded.step h.safe hkeeps hstep
  tabled d := (systemFrame_tabled d).rel_step hstep (h.tabled d)

/-- The protection word of a call of `mmap` that passes the checks on a table with room is one of
`PROT_NONE` and the combinations of the three low bits. -/
def LowRequest (s : Machine N) : Op N → Prop
  | .mmap p call => (call.args (s.files call.f)).valid = true → (s.procs p).mmaps.total < 30 →
      call.protection ≤ protNone
  | _ => True

/-- Every region of the ledger has a low protection word. -/
def LowLedger (ledger : Ledger N) : Prop :=
  ∀ q, ∀ r ∈ ledger q, r.LowProtection

/-- The condition on the next operation under which entries keep their integrity. -/
def KeepsEntries (x : Machine N × Ledger N) (op : Op N) : Prop :=
  x.1.KeepsFrames op ∧ x.1.LowRequest op

theorem stored_low {w : Word} (h : w ≤ protNone) :
    (if w = protNone then 0 else pteU ||| w).toNat < 8 := by
  split
  · decide
  · rename_i hne
    have hle : w.toNat ≤ 8 := h
    have hlt : w.toNat < 2 ^ 3 := by
      have hdiff : w.toNat ≠ 8 := fun hequal ↦ hne (eq_of_toNat_eq hequal)
      omega
    rw [toNat_or]
    exact Nat.or_lt_two_pow (n := 3) (by decide) hlt

/-- A region that is unmapped in part keeps its protection. -/
theorem protection_of_unmap {size : Word} {r' : Region} (h : r.unmap addr size = some r') :
    r'.protection = r.protection := by
  rw [Region.unmap] at h
  split at h
  · split at h
    · cases h
    · cases h
      rfl
  · cases h
    rfl

/-- A call that has created a region passed the checks on a table with room. -/
theorem valid_of_myMmap {T : RegionTable} {a : MmapArgs} (hwell : T.WellFormed)
    (h : (T.myMmap a).2 ≠ -1) : a.valid = true ∧ T.total < 30 := by
  rw [RegionTable.myMmap] at h
  by_cases hvalid : a.valid = true
  · rw [hvalid] at h
    by_cases hfull : T.totalMmaps = 30
    · rw [if_neg (by decide), if_pos hfull] at h
      exact absurd rfl h
    · refine ⟨hvalid, lt_of_le_of_ne hwell.total_le fun hequal ↦ hfull ?_⟩
      exact eq_of_toInt_eq hequal
  · rw [Bool.not_eq_true] at hvalid
    rw [hvalid, if_pos (by decide)] at h
    exact absurd rfl h

/-- **The protection words of the ledger stay low.** -/
theorem Tracked.low_step (h : s.Tracked ledger) (hlow : LowLedger ledger) {op : Op N}
    (hrequest : s.LowRequest op) (hstep : s.step op = some t) : LowLedger (op.record s ledger) := by
  have hupdate (p : Fin N) (regions : List Region) (hregions : ∀ r ∈ regions, r.LowProtection) :
      LowLedger (Function.update ledger p regions) := by
    intro q r hr
    by_cases hq : q = p
    · rw [hq, update_self] at hr
      exact hregions r hr
    · rw [update_of_ne hq] at hr
      exact hlow q r hr
  have hrunnable := (step_cases hstep).1
  cases op with
  | load p addr | store p addr b | wait p => exact hlow
  | exit p => exact hupdate p [] fun _ hr ↦ absurd hr not_mem_nil
  | exec p image =>
    rw [Op.record]
    split
    · exact hupdate p [] fun _ hr ↦ absurd hr not_mem_nil
    · exact hlow
  | fork p =>
    rw [Op.record]
    split
    · exact hupdate _ _ (hlow p)
    · exact hlow
  | munmap p addr size =>
    rw [Op.record]
    split
    · apply hupdate
      intro r hr
      rw [RegionCall.record] at hr
      split at hr
      · exact hlow p r hr
      · obtain ⟨r', hr', hunmap⟩ := mem_filterMap.mp hr
        rw [Region.LowProtection, protection_of_unmap hunmap]
        exact hlow p r' hr'
    · exact hlow
  | mmap p call =>
    rw [Op.record]
    split
    · rename_i r u hcall
      apply hupdate
      intro region hregion
      rw [RegionCall.record] at hregion
      split at hregion
      · exact hlow p region hregion
      · rename_i hsuccess
        rcases mem_cons.mp hregion with rfl | hold
        · have hresult : ((s.procs p).mmaps.myMmap (call.args (s.files call.f))).2 = r := by
            cases hcall
            rfl
          have hwell := (h.safe.fit p hrunnable).1.1
          obtain ⟨hvalid, hroom⟩ := valid_of_myMmap hwell (hresult ▸ hsuccess)
          exact stored_low (hrequest hvalid hroom)
        · exact hlow p region hold
    · exact hlow

theorem Tracked.serving (h : s.Tracked ledger) {p : Fin N}
    (hp : (s.procs p).state = .runnable) : Serving (ledger p) p s where
  wellFormed := (h.safe.fit p hp).1.1
  live _ hr := (h.recorded p hp).subset hr
  tabled := h.tabled _
  free_ok := h.safe.sound.free_ok

/-- **A write-back takes its page faults in such states.** -/
theorem Tracked.serving_copies (h : s.Tracked ledger) {p : Fin N}
    (hp : (s.procs p).state = .runnable) {busy : Machine N → Bool} {mr : MmapRegion} {j : ℕ}
    (hcopies : Copies busy s p mr j t) : Serving (ledger p) p t := by
  have hserving := h.serving hp
  have hrel := hcopies.of_respects ioFrame_procFrame.toOffsetFrame fun _ _ ↦
    respects_loadKernel (pagingFrame_procFrame p) _
  obtain ⟨hwell, hlive⟩ := RegionTable.wellFormed_congr (fun i ↦ region_of_procFrame hrel p i)
    hserving.wellFormed
  have hguarded : Guarded p noPages s.liveDirs ∅ t := by
    refine hcopies.of_respects guarded_ioFrame.toOffsetFrame
      (fun _ _ ↦ (keeps_loadKernel _).respects) ⟨h.safe.sound, ?_, (h.safe.fit p hp).1.2⟩
    exact mem_liveDirs (live_of_runnable hp)
  refine ⟨hwell, fun r hr ↦ hserving.live r (hlive ▸ hr), ?_, hguarded.1.free_ok⟩
  have hframe := systemFrame_tabled (N := N) (t.procs p).pgdir
  exact hcopies.of_respects hframe.toIoFrame.toOffsetFrame
    (fun _ _ ↦ respects_loadKernel (hframe.paging p) _) (h.tabled _)

end Machine

open Kernel in
/-- **Integrity of entries.**  In every run from boot whose operations all meet the condition, for
every process that can run: its live regions are those of the ledger, and every page fault on them,
in this state or in one in which a write-back comes to copy a byte, and every successful `fork`
installs only entries that point to the frame taken for the page (or shared with the parent) and
carry the flags of the region. -/
theorem pte_integrity {s₀ s : Machine N} {ledger : Ledger N} (hboot : s₀.Boot)
    (hrun : Runs.Reaches Machine.stepLedger Machine.KeepsEntries (s₀, fun _ ↦ []) (s, ledger))
    {p : Fin N} (hp : (s.procs p).state = .runnable) :
    (s.procs p).mmaps.live.Perm (ledger p) ∧ Serving (ledger p) p s ∧
      (∀ busy mr j u, Copies busy s p mr j u → Serving (ledger p) p u) ∧
      (∀ u, Serving (ledger p) p u → ∀ addr, mmapBase ≤ addr → FaultAgrees u p addr →
        ∀ outcome t, handlePageFault p addr u = (outcome, t) →
          ∀ r ∈ (u.procs p).mmaps.live, FaultInstalls u p r t) ∧
      (ForkLoads s p → ∀ np t, fork p s = (.ok (some np), t) →
        ∀ r ∈ ledger p, ForkInstalls s p np r t) := by
  have hinvariant : s.Tracked ledger ∧ LowLedger ledger := by
    refine hrun.invariant (I := fun x ↦ x.1.Tracked x.2 ∧ LowLedger x.2)
      ⟨hboot.tracked, fun _ _ hr ↦ absurd hr List.not_mem_nil⟩ ?_
    intro x op y hx hguard hstep
    obtain ⟨t, hnext, rfl⟩ := Option.map_eq_some_iff.mp hstep
    exact ⟨hx.1.step hguard.1 hnext, hx.1.low_step hx.2 hguard.2 hnext⟩
  obtain ⟨htracked, hlow⟩ := hinvariant
  have hlive := htracked.recorded p hp
  refine ⟨hlive, htracked.serving hp, fun _ _ _ _ ↦ htracked.serving_copies hp, ?_, ?_⟩
  · intro u hserving addr hbase hagrees outcome t hfault r hr
    exact handlePageFault_installs hserving (hlow p) hbase hagrees hfault hr
  · intro hloads np t hfork r hr
    have hcopied := fork_copied htracked.safe htracked.tabled hp hloads hfork
    exact hcopied.installs htracked.safe.sound.free_ok (hlive.symm.subset hr) (hlow p r hr)

open BootImage Kernel in
/-- A process maps a private page, touches it and forks. -/
theorem pte_integrity_first :
    ∃ s₁ ledger s₂, Machine.stepLedger (idle 1 100, fun _ ↦ []) (.mmap 0 anonymousPage) =
        some (s₁, ledger) ∧ Machine.stepLedger (s₁, ledger) (.load 0 mmapBase) = some (s₂, ledger) ∧
      (∀ r ∈ ledger 0, FaultInstalls s₁ 0 r (handlePageFault 0 mmapBase s₁).2) ∧
      ∃ t, fork 0 s₂ = (.ok (some 1), t) ∧ ∀ r ∈ ledger 0, ForkInstalls s₂ 0 1 r t := by
  obtain ⟨⟨s₁, ledger⟩, hmmap, hrunnable, hwrite, ⟨s₂, ledger'⟩, hload, hrunnable', hprivate,
      hfork⟩ :
      ∃ x ∈ stepLedger (idle 1 100, fun _ ↦ []) (.mmap 0 anonymousPage),
        (x.1.procs 0).state = .runnable ∧
        (∀ r ∈ (x.1.procs 0).mmaps.live, r.protection.has protWrite = true) ∧
        ∃ y ∈ stepLedger x (.load 0 mmapBase), (y.1.procs 0).state = .runnable ∧
          (∀ r ∈ (y.1.procs 0).mmaps.live, r.flags.has mapShared = false) ∧
          ((fork 0 y.1).1.toOption == some (some 1)) = true := by
    decide +kernel
  obtain rfl : ledger = ledger' := by
    obtain ⟨u, -, hu⟩ := Option.map_eq_some_iff.mp hload
    exact congrArg Prod.snd hu
  have hboot : (idle 1 100).Boot := boot (by decide)
  have hfirst : Runs.Reaches stepLedger KeepsEntries (idle 1 100, fun _ ↦ []) (s₁, ledger) := by
    refine Relation.ReflTransGen.single ⟨.mmap 0 anonymousPage, ⟨?_, ?_⟩, hmmap⟩
    · decide
    · exact fun _ _ ↦ by decide
  have hsecond := hfirst.tail ⟨.load 0 mmapBase, ⟨trivial, trivial⟩, hload⟩
  obtain ⟨hlive, hserving, -, hfault, -⟩ := pte_integrity hboot hfirst hrunnable
  obtain ⟨-, -, -, -, hforked⟩ := pte_integrity hboot hsecond hrunnable'
  refine ⟨s₁, ledger, s₂, hmmap, hload, fun r hr ↦ ?_, _, eq_of_fork_result hfork,
    hforked (fun i hi hshared ↦ ?_) 1 _ (eq_of_fork_result hfork)⟩
  · exact hfault s₁ hserving mmapBase (BitVec.le_refl _) (fun _ _ _ r hr _ ↦ hwrite r hr) _ _ rfl r
      (hlive.symm.subset hr)
  · have hnot : ((s₂.procs 0).mmaps i).flags.has mapShared = false :=
      hprivate _ (mem_map.mpr ⟨i, mem_range.mpr hi, rfl⟩)
    rw [hnot] at hshared
    cases hshared

open BootImage Kernel in
/-- A protection word with a bit above the flag bits: the entry that the page fault installs points
to another frame than the one that `kalloc` returned. -/
theorem pte_of_wide_protection :
    ∃ s₀ s : Machine 2, ∃ ledger, s₀.Boot ∧
      Runs.Reaches Machine.stepLedger Runs.unguarded (s₀, fun _ ↦ []) (s, ledger) ∧
      ∃ r ∈ ledger 0, ∃ t, handlePageFault 0 r.virtAddr s = (.ok (), t) ∧
        ¬ FaultInstalls s 0 r t := by
  obtain ⟨⟨s, ledger⟩, hs, r, hr, hok, hcount, hchanged, hother⟩ :
      ∃ x ∈ Runs.run stepLedger [.mmap 0 { anonymousPage with protection := 0x1003 }]
        (idle 1 100, fun _ ↦ []), ∃ r ∈ x.2 0,
        (handlePageFault 0 r.virtAddr x.1).1.toBool = true ∧ 0 < r.pageCount ∧
          (((handlePageFault 0 r.virtAddr x.1).2.pgdirs (x.1.procs 0).pgdir).pte (r.page 0)) ≠
            (x.1.pgdirs (x.1.procs 0).pgdir).pte (r.page 0) ∧
          x.1.freelist.head? ≠ some (pteAddr
            (((handlePageFault 0 r.virtAddr x.1).2.pgdirs (x.1.procs 0).pgdir).pte (r.page 0))) := by
    decide +kernel
  refine ⟨idle 1 100, s, ledger, boot (by decide), Runs.reaches_of_run hs, r, hr,
    (handlePageFault 0 r.virtAddr s).2, ?_, ?_⟩
  · exact eq_ok_of_toBool hok
  · intro hinstalls
    obtain ⟨frame, hhead, hpte⟩ := hinstalls 0 hcount hchanged
    rw [hpte.addr] at hother
    exact hother hhead

end Xv6Mmap
