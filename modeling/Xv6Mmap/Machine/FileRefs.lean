import Xv6Mmap.Machine.Descriptors
import Xv6Mmap.Region.Books

/-!
# References to mapped files

`sys_mmap` takes a reference on its file and no call gives it back.  So along every run in which the
region tables stay in order and no count passes the largest `int`, the file behind a live region is
open; and once all descriptors of a file are closed, the file is free again exactly if no `mmap` has
been made on it.
-/

namespace Xv6Mmap

open Function Library Prog Machine RegionTable Runs Proc RegionCall SlotsKept List Set

variable {N : ℕ} {addr : Word}

/-- A region is anonymous, or `sys_mmap` has taken a reference on its file. -/
def Region.Vouched (leaks : Word → ℕ) (r : Region) : Prop :=
  r.flags.has mapAnonymous = true ∨ r.f ≠ 0 ∧ 0 < leaks r.f

theorem Region.Vouched.unmap {leaks : Word → ℕ} {r r' : Region} {size : Word}
    (h : r.Vouched leaks) (hr : r.unmap addr size = some r') : r'.Vouched leaks := by
  rw [Region.unmap] at hr
  split at hr
  · split at hr
    · cases hr
    · cases hr
      exact h
  · cases hr
    exact h

namespace RegionTable

/-- The live entries are in order, and each is vouched for. -/
def Vouched (leaks : Word → ℕ) (t : RegionTable) : Prop :=
  t.WellFormed ∧ ∀ r ∈ t.live, r.Vouched leaks

variable {leaks leaks' : Word → ℕ} {t t' : RegionTable} {i : ℕ} {size : Word}

theorem Vouched.of_live (h : t.Vouched leaks) (htotal : t'.total = t.total)
    (hlive : t'.live = t.live) : t'.Vouched leaks := by
  obtain ⟨⟨hnonneg, hle, hplaced, hlaid⟩, hvouched⟩ := h
  rw [← htotal] at hnonneg hle
  rw [← hlive] at hplaced hlaid hvouched
  exact ⟨⟨hnonneg, hle, hplaced, hlaid⟩, hvouched⟩

theorem Vouched.congr (h : t.Vouched leaks) (hregion : ∀ k : ℕ, (t' k).region = (t k).region) :
    t'.Vouched leaks :=
  h.of_live (live_congr hregion).1 (live_congr hregion).2

theorem vouched_of_total_eq_zero (h : t.total = 0) : t.Vouched leaks := by
  obtain ⟨hwell, hlive⟩ := wellFormed_of_total_eq_zero h
  refine ⟨hwell, ?_⟩
  rw [hlive]
  exact fun r hr ↦ absurd hr not_mem_nil

theorem Vouched.mono (h : t.Vouched leaks) (hle : ∀ f, leaks f ≤ leaks' f) : t.Vouched leaks' :=
  ⟨h.1, fun r hr ↦ (h.2 r hr).imp_right fun hf ↦ ⟨hf.1, hf.2.trans_le (hle r.f)⟩⟩

theorem Vouched.dropEntry (h : t.Vouched leaks) (hi : i < t.total.toNat)
    (hsize : size.toNat % 4096 = 0) : (t.dropEntry i size).Vouched leaks := by
  refine ⟨dropEntry_wellFormed h.1 hi hsize, ?_⟩
  rw [dropEntry_live h.1 hi]
  intro r' hr'
  obtain ⟨r, hr, hunmap⟩ := mem_filterMap.mp hr'
  exact (h.2 r hr).unmap hunmap

theorem Vouched.myMmap {a : MmapArgs} (h : t.Vouched leaks)
    (hadmissible : a.valid = true → t.total < 30 → a.Admissible t)
    (hnew : ∀ va, (a.region va).Vouched leaks) : (t.myMmap a).1.Vouched leaks := by
  rcases myMmap_cases h.1 hadmissible with
    hfail | ⟨t', va, k, hplace, hvalid, hroom, hfits, hinserted⟩
  · rw [hfail]
    exact h
  · rw [hplace]
    refine ⟨hinserted.wellFormed h.1 hroom hfits (MmapArgs.size_toNat_pos hvalid), ?_⟩
    rw [hinserted.live_eq h.1.total_nonneg hroom hfits.index_le]
    intro r hr
    rcases mem_append.mp hr with hr | hr
    · exact h.2 r (mem_of_mem_take hr)
    · rcases mem_cons.mp hr with rfl | hr
      · exact hnew va
      · exact h.2 r (mem_of_mem_drop hr)

end RegionTable

namespace Kernel

variable {s t : Machine N} {p np : Fin N} {leaks : Word → ℕ}

/-! ## Unmapping -/

/-- A `my_munmap` that does not return has not touched the table. -/
theorem myMunmap_halted (s : Machine N) (p : Fin N) (addr size : Word) :
    Triple (· = s) (myMunmap p addr size) (fun _ _ ↦ True) fun _ t ↦ procFrame.rel s t := by
  have hframe := pagingFrame_procFrame p
  refine .get_at ?_
  dsimp only
  split
  · exact .pure fun _ _ ↦ trivial
  · split
    · exact .pure fun _ _ ↦ trivial
    · have hwrite (mr : MmapRegion) := Triple.of_frame
        (respects_writeBack ioFrame_procFrame.toOffsetFrame (respects_loadKernel hframe) mr) s
      refine .bind (hwrite _) fun written ↦ ?_
      split
      · have hfree (a : Word) (n : ℕ) := Triple.of_respects
          (respects_since (respects_freeRange hframe (s.procs p).pgdir a n) s)
        refine .bind (hfree _ _) fun _ ↦ ?_
        exact .modify_bind fun _ _ ↦ .pure fun _ _ ↦ trivial
      · exact .pure fun _ _ ↦ trivial

/-- The entry that `my_munmap` finds for `addr` is a live one. -/
def FindsLive (t : RegionTable) (addr : Word) : Prop :=
  ∀ i, t.findEntry (pgRoundUp addr) = some i → (t i).size ≠ 0 → i < t.total.toNat

theorem myMunmap_vouched (h : (s.procs p).mmaps.Vouched leaks)
    (hlive : FindsLive (s.procs p).mmaps addr) (size : Word) :
    Triple (· = s) (myMunmap p addr size) (fun _ t ↦ (t.procs p).mmaps.Vouched leaks)
      fun _ t ↦ (t.procs p).mmaps.Vouched leaks := by
  have hkept {t : Machine N} (hrel : procFrame.rel s t) : (t.procs p).mmaps.Vouched leaks :=
    h.congr fun k ↦ region_of_procFrame hrel p k
  refine ((Triple.ran s).both (myMunmap_halted s p addr size)).post (fun r v hv ↦ ?_)
    fun _ _ hv ↦ hkept hv.2
  rcases myMunmap_cases hv.1 with ⟨_, hrel⟩ | ⟨i, w, _, hfound, hsize, hrel, rfl⟩
  · exact hkept hrel
  · have htotal := (live_congr fun k ↦ region_of_procFrame hrel p k).1
    simp only [update_self]
    exact (hkept hrel).dropEntry (htotal ▸ hlive i hfound hsize) (pgRoundUp_mod size)

/-- `my_munmap` on the start and size of a live entry takes out at most that entry. -/
theorem myMunmap_total (hwell : (s.procs p).mmaps.WellFormed) {n : ℕ}
    (hn : n < (s.procs p).mmaps.total.toNat) {r : Word}
    (hrun : myMunmap p ((s.procs p).mmaps n).virtAddr ((s.procs p).mmaps n).size s = (.ok r, t)) :
    n ≤ (t.procs p).mmaps.total.toNat := by
  have hplaced := hwell.placed_at hn
  have hfound : (s.procs p).mmaps.findEntry (pgRoundUp ((s.procs p).mmaps n).virtAddr) =
      some n := by
    rw [show pgRoundUp ((s.procs p).mmaps n).virtAddr = ((s.procs p).mmaps n).virtAddr from
      hplaced.within.pgRoundUp_virtAddr]
    exact hwell.findEntry_live hn
  rcases myMunmap_cases hrun with ⟨_, hrel⟩ | ⟨i, u, _, hi, _, hrel, rfl⟩
  · rw [(live_congr fun k ↦ region_of_procFrame hrel p k).1]
    exact hn.le
  · obtain rfl : n = i := Option.mem_unique hfound hi
    have hregion (k : ℕ) := region_of_procFrame hrel p k
    have htotal := (live_congr hregion).1
    have hwhole : ((u.procs p).mmaps n).size ≤ pgRoundUp ((s.procs p).mmaps n).size := by
      rw [show ((u.procs p).mmaps n).size = ((s.procs p).mmaps n).size from
        congrArg Region.size (hregion n)]
      exact hplaced.size_le_pgRoundUp
    have hdrop := (dropEntry_live_of_le
      (wellFormed_congr hregion hwell).1 (htotal ▸ hn) hwhole).1
    simp only [update_self]
    omega

theorem deleteFrom_vouched (p : Fin N) (n : ℕ) :
    Triple (fun t : Machine N ↦ (t.procs p).mmaps.Vouched leaks ∧ n ≤ (t.procs p).mmaps.total.toNat)
      (deleteFrom p n) (fun _ t ↦ (t.procs p).mmaps.Vouched leaks)
      fun _ t ↦ (t.procs p).mmaps.Vouched leaks := by
  induction n with
  | zero => exact .pure fun t ht ↦ ht.1
  | succ n ih =>
    refine .get_bind fun s hs ↦ ?_
    obtain ⟨hvouched, hn⟩ := hs
    dsimp only
    split
    · have hlive : FindsLive (s.procs p).mmaps ((s.procs p).mmaps n).virtAddr := by
        intro i hi _
        rw [show pgRoundUp ((s.procs p).mmaps n).virtAddr = ((s.procs p).mmaps n).virtAddr from
          (hvouched.1.placed_at hn).within.pgRoundUp_virtAddr, hvouched.1.findEntry_live hn] at hi
        obtain rfl : n = i := Option.some.inj hi
        exact hn
      refine ((myMunmap_vouched hvouched hlive _).both (.ran s)).seq (fun _ _ ht ↦ ht.1) fun r ↦ ?_
      exact ih.pre fun v hv ↦ ⟨hv.1, myMunmap_total hvouched.1 hn hv.2⟩
    · exact ih.at_state ⟨hvouched, (Nat.le_succ n).trans hn⟩

theorem deleteMmaps_vouched (p : Fin N) :
    Triple (fun t : Machine N ↦ (t.procs p).mmaps.Vouched leaks) (deleteMmaps p)
      (fun _ t ↦ (t.procs p).mmaps.totalMmaps = 0) fun _ t ↦ (t.procs p).mmaps.Vouched leaks := by
  refine .get_bind fun s hs ↦ ?_
  refine .bind ((deleteFrom_vouched p _).at_state ⟨hs, le_rfl⟩) fun _ ↦ .modify ?_
  intro t _
  simp only [update_self]
  exact totalMmaps_setTotal _ 0

/-! ## What leaves references and descriptors alone -/

theorem pagingFrame_handlesFrame (p : Fin N) : PagingFrame handlesFrame p where
  mem _ _ := rfl
  pagecache _ _ _ := rfl
  freelist _ _ := rfl
  reset _ _ := rfl
  table _ _ _ _ := rfl
  entry _ _ _ _ _ := rfl
  killed s := handlesFrame_setProc s rfl
  storedSize s _ _ := handlesFrame_setProc s rfl

theorem unmapFrame_handlesFrame (p : Fin N) : UnmapFrame handlesFrame p :=
  { pagingFrame_handlesFrame p with
    inodes := fun _ _ ↦ rfl
    held := fun _ _ ↦ rfl
    offset := fun s _ _ ↦ handlesFrame_setFile s rfl
    mmaps := fun s _ ↦ handlesFrame_setProc s rfl }

theorem slotFrame_handlesFrame : SlotFrame (handlesFrame (N := N)) :=
  ⟨pagingFrame_handlesFrame, fun _ _ ↦ rfl, fun s _ _ hofile _ ↦ handlesFrame_setProc s hofile⟩

theorem respects_exec_handles (p : Fin N) (image : ExecImage) :
    Respects handlesFrame (exec p image) :=
  (unmapFrame_handlesFrame p).respects_exec (fun s _ _ ↦ handlesFrame_setProc s rfl) image

/-- The processes other than `p`. -/
def othersFrame (p : Fin N) : Frame (Machine N) := Frame.ofEq fun s (q : { q // q ≠ p }) ↦ s.procs q

theorem othersFrame_setProc (s : Machine N) (p : Fin N) (proc : Proc N) :
    (othersFrame p).rel s { s with procs := update s.procs p proc } :=
  funext fun q ↦ update_of_ne q.2 _ _

theorem proc_of_othersFrame (h : (othersFrame p).rel s t) {q : Fin N} (hq : q ≠ p) :
    t.procs q = s.procs q :=
  congrFun h ⟨q, hq⟩

theorem handleFrame_othersFrame (p : Fin N) : HandleFrame (othersFrame p) p :=
  ⟨fun _ _ _ _ ↦ rfl, fun s _ ↦ othersFrame_setProc s p _⟩

end Kernel

/-! ## The invariant -/

/-- The table of a process is vouched for, and a slot without a process has no live region and no
descriptor. -/
structure Proc.Attested (leaks : Word → ℕ) (proc : Proc N) : Prop where
  vouched : proc.mmaps.Vouched leaks
  idle : proc.state ≠ .runnable → proc.state ≠ .sleeping →
    proc.mmaps.totalMmaps = 0 ∧ ∀ fd, proc.ofile fd = 0

/-- The books are balanced and every table is vouched for. -/
structure Machine.Audited (leaks : Word → ℕ) (s : Machine N) : Prop where
  balanced : s.Balanced leaks
  attested : ∀ q, (s.procs q).Attested leaks

section Audited

variable {leaks leaks' : Word → ℕ} {proc proc' : Proc N} {s t : Machine N} {p : Fin N}

theorem Proc.totalMmaps_of_slot (h : proc'.slot = proc.slot) :
    proc'.mmaps.totalMmaps = proc.mmaps.totalMmaps :=
  congrArg Region.virtAddr (region_of_slot h 30)

theorem Proc.Attested.of_slot (h : proc.Attested leaks) (hslot : proc'.slot = proc.slot)
    (hofile : proc'.ofile = proc.ofile) : proc'.Attested leaks where
  vouched := h.vouched.congr fun k ↦ region_of_slot hslot k
  idle hrunnable hsleeping := by
    rw [state_of_slot hslot] at hrunnable hsleeping
    rw [totalMmaps_of_slot hslot, hofile]
    exact h.idle hrunnable hsleeping

theorem Proc.attested_of_runnable (h : proc.mmaps.Vouched leaks) (hstate : proc.state = .runnable) :
    proc.Attested leaks :=
  ⟨h, fun hne _ ↦ absurd hstate hne⟩

theorem Proc.attested_of_empty (htotal : proc.mmaps.totalMmaps = 0)
    (hofile : ∀ fd, proc.ofile fd = 0) : proc.Attested leaks :=
  ⟨vouched_of_total_eq_zero ((total_eq_zero_iff _).mp htotal),
    fun _ _ ↦ ⟨htotal, hofile⟩⟩

theorem Machine.Audited.of_slots (h : s.Audited leaks) {A : Set (Fin N)}
    (hhandles : handlesFrame.rel s t) (hkept : s.SlotsKept A t)
    (hA : ∀ q ∈ A, (t.procs q).Attested leaks) : t.Audited leaks where
  balanced := h.balanced.of_handlesFrame hhandles
  attested q := by
    by_cases hq : q ∈ A
    · exact hA q hq
    · exact (h.attested q).of_slot (hkept q hq) (ofile_of_handlesFrame hhandles q)

/-- A process that goes to sleep keeps its table and its descriptors. -/
theorem Machine.Audited.asleep (hbalanced : t.Balanced leaks)
    (hothers : ∀ q, q ≠ p → (t.procs q).Attested leaks)
    (hp : (t.procs p).mmaps.Vouched leaks) : (t.asleep p).Audited leaks where
  balanced := hbalanced.of_handlesFrame (handlesFrame_setProc t rfl)
  attested q := by
    by_cases hq : q = p
    · subst hq
      simp only [Machine.asleep, update_self]
      exact ⟨hp, fun _ hne ↦ absurd rfl hne⟩
    · simp only [Machine.asleep, update_of_ne hq]
      exact hothers q hq

/-- How a call of `p` ends: it returns with the books in order, or leaves them in order when its
process goes to sleep. -/
def Audits (leaks : Word → ℕ) (s : Machine N) (p : Fin N) {α : Type} (c : Kernel N α) : Prop :=
  Triple (· = s) c (fun _ t ↦ t.Audited leaks)
    fun e t ↦ e.sleeps = true → (t.asleep p).Audited leaks

theorem Machine.Audited.sleep (h : t.Audited leaks) (p : Fin N) : (t.asleep p).Audited leaks :=
  .asleep h.balanced (fun q _ ↦ h.attested q) (h.attested p).vouched

theorem Machine.Audited.asleep_of_slots (h : s.Audited leaks) (hhandles : handlesFrame.rel s t)
    (hkept : s.SlotsKept {p} t) (hp : (t.procs p).mmaps.Vouched leaks) :
    (t.asleep p).Audited leaks :=
  .asleep (h.balanced.of_handlesFrame hhandles)
    (fun q hq ↦ (h.attested q).of_slot (hkept q hq) (ofile_of_handlesFrame hhandles q)) hp

end Audited

namespace Kernel

variable {s t : Machine N} {p : Fin N} {leaks : Word → ℕ}

theorem audits_of_frames {α : Type} {c : Kernel N α} (h : s.Audited leaks)
    (hprocs : Respects procFrame c) (hhandles : Respects handlesFrame c) : Audits leaks s p c := by
  have hkept (t : Machine N) (hrel : procFrame.rel s t) (hsame : handlesFrame.rel s t) :
      t.Audited leaks :=
    h.of_slots hsame (of_procFrame hrel ∅) fun q hq ↦ absurd hq (notMem_empty q)
  exact ((Triple.of_frame hprocs s).both (Triple.of_frame hhandles s)).post
    (fun _ t ht ↦ hkept t ht.1 ht.2) fun _ t ht _ ↦ (hkept t ht.1 ht.2).sleep p

theorem audits_load (h : s.Audited leaks) (addr : Word) : Audits leaks s p (load p addr) :=
  audits_of_frames h (respects_load (pagingFrame_procFrame p) addr)
    (respects_load (pagingFrame_handlesFrame p) addr)

theorem audits_store (h : s.Audited leaks) (addr : Word) (b : Byte) :
    Audits leaks s p (store p addr b) :=
  audits_of_frames h (respects_store (pagingFrame_procFrame p) addr b)
    (respects_store (pagingFrame_handlesFrame p) addr b)

theorem audits_myMunmap (h : s.Audited leaks) (hp : (s.procs p).state = .runnable)
    (hlive : FindsLive (s.procs p).mmaps addr) (size : Word) :
    Audits leaks s p (myMunmap p addr size) := by
  have hframes := (Triple.of_frame ((unmapFrame_tableFrame p).respects_myMunmap addr size) s).and
    (.of_frame ((unmapFrame_handlesFrame p).respects_myMunmap addr size) s)
  refine (hframes.and (myMunmap_vouched (h.attested p).vouched hlive size)).weaken
    (fun _ ht ↦ ⟨⟨ht, ht⟩, ht⟩) ?_ ?_
  · rintro r t ⟨⟨htable, hhandles⟩, hvouched⟩
    refine h.of_slots hhandles (of_tableFrame htable) ?_
    rintro q rfl
    exact attested_of_runnable hvouched ((state_of_tableFrame htable q).trans hp)
  · rintro e t ⟨⟨htable, hhandles⟩, hvouched⟩ _
    exact h.asleep_of_slots hhandles (of_tableFrame htable) hvouched

/-! ## `exec`, `exit` and `wait` -/

theorem exec_vouched (h : (s.procs p).mmaps.Vouched leaks) (image : ExecImage) :
    Triple (· = s) (exec p image) (fun _ t ↦ (t.procs p).mmaps.Vouched leaks)
      fun e t ↦ e.sleeps = true → (t.procs p).mmaps.Vouched leaks := by
  refine exec_rule (D := fun _ _ t ↦ (t.procs p).mmaps.Vouched leaks)
    (nofun) (fun t ht ↦ ht.procs ▸ h) (fun d sz u _ _ hu ↦ ?_)
    fun d sz t ht ↦ ?_
  · exact ((deleteMmaps_vouched p).at_state (hu.procs_eq ▸ h)).post (fun _ v hv ↦
      vouched_of_total_eq_zero ((total_eq_zero_iff _).mp hv)) fun _ _ hv _ ↦ hv
  · refine neverStuck_freevm.awake ((Triple.of_frame
      (respects_freevm (pagingFrame_procFrame p) _) _).post (fun _ u hu ↦ ?_) fun _ _ ↦ id)
    refine ht.congr fun k ↦ (region_of_procFrame hu p k).trans ?_
    simp only [update_self]

theorem audits_exec (h : s.Audited leaks) (hp : (s.procs p).state = .runnable)
    (image : ExecImage) : Audits leaks s p (exec p image) := by
  have hframes := (exec_slots s p image).and (.of_frame (respects_exec_handles p image) s)
  refine (hframes.and (exec_vouched (h.attested p).vouched image)).weaken
    (fun _ ht ↦ ⟨⟨ht, ht⟩, ht⟩) ?_ ?_
  · grind [h.of_slots, attested_of_runnable]
  · rintro e t ⟨⟨hkept, hhandles⟩, hvouched⟩ hstuck
    exact h.asleep_of_slots hhandles (hkept hstuck) (hvouched hstuck)

theorem exit_handles (h : s.Audited leaks) :
    Triple (· = s) (exit p)
      (fun _ t ↦ t.Balanced leaks ∧ (∀ q, q ≠ p → (t.procs q).ofile = (s.procs q).ofile) ∧
        ∀ fd, (t.procs p).ofile fd = 0)
      fun e t ↦ e.sleeps = true → t.Balanced leaks ∧
        (∀ q, q ≠ p → (t.procs q).ofile = (s.procs q).ofile) ∧ (t.procs p).mmaps.Vouched leaks := by
  -- The descriptors of `p` are closed first, and nothing happens to them after that.
  let Shut (v : Machine N) : Prop := v.Balanced leaks ∧
    (∀ q, q ≠ p → (v.procs q).ofile = (s.procs q).ofile) ∧ ∀ fd, (v.procs p).ofile fd = 0
  have hshut {v w : Machine N} (hv : Shut v) (hrel : handlesFrame.rel v w) : Shut w := by
    refine ⟨hv.1.of_handlesFrame hrel, fun q hq ↦ ?_, ?_⟩
    · rw [ofile_of_handlesFrame hrel, hv.2.1 q hq]
    · rw [ofile_of_handlesFrame hrel]
      exact hv.2.2
  refine exit_rule (V := fun v ↦ Shut v ∧ (v.procs p).mmaps.Vouched leaks) (D := Shut)
    (nofun) ?_ (fun v hv ↦ ?_) fun w t hw ht ↦ hshut hw ?_
  · have hclose := ((closeFiles_balanced p (finRange nOfile)).at_state h.balanced).both
      ((Triple.of_frame (respects_closeFiles p (finRange nOfile)) s).both
        (.of_frame ((handleFrame_othersFrame p).respects_closeFiles (finRange nOfile)) s))
    refine hclose.post ?_ fun e t ht hstuck ↦ ?_
    · rintro _ v ⟨⟨hbalanced, hfree⟩, hfiles, hothers⟩
      refine ⟨⟨hbalanced, fun q hq ↦ ?_, fun fd ↦ hfree fd (mem_finRange fd)⟩, ?_⟩
      · rw [proc_of_othersFrame hothers hq]
      · rw [mmaps_of_filesFrame hfiles]
        exact (h.attested p).vouched
    · rw [ht.1] at hstuck
      cases hstuck
  · have hdelete := ((deleteMmaps_vouched p).at_state hv.2).both
      (.of_frame (unmapFrame_handlesFrame p).respects_deleteMmaps v)
    refine hdelete.post (fun _ w hw ↦ hshut hv.1 hw.2) fun e w hw _ ↦ ?_
    have hkept := hshut hv.1 hw.2
    exact ⟨hkept.1, hkept.2.1, hw.1⟩
  · rw [ht.rest]
    refine Prod.ext rfl (funext fun q ↦ ?_)
    change (t.procs q).ofile = (w.procs q).ofile
    by_cases hq : q = p
    · rw [hq, ht.self]
    · rw [ht.others q hq]

theorem audits_exit (h : s.Audited leaks) : Audits leaks s p (exit p) := by
  refine ((exit_slots s p).both (exit_handles h)).post ?_ ?_
  · rintro r t ⟨⟨hkept, _, htotal⟩, hbalanced, hofile, hfree⟩
    refine ⟨hbalanced, fun q ↦ ?_⟩
    by_cases hq : q = p
    · subst hq
      exact attested_of_empty htotal hfree
    · exact (h.attested q).of_slot (hkept q hq) (hofile q hq)
  · rintro e t ⟨hkept, hstuck⟩ he
    obtain ⟨hbalanced, hofile, hvouched⟩ := hstuck he
    exact .asleep hbalanced (fun q hq ↦ (h.attested q).of_slot (hkept q hq) (hofile q hq)) hvouched

theorem audits_wait (h : s.Audited leaks) : Audits leaks s p (wait p) := by
  refine ((wait_slots s p).both (.of_frame (slotFrame_handlesFrame.respects_wait p) s)).post ?_ ?_
  · rintro r t ⟨hslots, hhandles⟩
    cases r with
    | none =>
      have ht : t = s := hslots
      rw [ht]
      exact h
    | some q =>
      obtain ⟨hzombie, hkept, _, hentries⟩ := hslots
      refine h.of_slots hhandles hkept ?_
      rintro q' rfl
      obtain ⟨htotal, hfree⟩ := (h.attested q').idle (by rw [hzombie]; decide)
        (by rw [hzombie]; decide)
      refine attested_of_empty ?_ ?_
      · have hlast : ((t.procs q').mmaps 30).virtAddr = ((s.procs q').mmaps 30).virtAddr := by
          have hentry := congrArg MmapRegion.virtAddr (hentries 30)
          exact hentry
        exact hlast.trans htotal
      · rw [ofile_of_handlesFrame hhandles]
        exact hfree
  · rintro e t ⟨hkept, hhandles⟩ _
    exact (h.of_slots hhandles hkept fun q hq ↦ absurd hq (notMem_empty q)).sleep p

/-! ## `fork` -/

/-- Until the files are copied, `fork` has changed no reference and no descriptor. -/
def ForkKept (s : Machine N) (np : Fin N) (u : Machine N) : Prop :=
  findUnused s = some np ∧ handlesFrame.rel s u

theorem ForkKept.setProc {np : Fin N} {u : Machine N} (h : ForkKept s np u) (child : Proc N)
    (hofile : child.ofile = (u.procs np).ofile) :
    ForkKept s np { u with procs := update u.procs np child } :=
  ⟨h.1, handlesFrame.trans h.2 (handlesFrame_setProc u hofile)⟩

theorem ForkKept.respects {α : Type} {np : Fin N} {u : Machine N} {c : Kernel N α}
    (h : ForkKept s np u) (hc : Respects handlesFrame c) :
    Triple (· = u) c (fun _ ↦ ForkKept s np) fun _ t ↦ handlesFrame.rel s t :=
  (Triple.of_frame hc u).post (fun _ _ ht ↦ ⟨h.1, handlesFrame.trans h.2 ht⟩)
    fun _ _ ht ↦ handlesFrame.trans h.2 ht

theorem Unclaimed.handles (h : Unclaimed s t) : handlesFrame.rel s t := by
  rcases h.procs with hsame | ⟨np, pid, _, hslot⟩
  · rw [h.rest, hsame]
    rfl
  · rw [h.rest, hslot]
    exact handlesFrame_setProc s rfl

theorem Claimed.forkKept {np : Fin N} (h : Claimed s np t) : ForkKept s np t := by
  have hprocs : t.procs = update s.procs np (t.procs np) :=
    eq_update_iff.mpr ⟨rfl, h.others⟩
  refine ⟨h.slot, ?_⟩
  rw [h.rest, hprocs]
  exact handlesFrame_setProc s (by rw [h.child])

section

variable (h : s.Audited leaks) (hp : (s.procs p).state = .runnable)
include h

theorem ofile_of_findUnused {np : Fin N} (hfind : findUnused s = some np) :
    ∀ fd, (s.procs np).ofile fd = 0 :=
  ((h.attested np).idle (by rw [findUnused_state hfind]; decide)
    (by rw [findUnused_state hfind]; decide)).2

/-- The files are copied: every descriptor of the child counts. -/
theorem ForkKept.dupFiles {np : Fin N} {x : Machine N} (hne : p ≠ np) (hx : ForkKept s np x)
    (hroom : ∀ f, f ≠ 0 → (s.files f).ref.toInt +
      ((finRange nOfile).map (s.procs p).ofile).count f < 2 ^ 31) :
    Triple (· = x) (dupFiles p np (finRange nOfile))
      (fun _ y ↦ y.Balanced leaks ∧ ∀ q, q ≠ np → (y.procs q).ofile = (s.procs q).ofile)
      fun e _ ↦ e = .panic := by
  obtain ⟨hfind, hhandles⟩ := hx
  have hready : x.Balanced leaks ∧ (∀ fd ∈ finRange nOfile, (x.procs np).ofile fd = 0) ∧
      ∀ f, f ≠ 0 → (x.files f).ref.toInt +
        ((finRange nOfile).map (x.procs p).ofile).count f < 2 ^ 31 := by
    refine ⟨h.balanced.of_handlesFrame hhandles, fun fd _ ↦ ?_, fun f ↦ ?_⟩
    · rw [ofile_of_handlesFrame hhandles]
      exact ofile_of_findUnused h hfind fd
    · rw [ofile_of_handlesFrame hhandles, ref_of_handlesFrame hhandles]
      exact hroom f
  refine (((dupFiles_balanced hne (nodup_finRange nOfile)).at_state hready).both
    (.of_frame ((handleFrame_othersFrame np).respects_dupFiles p (finRange nOfile)) x)).post
    (fun _ y hy ↦ ⟨hy.1, fun q hq ↦ ?_⟩) fun _ _ hy ↦ hy.1
  rw [proc_of_othersFrame hy.2 hq, ofile_of_handlesFrame hhandles]

include hp

/-- What `fork` does to references and descriptors. -/
theorem fork_handles (hroom : ∀ f, f ≠ 0 → (s.files f).ref.toInt +
      ((finRange nOfile).map (s.procs p).ofile).count f < 2 ^ 31) :
    Triple (· = s) (fork p)
      (fun r t ↦ match r with
        | some np => t.Balanced leaks ∧ ∀ q, q ≠ np → (t.procs q).ofile = (s.procs q).ofile
        | none => handlesFrame.rel s t)
      fun e t ↦ e.sleeps = true → handlesFrame.rel s t := by
  have hslots := slotFrame_handlesFrame (N := N)
  refine fork_rule (C := fun np _ ↦ ForkKept s np) (M := fun np _ ↦ ForkKept s np)
    (live_of_runnable hp) (fun _ ↦ Unclaimed.handles) ?_ (fun _ _ _ hu ↦ hu.setProc _ rfl) ?_ ?_ ?_
  · intro np t _ ht
    exact (ht.forkKept.respects (respects_copyuvm (pagingFrame_handlesFrame p) _ _)).post
      (fun _ _ ↦ id) fun _ _ hu _ ↦ hu
  · intro np d u _ hu
    exact ((hu.setProc { u.procs np with pgdir := d } rfl).respects
      (hslots.respects_copyMaps p np)).post (fun _ _ ↦ id) fun _ _ hw _ ↦ hw
  · intro np w hw
    exact (hw.respects (hslots.respects_abandon np)).post (fun _ _ ht ↦ ht.2) fun _ _ ht _ ↦ ht
  · intro np w hne hw
    have hset := hw.setProc { w.procs np with sz := (s.procs p).sz, parent := some p } rfl
    refine (hset.dupFiles h hne hroom).post (fun _ y hy ↦ ⟨?_, fun q hq ↦ ?_⟩)
      fun e y he hstuck ↦ ?_
    · exact hy.1.of_handlesFrame (handlesFrame_setProc y rfl)
    · simp only [update_of_ne hq]
      exact hy.2 q hq
    · rw [he] at hstuck
      cases hstuck

theorem audits_fork (hroom : ∀ f, f ≠ 0 → (s.files f).ref.toInt +
      ((finRange nOfile).map (s.procs p).ofile).count f < 2 ^ 31) :
    Audits leaks s p (fork p) := by
  have hparent := (h.attested p).vouched
  have hgiven {state : ProcState} (t : Machine N) (np : Fin N) (hborn : Newborn s np state t)
      (hhandles : handlesFrame.rel s t) (htotal : (t.procs np).mmaps.totalMmaps = 0) :
      t.Audited leaks := by
    refine h.of_slots hhandles hborn.others ?_
    rintro q rfl
    refine attested_of_empty htotal ?_
    rw [ofile_of_handlesFrame hhandles]
    exact ofile_of_findUnused h hborn.slot
  refine ((fork_slots hp hparent.1.total_le).both (fork_handles h hp hroom)).post ?_ ?_
  · rintro r t ⟨hslots, hhandles⟩
    cases r with
    | none =>
      rcases hslots with hkept | ⟨np, hborn, htotal⟩
      · exact h.of_slots hhandles hkept fun q hq ↦ absurd hq (notMem_empty q)
      · exact hgiven t np hborn hhandles htotal
    | some np =>
      obtain ⟨hborn, htable⟩ := hslots
      refine ⟨hhandles.1, fun q ↦ ?_⟩
      by_cases hq : q = np
      · subst hq
        refine attested_of_runnable (hparent.of_live ?_ ?_) hborn.state
        · rw [htable]
          exact total_setTotal _ _
        · rw [htable]
          exact live_inherit _ hparent.1.total_le
      · exact (h.attested q).of_slot (hborn.others q hq) (hhandles.2 q hq)
  · rintro e t ⟨hhalted, hhandles⟩ hstuck
    obtain ⟨np, hborn, htotal⟩ := hhalted hstuck
    exact (hgiven t np hborn (hhandles hstuck) htotal).sleep p

/-! ## The calls on descriptors -/

/-- A call that only touches files and the descriptors of its process. -/
theorem audits_of_onlyFiles {α : Type} {c : Kernel N α}
    (hc : Triple (· = s) c (fun _ t ↦ OnlyFiles s p t ∧ t.Balanced leaks)
      fun e _ ↦ e = .panic) : Audits leaks s p c := by
  refine hc.post ?_ fun e t he hstuck ↦ ?_
  · rintro r t ⟨⟨files, ofile, rfl⟩, hbalanced⟩
    refine ⟨hbalanced, fun q ↦ ?_⟩
    by_cases hq : q = p
    · subst hq
      refine attested_of_runnable ?_ ?_
      · simp only [update_self]
        exact (h.attested q).vouched
      · simp only [update_self]
        exact hp
    · simp only [update_of_ne hq]
      exact h.attested q
  · rw [he] at hstuck
    cases hstuck

theorem audits_myMmap (call : MmapCall) (hadmissible : Admissible p (s, []) (.mmap call))
    (hnew : call.flags.has mapAnonymous = true ∨ call.f ≠ 0 ∧ 0 < leaks call.f) :
    Audits leaks s p (myMmap p call) := by
  rintro t rfl
  rw [myMmap_apply]
  refine h.of_slots (handlesFrame_setProc t rfl) (.setProc t p _) ?_
  rintro q rfl
  simp only [update_self]
  exact attested_of_runnable ((h.attested q).vouched.myMmap hadmissible fun va ↦ hnew) hp

/-- `sys_mmap` leaves a reference behind on the file of its descriptor. -/
theorem audits_sysMmap {r : MmapRequest} (hcareful : (FileCall.mmap p r).Careful s) :
    Audits ((FileCall.mmap p r).leak s leaks) s p (sysMmap p r) := by
  obtain ⟨hroom, hadmissible⟩ := hcareful
  rw [FileCall.dups] at hroom
  rw [FileCall.leak]
  change Admissible p (s, []) (.mmap (r.call (r.file s p))) at hadmissible
  rw [MmapRequest.file] at hadmissible
  refine .get_bind fun u hu ↦ ?_
  subst hu
  cases hargfd : argfd u p r.fd with
  | none =>
    rw [hargfd] at hadmissible
    dsimp only at hadmissible ⊢
    split
    · rename_i hanonymous
      exact audits_myMmap h hp _ hadmissible (.inl hanonymous)
    · refine .pure_at ?_
      exact h
  | some d =>
    rw [hargfd] at hadmissible hroom
    dsimp only at hadmissible hroom ⊢
    have hne := argfd_ne_zero hargfd
    generalize hf : (u.procs p).ofile d = f at hadmissible hroom hne ⊢
    have hlast : (u.files f).ref.toInt + 1 < 2 ^ 31 := by
      have hbound := hroom f (by simp [hf]) hne
      simpa [hf] using hbound
    refine (filedup_spec hlast).seq (fun e t he hstuck ↦ ?_) fun _ ↦ ?_
    · rw [he] at hstuck
      cases hstuck
    · refine .of_forall fun t ht ↦ ?_
      obtain ⟨href, rfl⟩ := ht
      have hafter : Audited (update leaks f (leaks f + 1)) { u with
          files := update u.files f { u.files f with ref := (u.files f).ref + 1 } } := by
        refine ⟨?_, fun q ↦ ?_⟩
        · grind [h.balanced.setFile, update_apply]
        · have hattested := h.attested q
          refine ⟨hattested.vouched.mono fun g ↦ ?_, hattested.idle⟩
          by_cases hg : g = f
          · subst hg
            rw [update_self]
            omega
          · rw [update_of_ne hg]
      refine audits_myMmap hafter hp (r.call f) ?_ (.inr ⟨hne, ?_⟩)
      · rw [Admissible] at hadmissible ⊢
        dsimp only [MmapCall.args, MmapRequest.call] at hadmissible ⊢
        rw [update_self]
        exact hadmissible
      · change 0 < update leaks f (leaks f + 1) f
        rw [update_self]
        omega

end

end Kernel

namespace FileCall

open Kernel

variable {ftable : Ftable} {s t : Machine N} {call : FileCall N} {leaks : Word → ℕ}

/-- **One step** keeps the books in order. -/
theorem audited_step (h : s.Audited leaks) (hcareful : call.Careful s)
    (hstep : call.step ftable s = some t) : t.Audited (call.leak s leaks) := by
  rw [step] at hstep
  split at hstep
  case isFalse => cases hstep
  rename_i hmay
  have hp := hmay.1
  have hreturn {p : Fin N} {c : Kernel N Word} {leaks : Word → ℕ} (hc : Audits leaks s p c) :
      Audits leaks s p (do let _ ← c) :=
    .bind hc fun _ ↦ .pure fun _ ↦ id
  have hbody : Audits (call.leak s leaks) s call.actor (call.body ftable) := by
    cases call with
    | openFile p found omode =>
      exact hreturn (audits_of_onlyFiles h hp (sysOpen_balanced h.balanced ftable found omode))
    | close p fd => exact hreturn (audits_of_onlyFiles h hp (sysClose_balanced h.balanced fd))
    | dup p fd =>
      refine hreturn (audits_of_onlyFiles h hp (sysDup_balanced h.balanced fun d hd ↦ ?_))
      have hbound := hcareful.1 ((s.procs p).ofile d) (by simp [dups, hd]) (argfd_ne_zero hd)
      simpa [dups, hd] using hbound
    | mmap p r => exact hreturn (audits_sysMmap h hp hcareful)
    | load p addr => exact audits_load h addr
    | store p addr b => exact audits_store h addr b
    | munmap p addr size => exact hreturn (audits_myMunmap h hp hcareful.2 size)
    | fork p =>
      refine .bind (audits_fork h hp fun f hf ↦ ?_) fun _ ↦ .pure fun _ ↦ id
      by_cases hmem : f ∈ (finRange nOfile).map (s.procs p).ofile
      · exact hcareful.1 f hmem hf
      · grind
    | exec p image =>
      exact .bind (audits_exec h hp image) fun _ ↦ .pure fun _ ↦ id
    | exit p => exact audits_exit h
    | wait p => exact .bind (audits_wait h) fun _ ↦ .pure fun _ ↦ id
  have hresult := hbody s rfl
  rcases hrun : call.body ftable s with ⟨outcome, u⟩
  rw [hrun] at hresult hstep
  cases outcome with
  | ok _ =>
    cases hstep
    exact hresult
  | error e => grind

/-- One step, with the references that `sys_mmap` has taken so far. -/
def stepLeaks (ftable : Ftable) (x : Machine N × (Word → ℕ)) (call : FileCall N) :
    Option (Machine N × (Word → ℕ)) :=
  (call.step ftable x.1).map fun t ↦ (t, call.leak x.1 x.2)

end FileCall

/-- No file is open. -/
def Machine.Closed (s : Machine N) : Prop :=
  (∀ f, (s.files f).ref = 0) ∧ ∀ q fd, (s.procs q).ofile fd = 0

theorem Machine.Boot.audited {s : Machine N} (hboot : s.Boot) (hclosed : s.Closed) :
    s.Audited fun _ ↦ 0 where
  balanced f hf := by
    have hnone : s.descriptors f = 0 := descriptors_eq_zero fun q fd ↦ by
      rw [hclosed.2 q fd]
      exact hf.symm
    rw [hclosed.1 f, hnone]
    rfl
  attested q := attested_of_empty (hboot.tables q).2 (hclosed.2 q)

/-- **A mapped file stays open.**  In every run all of whose calls keep the region tables in order
and the counts of references below the largest `int`, the file of a live region that is not
anonymous has a reference, and `filealloc` does not hand it out. -/
theorem mapped_file_open (ftable : Ftable) {s t : Machine N} (hboot : s.Boot) (hclosed : s.Closed)
    (hrun : Runs.Reaches (FileCall.step ftable) FileCall.Careful s t) {q : Fin N}
    {i : ℕ} (hi : i < (t.procs q).mmaps.total)
    (hfile : ((t.procs q).mmaps i).flags.has mapAnonymous = false) :
    1 ≤ (t.files ((t.procs q).mmaps i).f).ref.toInt ∧
      ∀ u, Kernel.filealloc ftable t ≠ (.ok (some ((t.procs q).mmaps i).f), u) := by
  have haudited : ∃ leaks, t.Audited leaks := by
    refine hrun.invariant (I := fun t ↦ ∃ leaks, t.Audited leaks) ⟨_, hboot.audited hclosed⟩ ?_
    rintro u call v ⟨leaks, hu⟩ hcareful hstep
    exact ⟨_, FileCall.audited_step hu hcareful hstep⟩
  obtain ⟨leaks, hbalanced, hattested⟩ := haudited
  have hlive : ((t.procs q).mmaps i).region ∈ (t.procs q).mmaps.live :=
    mem_live.mpr ⟨i, by omega, rfl⟩
  have hpos : 1 ≤ (t.files ((t.procs q).mmaps i).f).ref.toInt := by
    rcases (hattested q).vouched.2 _ hlive with hanonymous | ⟨hne, hleaks⟩
    · change ((t.procs q).mmaps i).flags.has mapAnonymous = true at hanonymous
      rw [hfile] at hanonymous
      cases hanonymous
    · have hcount := hbalanced _ hne
      change (t.files ((t.procs q).mmaps i).f).ref.toInt = _ at hcount
      omega
  refine ⟨hpos, fun u halloc ↦ ?_⟩
  have hspec := Kernel.filealloc_spec ftable t t rfl
  rw [halloc] at hspec
  rw [hspec.2.1] at hpos
  exact absurd hpos (by decide)

namespace BootImage

/-- A file table in kernel memory. -/
def ftable : Ftable where
  file := 0x80110000
  pos := by decide
  fits := by decide

/-- A private mapping of the first page of the file behind descriptor 0. -/
def filePage : Kernel.MmapRequest where
  addr := mmapBase
  size := pgSize
  protection := protRead
  flags := mapPrivate ||| mapFixed
  fd := 0
  offset := 0
  junk := 0

theorem idle_closed (n frames : ℕ) : (idle n frames).Closed := ⟨fun _ ↦ rfl, fun _ _ ↦ rfl⟩

end BootImage

open BootImage

/-- A file is opened, mapped and closed: the region still holds it. -/
theorem mapped_file_open_after_close : ∃ t : Machine 1,
    Runs.runIf (FileCall.step ftable) FileCall.Careful
        [.openFile 0 (some ⟨1, 2⟩) 0, .mmap 0 filePage, .close 0 0] (idle 0 0) = some t ∧
      ((t.procs 0).mmaps 0).f = ftable.entry 0 ∧
      1 ≤ (t.files ((t.procs 0).mmaps 0).f).ref.toInt := by
  refine exists_runIf (F := fun t ↦ (t.procs 0).mmaps.total = 1 ∧
    ((t.procs 0).mmaps 0).f = ftable.entry 0 ∧ ((t.procs 0).mmaps 0).flags.has mapAnonymous = false)
    (by decide +kernel) fun t ht ⟨htotal, hf, hfile⟩ ↦ ⟨hf, ?_⟩
  exact (mapped_file_open ftable (boot (by decide)) (idle_closed 0 0) ht (q := 0) (i := 0)
    (by rw [htotal]; decide) hfile).1

/-- A null address under `MAP_FIXED` leaves the index at `-1`: the call fills in no entry but counts
one more, so that the blank first entry becomes live and its file is the null pointer. -/
theorem live_region_without_file :
    (idle 0 0).Boot ∧ (idle 0 0).Closed ∧ ∃ t : Machine 1,
      Runs.Reaches (FileCall.step ftable) Runs.unguarded (idle 0 0) t ∧
        0 < (t.procs 0).mmaps.total ∧
        ((t.procs 0).mmaps 0).flags.has mapAnonymous = false ∧
        ¬ 1 ≤ (t.files ((t.procs 0).mmaps 0).f).ref.toInt := by
  refine ⟨boot (by decide), idle_closed 0 0, exists_reaches
    [.openFile 0 (some ⟨1, 2⟩) 0, .mmap 0 { filePage with addr := 0 }] ?_⟩
  decide +kernel

/-- **When a closed file is free again.**  Along every such run, a file without descriptors has no
reference left exactly if no `mmap` call has been made on a descriptor of it; `filealloc` then finds
a free entry. -/
theorem closed_file_free_iff (ftable : Ftable) {s : Machine N} (hboot : s.Boot)
    (hclosed : s.Closed) {x : Machine N × (Word → ℕ)}
    (hrun : Runs.Reaches (FileCall.stepLeaks ftable) (fun x call ↦ call.Careful x.1)
      (s, fun _ ↦ 0) x) {f : Word} (hf : f ≠ 0) (hnone : ∀ q fd, (x.1.procs q).ofile fd ≠ f) :
    ((x.1.files f).ref = 0 ↔ x.2 f = 0) ∧
      (x.2 f = 0 → ∀ i < nFile, f = ftable.entry i →
        ∃ g u, Kernel.filealloc ftable x.1 = (.ok (some g), u)) := by
  have haudited : x.1.Audited x.2 := by
    refine hrun.invariant (I := fun x ↦ x.1.Audited x.2) (hboot.audited hclosed) ?_
    intro y call z hy hcareful hstep
    obtain ⟨t, hnext, rfl⟩ := Option.map_eq_some_iff.mp hstep
    exact FileCall.audited_step hy hcareful hnext
  have hcount : (x.1.files f).ref.toInt = x.2 f := by
    rw [haudited.balanced f hf, descriptors_eq_zero hnone]
    omega
  have hzero : (x.1.files f).ref = 0 ↔ x.2 f = 0 := by
    rw [← BitVec.toInt_inj, hcount]
    exact Int.natCast_eq_zero
  refine ⟨hzero, fun hleaks i hi hentry ↦ ?_⟩
  have hspec := Kernel.filealloc_spec ftable x.1 x.1 rfl
  rcases halloc : Kernel.filealloc ftable x.1 with ⟨outcome, u⟩
  rw [halloc] at hspec
  cases outcome with
  | error e => exact hspec.elim
  | ok r => grind

/-- Two files are opened and the second is mapped; the first is free again when it is closed. -/
theorem closed_file_free_after_open : ∃ x : Machine 1 × (Word → ℕ),
    Runs.runIf (FileCall.stepLeaks ftable) (fun x call ↦ call.Careful x.1)
        [.openFile 0 (some ⟨1, 2⟩) 0, .openFile 0 (some ⟨1, 3⟩) 0, .mmap 0 { filePage with fd := 1 },
          .close 0 0] (idle 0 0, fun _ ↦ 0) = some x ∧
      x.2 (ftable.entry 1) = 1 ∧ (x.1.files (ftable.entry 0)).ref = 0 := by
  refine exists_runIf (F := fun x ↦ x.2 (ftable.entry 0) = 0 ∧ x.2 (ftable.entry 1) = 1 ∧
    ∀ q fd, (x.1.procs q).ofile fd ≠ ftable.entry 0) (by decide +kernel)
    fun x hx ⟨hleaks, hmapped, hnone⟩ ↦ ⟨hmapped, ?_⟩
  exact (closed_file_free_iff ftable (boot (by decide)) (idle_closed 0 0) hx
    (ftable.entry_ne_zero (by decide)) hnone).1.mpr hleaks

/-- A file is opened, mapped, unmapped and closed: no descriptor and no region refers to it any more,
and its count is still one. -/
theorem file_leaked_after_munmap :
    (idle 0 0).Boot ∧ (idle 0 0).Closed ∧ ∃ t : Machine 1,
      Runs.Reaches (FileCall.step ftable) Runs.unguarded (idle 0 0) t ∧
        (∀ q fd, (t.procs q).ofile fd ≠ ftable.entry 0) ∧
        (∀ q, (t.procs q).mmaps.total = 0) ∧ (t.files (ftable.entry 0)).ref ≠ 0 := by
  refine ⟨boot (by decide), idle_closed 0 0, exists_reaches
    [.openFile 0 (some ⟨1, 2⟩) 0, .mmap 0 filePage, .munmap 0 mmapBase pgSize, .close 0 0] ?_⟩
  decide +kernel

end Xv6Mmap
