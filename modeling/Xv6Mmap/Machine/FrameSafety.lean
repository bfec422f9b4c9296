import Xv6Mmap.Machine.CallRules
import Xv6Mmap.Machine.FrameFork

/-!
# Frame safety

Between two steps, the page directories of the processes, what hangs off them, the kernel stacks and
the page cache own their frames, and two processes share a frame only at the same page above
`MMAPBASE`.  No free frame is mapped.  Every operation keeps this if `my_munmap` and `delete_mmaps`
never free a frame that another process maps; `fork` followed by an unmapping of a shared region in
the parent does free one.
-/

namespace Xv6Mmap

open Function Library Prog RegionTable Machine Proc Set List BitVec

variable {N : ℕ}

/-- A process that can run: its table is sane and its image lies below the mappings. -/
def Proc.Fit (proc : Proc N) : Prop := proc.mmaps.Sane ∧ proc.sz.toNat ≤ 0x60000000

/-- The part of a process that frame safety depends on. -/
def Proc.core (proc : Proc N) : ProcState × Word × Word × (ℤ → Region) :=
  (proc.state, proc.pgdir, proc.sz, fun k ↦ (proc.mmaps k).region)

section Core

variable {proc proc' : Proc N}

theorem Proc.core_of_settled (h : proc'.settled = proc.settled) : proc'.core = proc.core := by
  have hcore := congrArg Proc.core h
  exact hcore

variable (h : proc'.core = proc.core)
include h

theorem Proc.state_of_core : proc'.state = proc.state := congrArg Prod.fst h

theorem Proc.pgdir_of_core : proc'.pgdir = proc.pgdir := congrArg (fun c ↦ c.2.1) h

theorem Proc.sz_of_core : proc'.sz = proc.sz := congrArg (fun c ↦ c.2.2.1) h

theorem Proc.Fit.of_core (hfit : proc.Fit) : proc'.Fit := by
  have hregion (k : ℤ) : (proc'.mmaps k).region = (proc.mmaps k).region :=
    congrFun (congrArg (fun c ↦ c.2.2.2) h) k
  refine ⟨sane_congr (fun i ↦ hregion i) hfit.1, ?_⟩
  rw [sz_of_core h]
  exact hfit.2

end Core

namespace Machine

/-- The page directories of the processes. -/
def liveDirs (s : Machine N) : Set Word :=
  { d | ∃ p, (s.procs p).state ≠ .unused ∧ (s.procs p).pgdir = d }

/-- What holds between two steps. -/
structure FrameSafe (s : Machine N) : Prop where
  sound : FrameSound noPages s.liveDirs ∅ s
  separate : ∀ p q, (s.procs p).state ≠ .unused → (s.procs q).state ≠ .unused →
    (s.procs p).pgdir = (s.procs q).pgdir → p = q
  fit : ∀ p, (s.procs p).state = .runnable → (s.procs p).Fit

variable {s t : Machine N} {p np : Fin N}

theorem mem_liveDirs (hp : (s.procs p).state ≠ .unused) : (s.procs p).pgdir ∈ s.liveDirs :=
  ⟨p, hp, rfl⟩

theorem insert_liveDirs (hp : (s.procs p).state ≠ .unused) :
    insert (s.procs p).pgdir (s.liveDirs \ {(s.procs p).pgdir}) = s.liveDirs := by
  rw [insert_sdiff_singleton, insert_eq_of_mem (mem_liveDirs hp)]

theorem live_of_runnable (hp : (s.procs p).state = .runnable) : (s.procs p).state ≠ .unused := by
  rw [hp]
  decide

namespace FrameSafe

section

variable (h : FrameSafe s)
include h

theorem others_kept (hp : (s.procs p).state ≠ .unused) (q : Fin N) (hne : q ≠ p)
    (hq : (s.procs q).state ≠ .unused) : (s.procs q).pgdir ∈ s.liveDirs \ {(s.procs p).pgdir} :=
  ⟨mem_liveDirs hq, fun hequal ↦ hne (h.separate q p hq hp hequal)⟩

/-- The processes keep their page directories. -/
theorem of_same_dirs (hunused : ∀ q, (t.procs q).state = .unused ↔ (s.procs q).state = .unused)
    (hpgdir : ∀ q, (t.procs q).pgdir = (s.procs q).pgdir)
    (hsound : FrameSound noPages s.liveDirs ∅ t)
    (hfit : ∀ q, (t.procs q).state = .runnable → (t.procs q).Fit) : FrameSafe t := by
  have hdirs : t.liveDirs = s.liveDirs := by
    ext d
    simp only [liveDirs, mem_ofPred_eq, ne_eq, hunused, hpgdir]
  refine ⟨hdirs ▸ hsound, ?_, hfit⟩
  intro q q' hq hq' hequal
  rw [hpgdir, hpgdir] at hequal
  exact h.separate q q' (fun hu ↦ hq ((hunused q).mpr hu)) (fun hu ↦ hq' ((hunused q').mpr hu))
    hequal

theorem of_core (hcore : ∀ q, (t.procs q).core = (s.procs q).core)
    (hsound : FrameSound noPages s.liveDirs ∅ t) : FrameSafe t := by
  refine h.of_same_dirs (fun q ↦ ?_) (fun q ↦ pgdir_of_core (hcore q)) hsound ?_
  · rw [state_of_core (hcore q)]
  · intro q hq
    rw [state_of_core (hcore q)] at hq
    exact (h.fit q hq).of_core (hcore q)

theorem of_procFrame (hrel : procFrame.rel s t) (hsound : FrameSound noPages s.liveDirs ∅ t) :
    FrameSafe t :=
  h.of_core (fun q ↦ core_of_settled (settled_of_procFrame hrel q)) hsound

theorem of_tableFrame (hp : (s.procs p).state = .runnable) (hrel : (tableFrame p).rel s t)
    (hsound : FrameSound noPages s.liveDirs ∅ t) (hsane : (t.procs p).mmaps.Sane) :
    FrameSafe t := by
  refine h.of_same_dirs (fun q ↦ ?_) (fun q ↦ pgdir_of_tableFrame hrel q) hsound ?_
  · rw [state_of_tableFrame hrel]
  · intro q hq
    rw [state_of_tableFrame hrel] at hq
    by_cases hqp : q = p
    · subst hqp
      refine ⟨hsane, ?_⟩
      rw [sz_of_tableFrame hrel]
      exact (h.fit q hq).2
    · exact (h.fit q hq).of_core (core_of_settled (hrel.1 q hqp))

/-- A process that goes to sleep keeps its page directory. -/
theorem asleep (hp : (s.procs p).state ≠ .unused) : FrameSafe (s.asleep p) := by
  have hother (q : Fin N) (hq : q ≠ p) : (s.asleep p).procs q = s.procs q :=
    update_of_ne hq _ _
  have hself : (s.asleep p).procs p = { s.procs p with state := .sleeping } :=
    update_self _ _ _
  refine h.of_same_dirs ?_ ?_ (Kernel.frameSound_update h.sound rfl) ?_
  · intro q
    by_cases hq : q = p
    · subst hq
      rw [hself]
      simp [hp]
    · rw [hother q hq]
  · intro q
    by_cases hq : q = p
    · subst hq
      rw [hself]
    · rw [hother q hq]
  · grind [h.fit]

/-- One slot changes: afterwards it is unused, or has a page directory that no other process has. -/
theorem of_slot (np : Fin N) {D : Set Word}
    (hother : ∀ q, q ≠ np → (t.procs q).core = (s.procs q).core)
    (hkept : ∀ q, q ≠ np → (s.procs q).state ≠ .unused → (s.procs q).pgdir ∈ D)
    (hslot : (t.procs np).state ≠ .unused → (t.procs np).pgdir ∈ D ∧
      ∀ q, q ≠ np → (s.procs q).state ≠ .unused → (s.procs q).pgdir ≠ (t.procs np).pgdir)
    (hfit : (t.procs np).state = .runnable → (t.procs np).Fit)
    (hsound : FrameSound noPages D ∅ t) : FrameSafe t := by
  have hlive (q : Fin N) (hqn : q ≠ np) (hq : (t.procs q).state ≠ .unused) :
      (s.procs q).state ≠ .unused ∧ (t.procs q).pgdir = (s.procs q).pgdir :=
    ⟨state_of_core (hother q hqn) ▸ hq, pgdir_of_core (hother q hqn)⟩
  have hdirs : t.liveDirs ⊆ D := by
    rintro d ⟨q, hq, rfl⟩
    by_cases hqn : q = np
    · subst hqn
      exact (hslot hq).1
    · obtain ⟨hstate, hsame⟩ := hlive q hqn hq
      exact hsame ▸ hkept q hqn hstate
  refine ⟨hsound.mono hdirs (subset_refl ∅), ?_, ?_⟩
  · grind [h.separate]
  · intro q hq
    by_cases hqn : q = np
    · subst hqn
      exact hfit hq
    · exact (h.fit q (state_of_core (hother q hqn) ▸ hq)).of_core (hother q hqn)

/-- The slot is unused, and its page directory is not needed any more. -/
theorem of_unused_slot (np : Fin N) (hother : ∀ q, q ≠ np → (t.procs q).core = (s.procs q).core)
    (hunused : (t.procs np).state = .unused) {D : Set Word}
    (hkept : ∀ q, q ≠ np → (s.procs q).state ≠ .unused → (s.procs q).pgdir ∈ D)
    (hsound : FrameSound noPages D ∅ t) : FrameSafe t := by
  refine h.of_slot np hother hkept (fun hlive ↦ absurd hunused hlive) ?_ hsound
  intro hrun
  rw [hunused] at hrun
  cases hrun

end

end FrameSafe

end Machine

namespace Kernel

open Machine

variable {p np : Fin N} {E : Word → Vpn → Prop} {D R : Set Word} {s : Machine N}
  {α : Type} {c : Kernel N α} {t : Machine N} {q : Fin N} {proc : Proc N}

/-- A call of `p` that is stuck leaves frames safe; a panic ends the run. -/
def Settled (p : Fin N) (e : Halt) (s : Machine N) : Prop :=
  e.sleeps = true → FrameSafe s ∧ (s.procs p).state ≠ .unused

theorem settled_panic : Settled p .panic s := nofun

theorem NeverStuck.settled {P : Machine N → Prop} {Q : α → Machine N → Prop}
    {E : Halt → Machine N → Prop} (hc : NeverStuck c) (h : Triple P c Q E) :
    Triple P c Q (Settled p) :=
  hc.panics h fun _ _ ↦ settled_panic

/-! ## Loads, stores and `mmap` -/

theorem fault_safe (h : FrameSafe s) (hp : (s.procs p).state = .runnable)
    (hkeeps : Keeps (Guarded p noPages s.liveDirs ∅) c) (hframe : Respects procFrame c) :
    Triple (· = s) c (fun _ ↦ FrameSafe) (Settled p) := by
  have hsafe (t : Machine N)
      (ht : Guarded p noPages s.liveDirs ∅ t ∧ procFrame.rel s t) : FrameSafe t :=
    h.of_procFrame ht.2 ht.1.1
  have hstart : Guarded p noPages s.liveDirs ∅ s ∧ procFrame.rel s s :=
    ⟨⟨h.sound, mem_liveDirs (live_of_runnable hp), (h.fit p hp).1.2⟩, procFrame.refl s⟩
  refine ((hkeeps.carry (respects_since hframe s)).post (fun _ t ht ↦ hsafe t ht)
    fun _ t ht _ ↦ ⟨hsafe t ht, ?_⟩).at_state hstart
  rw [state_of_procFrame ht.2, hp]
  decide

theorem keeps_pageFault (addr : Word) : Keeps (Guarded p E D R) (pageFault p addr) := by
  rw [pageFault]
  split
  · rename_i hmmap
    apply keeps_handlePageFault
    rw [isMmapAddr, Bool.and_eq_true] at hmmap
    exact of_decide_eq_true hmmap.1
  · exact keeps_kill

theorem load_safe (h : FrameSafe s) (hp : (s.procs p).state = .runnable) (addr : Word) :
    Triple (· = s) (load p addr) (fun _ ↦ FrameSafe) (Settled p) := by
  apply fault_safe h hp
  · refine .get_bind fun t ht ↦ ?_
    split
    · refine .pure_at ?_
      exact ht
    · exact (keeps_pageFault addr).at_state ht
  · exact respects_load (pagingFrame_procFrame p) addr

theorem store_safe (h : FrameSafe s) (hp : (s.procs p).state = .runnable) (addr : Word) (b : Byte) :
    Triple (· = s) (store p addr b) (fun _ ↦ FrameSafe) (Settled p) := by
  apply fault_safe h hp
  · refine .get_bind fun t ht ↦ ?_
    split
    · refine .modify_at ?_
      exact guarded_ioFrame.mem t _ ht
    · exact (keeps_pageFault addr).at_state ht
  · exact respects_store (pagingFrame_procFrame p) addr b

/-- The condition on `my_mmap`: it places its region among the live ones only, and the protection
word has nothing but permission bits. -/
def MmapSafe (p : Fin N) (call : MmapCall) (s : Machine N) : Prop :=
  let t := (s.procs p).mmaps
  let a := call.args (s.files call.f)
  a.valid = true → t.total < 30 → a.Admissible t ∧ a.protection.toNat < 4096

instance (p : Fin N) (call : MmapCall) (s : Machine N) : Decidable (MmapSafe p call s) :=
  inferInstanceAs (Decidable (_ → _ → _))

theorem sane_myMmap {t : RegionTable} {a : MmapArgs} (h : t.Sane)
    (hsafe : a.valid = true → t.total < 30 → a.Admissible t ∧ a.protection.toNat < 4096) :
    (t.myMmap a).1.Sane := by
  rcases myMmap_cases h.1 fun hvalid hroom ↦ (hsafe hvalid hroom).1 with
    hfail | ⟨t', va, k, hrun, hvalid, hroom, hfits, hinserted⟩
  · rw [hfail]
    exact h
  · rw [hrun]
    refine ⟨hinserted.wellFormed h.1 hroom hfits (MmapArgs.size_toNat_pos hvalid), ?_⟩
    rw [Usable, hinserted.live_eq h.1.total_nonneg hroom hfits.index_le]
    intro r hr
    rcases mem_append.mp hr with hr | hr
    · exact h.2 r (mem_of_mem_take hr)
    · rcases mem_cons.mp hr with rfl | hr
      · change a.stored.toNat < 4096
        rw [MmapArgs.stored]
        split
        · decide
        · rw [toNat_or]
          exact Nat.or_lt_two_pow (n := 12) (by decide) (hsafe hvalid hroom).2
      · exact h.2 r (mem_of_mem_drop hr)

theorem myMmap_safe (h : FrameSafe s) (hp : (s.procs p).state = .runnable) {call : MmapCall}
    (hsafe : MmapSafe p call s) :
    Triple (· = s) (myMmap p call) (fun _ ↦ FrameSafe) (Settled p) := by
  rintro t rfl
  rw [myMmap_apply]
  refine h.of_tableFrame hp (tableFrame_setMmaps t p _) (frameSound_update h.sound rfl) ?_
  simp only [update_self]
  exact sane_myMmap (h.fit p hp).1 hsafe

/-! ## `munmap` and `exit` -/

/-- The condition on `my_munmap(p, addr, size)`: the entry it finds is a live one, and no other
process maps a frame that it is going to free. -/
def MunmapSafe (p : Fin N) (addr size : Word) (s : Machine N) : Prop :=
  let t := (s.procs p).mmaps
  ∀ i, t.findEntry (pgRoundUp addr) = some i → (t i).size ≠ 0 → i < t.total.toNat ∧
    ∀ k < unmapCount (t i).size (pgRoundUp size), Alone s p (pageFrom addr k)

instance (p : Fin N) (addr size : Word) (s : Machine N) : Decidable (MunmapSafe p addr size s) :=
  inferInstanceAs (Decidable (∀ i ∈ (s.procs p).mmaps.findEntry (pgRoundUp addr), _))

/-- The condition on `delete_mmaps(p)`: no other process maps a frame of an entry that it may try to
unmap. -/
def DeleteSafe (p : Fin N) (s : Machine N) : Prop :=
  let t := (s.procs p).mmaps
  ∀ i < t.total.toNat, Attempted t i → ∀ v ∈ entryPages (t i), Alone s p v

instance (p : Fin N) (s : Machine N) : Decidable (DeleteSafe p s) :=
  inferInstanceAs (Decidable (∀ i < (s.procs p).mmaps.total.toNat, _ → ∀ v ∈ entryPages _, _))

/-- The pages of `pages` in the directory of `p`. -/
def pagesOf (s : Machine N) (p : Fin N) (pages : Set Vpn) (d : Word) (v : Vpn) : Prop :=
  d = (s.procs p).pgdir ∧ v ∈ pages

theorem unmapping_of_safe (h : FrameSafe s) (hp : (s.procs p).state = .runnable) (pages : Set Vpn)
    (halone : ∀ v ∈ pages, Alone s p v) : Unmapping p (pagesOf s p pages) s.liveDirs ∅ s := by
  have haccounted {E : Word → Vpn → Prop} : Accounted E s.liveDirs s := by
    rintro d ⟨q, hq, hpgdir⟩
    exact .inl ⟨q, hq, hpgdir⟩
  refine ⟨?_, haccounted, mem_liveDirs (live_of_runnable hp), (h.fit p hp).1⟩
  exact FrameSound.of_more_exclusive (frameSound_exclusive h.sound haccounted halone)
    fun _ _ hpage ↦ .inr hpage

theorem FrameSound.plain (h : FrameSound E D R s) : FrameSound noPages D R s :=
  FrameSound.of_more_exclusive h fun _ _ hfalse ↦ hfalse.elim

theorem myMunmap_safe (h : FrameSafe s) (hp : (s.procs p).state = .runnable) {addr size : Word}
    (hsafe : MunmapSafe p addr size s) :
    Triple (· = s) (myMunmap p addr size) (fun _ ↦ FrameSafe) (Settled p) := by
  let pages : Set Vpn := { v | Alone s p v }
  have hunmapping := unmapping_of_safe h hp pages fun v hv ↦ hv
  have hunshared : Unshared p (pagesOf s p pages) addr size s := by
    intro i hfound hsize
    obtain ⟨hi, halone⟩ := hsafe i hfound hsize
    exact ⟨hi, fun k hk ↦ ⟨rfl, halone k hk⟩⟩
  have hdone (t : Machine N) (ht : Unmapping p (pagesOf s p pages) s.liveDirs ∅ t ∧
      (tableFrame p).rel s t) : FrameSafe t :=
    h.of_tableFrame hp ht.2 (FrameSound.plain ht.1.sound) ht.1.sane
  refine (myMunmap_unmapping hunmapping hunshared).post (fun _ t ht ↦ hdone t ht)
    fun _ t ht _ ↦ ⟨hdone t ht, ?_⟩
  rw [state_of_tableFrame ht.2, hp]
  decide

/-- A process up to its open files. -/
def closed (proc : Proc N) : Proc N := { proc with ofile := fun _ ↦ 0 }

/-- Nothing changes but the reference counts of files and the open files. -/
def filesFrame : Frame (Machine N) :=
  Frame.ofEq fun s ↦ { s with
    files := fun f ↦ uncounted (s.files f)
    procs := fun q ↦ closed (s.procs q) }

theorem filesFrame_setFile (s : Machine N) (f : Word) {file : File}
    (hfile : uncounted file = uncounted (s.files f)) :
    filesFrame.rel s { s with files := update s.files f file } := by
  have hfiles : (fun f' ↦ uncounted (update s.files f file f')) =
      fun f' ↦ uncounted (s.files f') := by grind
  simp only [filesFrame, Frame.ofEq, hfiles]

theorem filesFrame_setOfile (s : Machine N) (p : Fin N) (ofile : Fin nOfile → Word) :
    filesFrame.rel s
      { s with procs := update s.procs p { s.procs p with ofile := ofile } } := by
  have hprocs : (fun q ↦ closed (update s.procs p { s.procs p with ofile := ofile } q)) =
      fun q ↦ closed (s.procs q) := by
    funext q
    by_cases hq : q = p
    · subst hq
      rw [update_self]
      rfl
    · rw [update_of_ne hq]
  simp only [filesFrame, Frame.ofEq, hprocs]

theorem handleFrame_filesFrame (p : Fin N) : HandleFrame filesFrame p :=
  ⟨fun s f _ ↦ filesFrame_setFile s f, fun s ↦ filesFrame_setOfile s p⟩

theorem respects_closeFiles (p : Fin N) (fds : List (Fin nOfile)) :
    Respects filesFrame (closeFiles p fds) :=
  (handleFrame_filesFrame p).respects_closeFiles fds

theorem respects_dupFiles (p np : Fin N) (fds : List (Fin nOfile)) :
    Respects filesFrame (dupFiles p np fds) :=
  (handleFrame_filesFrame np).respects_dupFiles p fds

/-- `filedup` and `fileclose` panic or change the file. -/
theorem neverStuck_counted {test : Machine N → Bool} (change : Machine N → Machine N) :
    NeverStuck (do
      let s ← get
      if test s then halt .panic else modify change) := by
  refine .get_bind fun s ↦ ?_
  split
  · exact .panic
  · exact .modify _

theorem neverStuck_forFiles {body : Fin nOfile → Word → Kernel N Unit}
    (hbody : ∀ fd f, NeverStuck (body fd f)) (p : Fin N) (fds : List (Fin nOfile)) :
    NeverStuck (forFiles p body fds) := by
  induction fds with
  | nil => exact .pure _
  | cons fd rest ih =>
    refine .get_bind fun s ↦ ?_
    split
    · exact ih
    · exact (hbody fd _).bind fun _ ↦ ih

theorem neverStuck_closeFiles (p : Fin N) (fds : List (Fin nOfile)) :
    NeverStuck (closeFiles p fds) :=
  neverStuck_forFiles (fun _ _ ↦ (neverStuck_counted _).bind fun _ ↦ .modify _) p fds

theorem neverStuck_dupFiles (p np : Fin N) (fds : List (Fin nOfile)) :
    NeverStuck (dupFiles p np fds) :=
  neverStuck_forFiles (fun _ _ ↦ (neverStuck_counted _).bind fun _ ↦ .modify _) p fds

/-- A call that only touches files and never gets stuck. -/
theorem files_since (hc : NeverStuck c) (hframe : Respects filesFrame c) (u : Machine N) :
    Triple (· = u) c (fun _ t ↦ filesFrame.rel u t) (Settled p) := by
  have hkeeps : Keeps (fun t ↦ filesFrame.rel u t) c :=
    .of_respects fun t ht ↦ filesFrame.trans ht (hframe t)
  exact (hc.settled hkeeps).at_state (filesFrame.refl u)

section FilesFrame

variable {t : Machine N} (hrel : filesFrame.rel s t)
include hrel

theorem eq_of_filesFrame : t = { s with files := t.files, procs := t.procs } := by
  have hkept := congrArg (fun u : Machine N ↦ { u with files := t.files, procs := t.procs })
    (show ({ t with files := fun f ↦ uncounted (t.files f), procs := fun q ↦ closed (t.procs q) }
      : Machine N) = { s with
        files := fun f ↦ uncounted (s.files f), procs := fun q ↦ closed (s.procs q) } from hrel)
  exact hkept

theorem closed_of_filesFrame (q : Fin N) : closed (t.procs q) = closed (s.procs q) :=
  congrFun (congrArg Machine.procs hrel) q

theorem core_of_filesFrame (q : Fin N) : (t.procs q).core = (s.procs q).core := by
  have hcore := congrArg Proc.core (closed_of_filesFrame hrel q)
  exact hcore

theorem mmaps_of_filesFrame (q : Fin N) : (t.procs q).mmaps = (s.procs q).mmaps := by
  have hmmaps := congrArg Proc.mmaps (closed_of_filesFrame hrel q)
  exact hmmaps

theorem frameSound_of_filesFrame (h : FrameSound E D R s) :
    FrameSound E D R t := by
  have hrest := eq_of_filesFrame hrel
  have hcache : t.pagecache = s.pagecache := by rw [hrest]
  refine h.congr (by rw [hrest]) (by rw [hrest]) ?_ ?_ (by rw [hrest])
  · intro q
    have hstack := congrArg Proc.kstack (closed_of_filesFrame hrel q)
    exact hstack
  · intro i
    rw [hcache]

end FilesFrame

theorem Unmapping.of_filesFrame (h : Unmapping p E D R s)
    (hrel : filesFrame.rel s t) : Unmapping p E D R t := by
  have hpgdir (q : Fin N) := pgdir_of_core (core_of_filesFrame hrel q)
  have hstate (q : Fin N) := state_of_core (core_of_filesFrame hrel q)
  refine ⟨frameSound_of_filesFrame hrel h.sound, ?_, ?_, ?_⟩
  · intro d hd
    refine (h.accounted d hd).imp ?_ id
    rintro ⟨q, hq, hd'⟩
    exact ⟨q, hstate q ▸ hq, (hpgdir q).trans hd'⟩
  · rw [hpgdir]
    exact h.pgdir_mem
  · rw [mmaps_of_filesFrame hrel]
    exact h.sane

theorem exit_safe (h : FrameSafe s) (hp : (s.procs p).state = .runnable) (hsafe : DeleteSafe p s) :
    Triple (· = s) (exit p) (fun _ ↦ FrameSafe) (Settled p) := by
  let pages : Set Vpn := { v | Alone s p v }
  have hunmapping := unmapping_of_safe h hp pages fun v hv ↦ hv
  refine exit_rule (V := filesFrame.rel s) (D := fun t ↦ FrameSafe t ∧ (t.procs p).state = .runnable)
    settled_panic (files_since (neverStuck_closeFiles p _) (respects_closeFiles p _) s)
    (fun v hv ↦ ?_) fun w t hw ht ↦ ?_
  · have hcore (q : Fin N) := core_of_filesFrame hv q
    have hpgdir : (v.procs p).pgdir = (s.procs p).pgdir := pgdir_of_core (hcore p)
    have hsafe' : FrameSafe v := h.of_core hcore (frameSound_of_filesFrame hv h.sound)
    have hp' : (v.procs p).state = .runnable := (state_of_core (hcore p)).trans hp
    have hdirs : v.liveDirs = s.liveDirs := by
      ext d
      simp only [liveDirs, mem_ofPred_eq, state_of_core (hcore _),
        pgdir_of_core (hcore _)]
    have hdelete := deleteMmaps_unmapping (hunmapping.of_filesFrame hv) (by
      intro i hi hattempted w hw
      rw [mmaps_of_filesFrame hv] at hi hattempted hw
      exact ⟨hpgdir, hsafe i hi hattempted w hw⟩)
    have hdone (t : Machine N) (ht : Unmapping p (pagesOf s p pages) s.liveDirs ∅ t ∧
        (tableFrame p).rel v t) : FrameSafe t ∧ (t.procs p).state = .runnable :=
      ⟨hsafe'.of_tableFrame hp' ht.2 (hdirs ▸ FrameSound.plain ht.1.sound) ht.1.sane,
        (state_of_tableFrame ht.2 p).trans hp'⟩
    exact hdelete.post (fun _ ↦ hdone) fun _ t ht _ ↦
      ⟨(hdone t ht).1, live_of_runnable (hdone t ht).2⟩
  · obtain ⟨hw, hstate⟩ := hw
    have hsound : FrameSound noPages w.liveDirs ∅ t := by
      rw [ht.rest]
      refine hw.sound.congr rfl rfl (fun q ↦ ?_) (fun _ ↦ rfl) rfl
      by_cases hq : q = p
      · rw [hq, ht.self]
      · rw [ht.others q hq]
    refine hw.of_same_dirs (fun q ↦ ?_) (fun q ↦ ?_) hsound fun q hrun ↦ ?_
    · by_cases hq : q = p
      · rw [hq, ht.self, hstate]
        exact iff_of_false nofun nofun
      · rw [ht.others q hq]
    · by_cases hq : q = p
      · rw [hq, ht.self]
      · rw [ht.others q hq]
    · by_cases hq : q = p
      · rw [hq, ht.self] at hrun
        cases hrun
      · rw [ht.others q hq] at hrun ⊢
        exact (hw.fit q hrun).of_core rfl

/-! ## Kernel stacks -/

theorem owns_setStack {o : Owner N} {f : Word}
    (h : { s with procs := update s.procs q proc }.Owns D R o f) :
    (o = .stack q ∧ proc.kstack = f ∧ f ≠ 0) ∨ (o ≠ .stack q ∧ s.Owns D R o f) := by
  cases o with
  | stack q' =>
    by_cases hq : q' = q
    · subst hq
      simp only [Owns, update_self] at h
      exact .inl ⟨rfl, h⟩
    · simp only [Owns, update_of_ne hq] at h
      refine .inr ⟨?_, h⟩
      intro heq
      cases heq
      exact hq rfl
  | dir d | table d i | page d v | cache i | reserved g => exact .inr ⟨by simp, h⟩

/-- A process without a kernel stack. -/
theorem FrameSound.dropStack (h : FrameSound E D R s) (hstack : proc.kstack = 0) :
    FrameSound E D R { s with procs := update s.procs q proc } := by
  have hsub (o : Owner N) (f : Word)
      (ho : { s with procs := update s.procs q proc }.Owns D R o f) :
      s.Owns D R o f := by
    rcases owns_setStack ho with ⟨_, hkstack, hne⟩ | ⟨_, hold⟩
    · exact absurd (hkstack.symm.trans hstack) hne
    · exact hold
  exact ⟨h.owners.mono hsub, h.free_ok, fun o f ho ↦ h.held_ok o f (hsub o f ho), h.entries,
    h.kend_pos⟩

/-- A process takes a frame of its own as its kernel stack. -/
theorem FrameSound.takeStack {f : Word} (h : FrameSound E D (insert f R) s)
    (hf : f ∉ R) (hstack : proc.kstack = f) :
    FrameSound E D R { s with procs := update s.procs q proc } := by
  refine h.give hf (o := .stack q) ?_ rfl h.entries rfl
  intro o g ho
  rcases owns_setStack ho with ⟨ho', hkstack, _⟩ | ⟨_, hold⟩
  · exact .inr ⟨ho', hkstack.symm.trans hstack⟩
  · exact .inl hold

/-- `kfree(kstack); kstack = 0`. -/
theorem retireStack (h : FrameSound E D R s) (q : Fin N) (g : Proc N → Proc N)
    (hg : (g (s.procs q)).kstack = 0) :
    Triple (· = s) (do kfree (s.procs q).kstack; setProc q g)
      (fun _ t ↦ FrameSound E D R t ∧
        t.procs = update s.procs q (g (s.procs q)))
      fun e _ ↦ e = .panic := by
  rintro t rfl
  rw [bind_apply, kfree_apply]
  by_cases hbad : ((t.procs q).kstack % pgSize != 0 || (t.procs q).kstack < t.kend ||
      physTop ≤ (t.procs q).kstack) = true
  · rw [if_pos hbad]
  · rw [if_neg hbad]
    obtain ⟨haligned, hnonzero⟩ := of_not_rejected h.kend_pos hbad
    have howner : t.Owns D R (.stack q) (t.procs q).kstack := ⟨rfl, hnonzero⟩
    refine ⟨?_, rfl⟩
    refine h.push haligned hnonzero (h.not_free howner) rfl (fun d hd v ↦ h.entries d hd v) rfl ?_
    intro o f ho
    have hold := owns_setStack (s := { t with
      mem := fun a ↦ if (a - (t.procs q).kstack).toNat < 4096 then 1 else t.mem a
      freelist := (t.procs q).kstack :: t.freelist }) ho
    rcases hold with ⟨_, hkstack, hne⟩ | ⟨hne, hold⟩
    · exact absurd (hkstack.symm.trans hg) hne
    · have hold' : t.Owns D R o f := by
        cases o with
        | _ => exact hold
      refine ⟨hold', ?_⟩
      rintro rfl
      exact hne ((h.owners.exclusive _ _ _ howner hold').resolve_right id).symm

/-! ## `fork` -/

section

variable (h : FrameSafe s) {d : Word}
include h

theorem Unclaimed.safe (ht : Unclaimed s t) : FrameSafe t := by
  rcases ht.procs with hsame | ⟨np, pid, hunused, hslot⟩
  · rw [ht.rest, hsame]
    exact h.of_core (fun _ ↦ rfl) (h.sound.congr rfl rfl (fun _ ↦ rfl) (fun _ ↦ rfl) rfl)
  · have hsound : FrameSound noPages s.liveDirs ∅ { s with procs := t.procs } := by
      rw [hslot]
      exact FrameSound.dropStack h.sound rfl
    refine h.of_unused_slot np (fun q hq ↦ ?_) ?_ (fun q _ hq ↦ mem_liveDirs hq) ?_
    · rw [hslot, update_of_ne hq]
    · rw [hslot, update_self]
      exact hunused
    · rw [ht.rest]
      exact hsound.congr rfl rfl (fun _ ↦ rfl) (fun _ ↦ rfl) rfl

theorem Claimed.sound (ht : Claimed s np t) :
    FrameSound noPages s.liveDirs ∅ t := by
  have hprocs : t.procs = update s.procs np (t.procs np) :=
    eq_update_iff.mpr ⟨rfl, ht.others⟩
  obtain ⟨hsound, hfresh⟩ := h.sound.pop ht.freelist
  have htaken := FrameSound.takeStack hsound hfresh (q := np) (rfl : (t.procs np).kstack = _)
  dsimp only at htaken
  rw [← hprocs] at htaken
  rw [ht.rest]
  exact htaken.congr rfl rfl (fun _ ↦ rfl) (fun _ ↦ rfl) rfl

/-- `fork` gives its slot back. -/
theorem abandon_safe (hothers : ∀ q, q ≠ np → (t.procs q).core = (s.procs q).core)
    (hsound : FrameSound noPages s.liveDirs ∅ t) :
    Triple (· = t) (abandon np) (fun _ ↦ FrameSafe) (Settled p) := by
  refine .get_at ?_
  refine (retireStack hsound np _ rfl).post ?_ ?_
  · rintro _ v ⟨hsound', hprocs⟩
    refine h.of_unused_slot np ?_ ?_ (fun q _ hq ↦ mem_liveDirs hq) hsound'
    · intro q hq
      rw [hprocs, update_of_ne hq]
      exact hothers q hq
    · rw [hprocs, update_self]
  · rintro e v rfl
    exact settled_panic

omit h in
/-- The child has its page directory and `copy_maps` is next. -/
structure Embryo (s : Machine N) (np : Fin N) (d : Word) (t : Machine N) : Prop where
  others : ∀ q, q ≠ np → (t.procs q).core = (s.procs q).core
  pgdir_eq : (t.procs np).pgdir = d
  pgdir_new : d ∉ s.liveDirs
  sound : FrameSound noPages (insert d s.liveDirs) ∅ t

omit h in
theorem Embryo.of_core {u : Machine N} (h : Embryo s np d t)
    (hcore : ∀ q, q ≠ np → (u.procs q).core = (t.procs q).core)
    (hpgdir : (u.procs np).pgdir = (t.procs np).pgdir)
    (hsound : FrameSound noPages (insert d s.liveDirs) ∅ u) : Embryo s np d u :=
  ⟨fun q hq ↦ (hcore q hq).trans (h.others q hq), hpgdir.trans h.pgdir_eq,
    h.pgdir_new, hsound⟩

omit h in
theorem Embryo.safe (h : Embryo s np d t) (hsafe : FrameSafe s)
    (hfit : (t.procs np).state = .runnable → (t.procs np).Fit) : FrameSafe t := by
  grind [hsafe.of_slot, h.others, mem_liveDirs, h.sound, h.pgdir_eq, h.pgdir_new]

theorem fork_safe (hp : (s.procs p).state = .runnable) :
    Triple (· = s) (fork p) (fun _ ↦ FrameSafe) (Settled p) := by
  have hsz := (h.fit p hp).2
  refine fork_rule (C := fun np r u ↦ (∀ q, q ≠ np → (u.procs q).core = (s.procs q).core) ∧
      (u.procs np).state = .embryo ∧ r.elim (FrameSound noPages s.liveDirs ∅ u)
        fun d ↦ d ∉ s.liveDirs ∧ FrameSound noPages (insert d s.liveDirs) ∅ u)
    (M := fun np copied u ↦ (∀ q, q ≠ np → (u.procs q).core = (s.procs q).core) ∧
      FrameSound noPages s.liveDirs ∅ u ∧
      (copied = true → (u.procs np).mmaps.Sane ∧ ∃ d, Embryo s np d u))
    (live_of_runnable hp) (fun t ht ↦ ht.safe h) ?_ ?_ ?_ ?_ ?_
  · intro np t hne ht
    have hcopy := (neverStuck_copyuvm (N := N) (s.procs p).pgdir hsz).settled (p := p)
      ((copyuvm_sound (N := N) (E := noPages) (D := s.liveDirs) (R := ∅) (s.procs p).pgdir
        (s.procs p).sz).carry (respects_since (respects_copyuvm (pagingFrame_procFrame p) _ _) t))
    refine (hcopy.at_state ⟨ht.sound h, procFrame.refl t⟩).post (fun r u hu ↦ ⟨fun q hq ↦ ?_, ?_, ?_⟩)
      fun _ _ ↦ id
    · rw [← ht.others q hq]
      exact core_of_settled (settled_of_procFrame hu.2 q)
    · rw [state_of_procFrame hu.2, ht.child]
    · cases r with
      | none => exact hu.1
      | some d => exact ⟨hu.1.1, FrameSound.plain hu.1.2⟩
  · rintro np u _ ⟨hothers, _, hsound⟩
    refine ⟨fun q hq ↦ ?_, frameSound_update hsound rfl, nofun⟩
    simp only [update_of_ne hq]
    exact hothers q hq
  · rintro np d u hne ⟨hothers, hstate, hd, hsound⟩
    generalize hv : ({ u with procs := update u.procs np { u.procs np with pgdir := d } }
      : Machine N) = v
    have hembryo : Embryo s np d v := by
      subst hv
      refine ⟨fun q hq ↦ ?_, ?_, hd, frameSound_update hsound rfl⟩
      · simp only [update_of_ne hq]
        exact hothers q hq
      · simp only [update_self]
    have hvstate : (v.procs np).state = .embryo := by
      subst hv
      simp only [update_self]
      exact hstate
    have hpgdir : (v.procs p).pgdir ∈ s.liveDirs := by
      rw [pgdir_of_core (hembryo.others p hne)]
      exact mem_liveDirs (live_of_runnable hp)
    have hforking : Forking p np (insert d s.liveDirs) v := by
      refine ⟨.inr hpgdir, .inl hembryo.pgdir_eq, fun hequal ↦ ?_,
        ((h.fit p hp).of_core (hembryo.others p hne)).1⟩
      rw [hequal, hembryo.pgdir_eq] at hpgdir
      exact hd hpgdir
    have hkept (w : Machine N) (hw : Copied p np (insert d s.liveDirs) v 0 w) : Embryo s np d w :=
      hembryo.of_core (fun q hq ↦ core_of_settled (hw.table.1 q hq))
        (pgdir_of_tableFrame hw.table np) hw.sound
    refine (copyMaps_sound hforking hne hembryo.sound).post (fun copied w hw ↦ ?_) fun e w hw _ ↦ ?_
    · exact ⟨(hkept w hw.1).others, hw.1.sound.mono (subset_insert d s.liveDirs) (subset_refl ∅),
        fun hcopied ↦ ⟨hw.2 hcopied, d, hkept w hw.1⟩⟩
    · refine ⟨(hkept w hw).safe h fun hrun ↦ ?_, ?_⟩
      · rw [state_of_tableFrame hw.table, hvstate] at hrun
        cases hrun
      · rw [state_of_core ((hkept w hw).others p hne), hp]
        decide
  · exact fun np w hw ↦ abandon_safe h hw.1 hw.2.1
  · rintro np w _ ⟨_, _, hcopied⟩
    obtain ⟨hsane, d, hembryo⟩ := hcopied rfl
    refine (files_since (neverStuck_dupFiles p np (List.finRange nOfile))
      (respects_dupFiles p np (List.finRange nOfile)) _).post (fun _ x hx ↦ ?_) fun _ _ ↦ id
    have hcore (q : Fin N) := core_of_filesFrame hx q
    have hfit : (x.procs np).Fit := by
      refine .of_core (hcore np) ?_
      simp only [update_self]
      exact ⟨hsane, hsz⟩
    refine Embryo.safe (d := d) (hembryo.of_core ?_ ?_ (frameSound_update
      (frameSound_of_filesFrame hx (frameSound_update hembryo.sound rfl)) rfl)) h ?_
    · grind
    · simp only [update_self]
      rw [pgdir_of_core (hcore np)]
      simp only [update_self]
    · intro _
      simp only [update_self]
      exact hfit

/-! ## `wait` -/

theorem wait_safe : Triple (· = s) (wait p) (fun _ ↦ FrameSafe) (Settled p) := by
  refine .get_at ?_
  cases hfind : findZombie s p with
  | none =>
    refine .pure_at ?_
    exact h
  | some q =>
    have hzombie : (s.procs q).state ≠ .unused := by
      have hfound := List.find?_some hfind
      rw [Bool.and_eq_true] at hfound
      rw [of_decide_eq_true hfound.2]
      decide
    have hsound := h.sound
    rw [← insert_liveDirs hzombie] at hsound
    have hstack := (retireStack hsound q (fun proc ↦ { proc with kstack := 0 }) rfl).post
      (fun _ _ ↦ id) (E := Settled p) fun e t he ↦ he ▸ settled_panic
    have hrest : Triple (fun t ↦ FrameSound noPages
          (insert (s.procs q).pgdir (s.liveDirs \ {(s.procs q).pgdir})) ∅ t ∧
          t.procs = update s.procs q { s.procs q with kstack := 0 })
        (do
          freevm (s.procs q).pgdir
          setProc q fun proc ↦
            { proc with pid := 0, parent := none, killed := false, state := .unused }
          return some q) (fun _ ↦ FrameSafe) (Settled p) := by
      refine .of_forall fun t ht ↦ ?_
      have hfree := (neverStuck_freevm (N := N) (d := (s.procs q).pgdir)).settled (p := p)
        ((freevm_sound (N := N) (E := noPages) (R := ∅)
          (D := s.liveDirs \ {(s.procs q).pgdir}) fun hmem ↦ hmem.2 rfl).carry
            (respects_since (respects_freevm (pagingFrame_procFrame p) _) t))
      refine .bind (hfree.at_state ⟨ht.1, procFrame.refl t⟩) fun _ ↦ ?_
      refine .modify_bind fun v hv ↦ .pure_at ?_
      refine h.of_unused_slot q ?_ ?_ (fun q' hne hq' ↦ h.others_kept hzombie q' hne hq')
        (frameSound_update hv.1 rfl)
      · intro q' hne
        simp only [update_of_ne hne]
        rw [core_of_settled (settled_of_procFrame hv.2 q'), ht.2, update_of_ne hne]
      · simp only [update_self]
    have hboth := Triple.bind hstack fun _ ↦ hrest
    rw [bind_assoc_prog] at hboth
    exact hboth

/-! ## `exec` -/

/-- The page directory of a process is replaced and the old one released. -/
theorem replaceDir_safe (hp : (s.procs p).state = .runnable) (hd : d ∉ s.liveDirs)
    {sz : Word} (hsz : sz.toNat < 0x60000000) (hrel : (tableFrame p).rel s t)
    (hsane : (t.procs p).mmaps.Sane) (hsound : FrameSound noPages (insert d s.liveDirs) ∅ t) :
    Triple (· = t) (do
      let s ← get
      let oldpgdir := (s.procs p).pgdir
      setProc p fun proc ↦ { proc with pgdir := d, sz := sz }
      freevm oldpgdir
      return true) (fun _ ↦ FrameSafe) (Settled p) := by
  have hlive := live_of_runnable hp
  have hold : (t.procs p).pgdir = (s.procs p).pgdir := pgdir_of_tableFrame hrel p
  have hapart : (s.procs p).pgdir ∉ insert d (s.liveDirs \ {(s.procs p).pgdir}) := by
    rintro (hequal | hmem)
    · exact hd (hequal ▸ mem_liveDirs hlive)
    · exact hmem.2 rfl
  have hdirs : insert (s.procs p).pgdir (insert d (s.liveDirs \ {(s.procs p).pgdir})) =
      insert d s.liveDirs := by
    rw [insert_comm, insert_liveDirs hlive]
  refine .get_at ?_
  dsimp only
  rw [hold]
  refine .modify_bind fun v hv ↦ ?_
  subst hv
  have hfree := (neverStuck_freevm (N := N) (d := (s.procs p).pgdir)).settled (p := p)
    ((freevm_sound (N := N) (E := noPages) (R := ∅) hapart).carry
      (respects_since (respects_freevm (pagingFrame_procFrame p) _)
        { v with procs := update v.procs p { v.procs p with pgdir := d, sz := sz } }))
  rw [hdirs] at hfree
  refine .bind (hfree.at_state ⟨frameSound_update hsound rfl, procFrame.refl _⟩) fun _ ↦ ?_
  refine .pure fun w hw ↦ ?_
  have hcore (q : Fin N) := core_of_settled (settled_of_procFrame hw.2 q)
  have hself := hcore p
  simp only [update_self] at hself
  refine h.of_slot p ?_ (fun q hne hq ↦ .inr (h.others_kept hlive q hne hq)) ?_ ?_ hw.1
  · intro q hne
    rw [hcore q]
    simp only [update_of_ne hne]
    exact core_of_settled (hrel.1 q hne)
  · intro _
    rw [pgdir_of_core hself]
    refine ⟨.inl rfl, ?_⟩
    rintro q _ hq rfl
    exact hd (mem_liveDirs hq)
  · intro _
    exact .of_core hself ⟨hsane, hsz.le⟩

theorem exec_safe (hp : (s.procs p).state = .runnable) (image : ExecImage) (hsafe : DeleteSafe p s)
    : Triple (· = s) (exec p image) (fun _ ↦ FrameSafe) (Settled p) := by
  have hframe := pagingFrame_procFrame p
  let pages : Set Vpn := { v | Alone s p v }
  have hunmapping := unmapping_of_safe h hp pages fun v hv ↦ hv
  have hunchanged {E : Word → Vpn → Prop} (t : Machine N)
      (ht : FrameSound E s.liveDirs ∅ t ∧ procFrame.rel s t) : FrameSafe t :=
    h.of_procFrame ht.2 (FrameSound.plain ht.1)
  rw [exec]
  split
  · refine .pure_at ?_
    exact h
  · have hsetup := neverStuck_setupkvm.settled (p := p)
      ((setupkvm_sound (N := N) (E := pagesOf s p pages) (D := s.liveDirs)
        (R := ∅)).carry (respects_since (respects_setupkvm hframe) s))
    refine .bind (hsetup.at_state ⟨hunmapping.sound, procFrame.refl s⟩) fun r ↦ ?_
    cases r with
    | none => exact .pure fun t ht ↦ hunchanged t ht
    | some d =>
      refine .of_forall fun t ht ↦ ?_
      obtain ⟨⟨hd, hsound⟩, hrel⟩ := ht
      have hbuild := (neverStuck_buildImage (N := N) (d := d) image).settled (p := p)
        ((buildImage_sound (N := N)
          (E := fun d' v ↦ pagesOf s p pages d' v ∨ d' = d) (R := ∅)
          (mem_insert d s.liveDirs) image).carry
            (respects_since (respects_buildImage hframe d image) s))
      refine .bind (hbuild.at_state ⟨hsound, hrel⟩) fun r ↦ ?_
      cases r with
      | none =>
        have hfree := (neverStuck_freevm (N := N) (d := d)).settled (p := p)
          ((freevm_sound (N := N) (E := fun d' v ↦ pagesOf s p pages d' v ∨ d' = d)
            (R := ∅) hd).carry (respects_since (respects_freevm hframe d) s))
        refine .bind (hfree.pre fun u hu ↦ ⟨hu.1.1, hu.2⟩) fun _ ↦ ?_
        exact .pure fun u hu ↦ hunchanged u hu
      | some sz =>
        refine .of_forall fun u hu ↦ ?_
        obtain ⟨⟨hsound', hsz⟩, hrel'⟩ := hu
        have hpgdir := pgdir_of_procFrame hrel' p
        have hregion (k : ℕ) := region_of_procFrame hrel' p k
        have hunmapping' : Unmapping p (fun d' v ↦ pagesOf s p pages d' v ∨ d' = d)
            (insert d s.liveDirs) ∅ u := by
          refine ⟨hsound', ?_, ?_, sane_congr hregion hunmapping.sane⟩
          · rintro d' (rfl | ⟨q, hq, rfl⟩)
            · exact .inr fun v ↦ .inr rfl
            · refine .inl ⟨q, ?_, pgdir_of_procFrame hrel' q⟩
              rw [state_of_procFrame hrel']
              exact hq
          · rw [hpgdir]
            exact .inr hunmapping.pgdir_mem
        have hdelete := deleteMmaps_unmapping hunmapping' (by
          intro i hi hattempted v hv
          rw [(live_congr hregion).1] at hi
          rw [entryPages_congr (hregion i)] at hv
          refine .inl ⟨hpgdir, hsafe i hi ?_ v hv⟩
          exact hattempted.congr hregion fun j ↦ refCount_of_procFrame hrel' p j)
        have hsafe' : FrameSafe u := hunchanged u
          ⟨hsound'.mono (subset_insert d s.liveDirs) (subset_refl ∅), hrel'⟩
        have hdirs : u.liveDirs = s.liveDirs := by
          ext d'
          simp only [liveDirs, mem_ofPred_eq, state_of_procFrame hrel', pgdir_of_procFrame hrel']
        have hp' : (u.procs p).state = .runnable := (state_of_procFrame hrel' p).trans hp
        refine hdelete.seq (fun _ v hv _ ↦ ⟨?_, ?_⟩) fun _ ↦ ?_
        · refine hsafe'.of_tableFrame hp' hv.2 ?_ hv.1.sane
          rw [hdirs]
          exact FrameSound.plain
            (hv.1.sound.mono (subset_insert d s.liveDirs) (subset_refl ∅))
        · rw [state_of_tableFrame hv.2]
          exact live_of_runnable hp'
        · refine .of_forall fun v hv ↦ ?_
          refine replaceDir_safe hsafe' hp' ?_ (hsz sz rfl) hv.2 hv.1.sane ?_
          · rw [hdirs]
            exact hd
          · rw [hdirs]
            exact FrameSound.plain hv.1.sound

end

end Kernel

/-! ## Runs -/

namespace Machine

open Kernel

variable {s t : Machine N}

/-- The condition on the next operation under which frames stay safe. -/
def KeepsFrames (s : Machine N) : Op N → Prop
  | .mmap p call => MmapSafe p call s
  | .munmap p addr size => MunmapSafe p addr size s
  | .exec p _ => DeleteSafe p s
  | .exit p => DeleteSafe p s
  | _ => True

instance (s : Machine N) : (op : Op N) → Decidable (s.KeepsFrames op)
  | .mmap p call => inferInstanceAs (Decidable (MmapSafe p call s))
  | .munmap p addr size => inferInstanceAs (Decidable (MunmapSafe p addr size s))
  | .exec p _ | .exit p => inferInstanceAs (Decidable (DeleteSafe p s))
  | .load .. | .store .. | .fork _ | .wait _ => inferInstanceAs (Decidable True)

theorem Boot.frameSafe (h : s.Boot) : FrameSafe s := by
  have hdirs : s.liveDirs = {(s.procs s.initproc).pgdir} := by
    ext d
    constructor
    · rintro ⟨p, hp, rfl⟩
      by_cases hinit : p = s.initproc
      · rw [hinit]
        rfl
      · exact absurd (h.unused p hinit) hp
    · rintro rfl
      exact mem_liveDirs (live_of_runnable h.init_runnable)
  have hinit (p : Fin N) (hp : (s.procs p).state ≠ .unused) : p = s.initproc := by
    by_contra hne
    exact hp (h.unused p hne)
  refine ⟨?_, ?_, ?_⟩
  · rw [hdirs]
    refine ⟨h.owners.of_sharing fun _ _ _ _ _ _ hfalse ↦ hfalse.elim, ?_, h.held_ok, ?_, h.kend_pos⟩
    · intro f hf
      refine ⟨?_, h.free_aligned f hf⟩
      rintro rfl
      have hle := (h.free_range 0 hf).1
      have hpositive := h.kend_pos
      rw [le_def] at hle
      rw [lt_def] at hpositive
      omega
    · rintro d rfl
      exact h.entries
  · intro p q hp hq _
    rw [hinit p hp, hinit q hq]
  · intro p hp
    rw [hinit p (live_of_runnable hp)]
    refine ⟨sane_of_total_eq_zero (h.tables s.initproc).total_eq_zero, ?_⟩
    rw [h.init_sz]
    decide

/-- **One step keeps frames safe.** -/
theorem FrameSafe.step (h : FrameSafe s) {op : Op N} (hkeeps : s.KeepsFrames op)
    (hstep : s.step op = some t) : FrameSafe t := by
  obtain ⟨hp, hrun⟩ := step_cases hstep
  have hbody : Triple (· = s) op.body (fun _ ↦ FrameSafe) (Settled op.actor) := by
    have hreturn {α : Type} {c : Kernel N α}
        (hc : Triple (· = s) c (fun _ ↦ FrameSafe) (Settled op.actor)) :
        Triple (· = s) (do let _ ← c) (fun _ ↦ FrameSafe) (Settled op.actor) :=
      .bind hc fun _ ↦ .pure fun _ ↦ id
    cases op with
    | load p addr => exact load_safe h hp addr
    | store p addr b => exact store_safe h hp addr b
    | mmap p call => exact hreturn (myMmap_safe h hp hkeeps)
    | munmap p addr size => exact hreturn (myMunmap_safe h hp hkeeps)
    | fork p => exact hreturn (fork_safe h hp)
    | exec p image => exact hreturn (exec_safe h hp image hkeeps)
    | exit p => exact exit_safe h hp hkeeps
    | wait p => exact hreturn (wait_safe h)
  rcases hrun with hrun | ⟨u, e, hrun, hsleeps, rfl⟩
  · exact hbody.returned rfl hrun
  · obtain ⟨hsafe, hlive⟩ := hbody.halted rfl hrun hsleeps
    exact hsafe.asleep hlive

/-- The free list has no frame twice, and none that a process maps. -/
def FreeUnmapped (s : Machine N) : Prop :=
  s.freelist.Nodup ∧
    ∀ f ∈ s.freelist, ∀ p, (s.procs p).state ≠ .unused → ∀ v, ¬ MapsFrame s p v f

theorem FrameSafe.freeUnmapped (h : FrameSafe s) : s.FreeUnmapped := by
  refine ⟨h.sound.owners.nodup, ?_⟩
  intro f hf p hp v hmaps
  have howner : s.Owns s.liveDirs ∅ (.page (s.procs p).pgdir v) f :=
    ⟨mem_liveDirs hp, hmaps.1, hmaps.2, (h.sound.free_ok f hf).1⟩
  exact h.sound.not_free howner hf

/-- A frame that a process maps holds nothing of the kernel's and no other page, except that other
processes may map it at the same page of the mapping area. -/
def Isolated (s : Machine N) : Prop :=
  ∀ p v f, (s.procs p).state ≠ .unused → f ≠ 0 → MapsFrame s p v f →
    (∀ o, s.Owns s.liveDirs ∅ o f → ∃ d, o = .page d v) ∧
    ∀ q v', (s.procs q).state ≠ .unused → MapsFrame s q v' f → v' = v ∧ (q = p ∨ mmapVpn ≤ v)

theorem FrameSafe.isolated (h : FrameSafe s) : s.Isolated := by
  intro p v f hp hf hmaps
  have hshare o := h.sound.owners.exclusive (.page (s.procs p).pgdir v) o f
    ⟨mem_liveDirs hp, hmaps.1, hmaps.2, hf⟩
  constructor
  · intro o ho
    rcases hshare o ho with rfl | hsharing
    · exact ⟨_, rfl⟩
    · obtain ⟨d, d', w, hpage, rfl, -⟩ := hsharing.exists_pages
      cases hpage
      exact ⟨d', rfl⟩
  · intro q v' hq hmaps'
    rcases hshare (.page (s.procs q).pgdir v') ⟨mem_liveDirs hq, hmaps'.1, hmaps'.2, hf⟩ with
      hequal | ⟨rfl, hbase, -⟩
    · obtain ⟨hdir, rfl⟩ := Owner.page.inj hequal
      exact ⟨rfl, .inl (h.separate q p hq hp hdir.symm)⟩
    · exact ⟨rfl, .inr hbase⟩

end Machine

/-- **Frame safety.** In every run from boot whose operations all meet the condition in the state
they are made in, no frame is on the free list twice and no free frame is mapped by a process. -/
theorem freeFrames_unmapped {s₀ s : Machine N} (hboot : s₀.Boot)
    (hrun : Runs.Reaches Machine.step Machine.KeepsFrames s₀ s) : s.FreeUnmapped := by
  have hsafe : FrameSafe s :=
    hrun.invariant hboot.frameSafe fun _ _ _ h hkeeps hstep ↦ h.step hkeeps hstep
  exact hsafe.freeUnmapped

open BootImage

/-- A page is mapped and touched, and the process forks. -/
def touchAndFork {N : ℕ} (p : Fin N) (call : Kernel.MmapCall) : List (Op N) :=
  [.mmap p call, .load p mmapBase, .fork p]

/-- A process maps a private page, touches it and forks. -/
theorem freeFrames_unmapped_after_fork :
    ∃ s, Runs.runIf Machine.step KeepsFrames (touchAndFork 0 anonymousPage) (idle 1 100) = some s ∧
      s.FreeUnmapped := by
  refine Runs.exists_runIf (F := fun _ ↦ True) (by decide +kernel) fun s hs _ ↦ ?_
  exact freeFrames_unmapped (boot (by decide)) hs

/-- A process maps a shared page, touches it, forks and unmaps it: the frame goes to the free list
while the child still maps it. -/
theorem freeFrames_mapped_after_shared_munmap :
    ∃ s₀ s : Machine 2, s₀.Boot ∧ Runs.Reaches Machine.step Runs.unguarded s₀ s ∧
      ¬ s.FreeUnmapped := by
  obtain ⟨s, hs, hlive, hpresent, hfree⟩ : ∃ s ∈ Runs.run step
      [.mmap 0 sharedPage, .load 0 mmapBase, .fork 0, .munmap 0 mmapBase pgSize] (idle 1 100),
      (s.procs 1).state ≠ .unused ∧
        ((s.pgdirs (s.procs 1).pgdir).pte (vpn mmapBase)).has pteP = true ∧
        pteAddr ((s.pgdirs (s.procs 1).pgdir).pte (vpn mmapBase)) ∈ s.freelist := by
    decide +kernel
  refine ⟨idle 1 100, s, boot (by decide), Runs.reaches_of_run hs, ?_⟩
  intro h
  exact h.2 _ hfree 1 hlive (vpn mmapBase) ⟨hpresent, rfl⟩

/-- **Isolation.** In every such run no process maps a page directory, a page-table page, a kernel
stack or a page of the page cache, and below the mapping area no two processes share a frame. -/
theorem memory_isolated {s₀ s : Machine N} (hboot : s₀.Boot)
    (hrun : Runs.Reaches Machine.step Machine.KeepsFrames s₀ s) : s.Isolated := by
  have hsafe : FrameSafe s :=
    hrun.invariant hboot.frameSafe fun _ _ _ h hkeeps hstep ↦ h.step hkeeps hstep
  exact hsafe.isolated

/-- A process maps a shared page, touches it and forks: the two share its frame, and no other. -/
theorem memory_isolated_after_fork :
    ∃ s, Runs.runIf Machine.step KeepsFrames (touchAndFork 0 sharedPage) (idle 1 100) = some s ∧
      (∃ f, f ≠ 0 ∧ Kernel.MapsFrame s 0 (vpn mmapBase) f ∧ Kernel.MapsFrame s 1 (vpn mmapBase) f) ∧
      s.Isolated := by
  refine Runs.exists_runIf (F := fun s ↦ (s.pgdirs (s.procs 1).pgdir).pte (vpn mmapBase) =
      (s.pgdirs (s.procs 0).pgdir).pte (vpn mmapBase) ∧
    pteAddr ((s.pgdirs (s.procs 0).pgdir).pte (vpn mmapBase)) ≠ 0 ∧
    ((s.pgdirs (s.procs 0).pgdir).pte (vpn mmapBase)).has pteP = true) (by decide +kernel)
    fun s hs ⟨hsame, hframe, hpresent⟩ ↦ ⟨⟨_, hframe, ⟨hpresent, rfl⟩, ?_⟩, ?_⟩
  · exact ⟨hsame ▸ hpresent, congrArg pteAddr hsame⟩
  · exact memory_isolated (boot (by decide)) hs

end Xv6Mmap
