import Xv6Mmap.Machine.Slots

/-!
# The size of an address space over runs of `exec`, `sbrk` and `fork`

As long as no `sbrk` asks for the whole of a process's memory back, the pages of a process below
`MMAPBASE` are those up to its size in every state reached, a `growproc` that fails leaves size and
translations as they were, and `copyuvm` finds every page it looks for.  A `growproc` that shrinks a
process to nothing has freed its pages when it takes the new size, zero, for a failure.
-/

namespace Xv6Mmap

open Function Library Prog Kernel Machine RegionTable BitVec

variable {N : ℕ}

/-- A call that makes or changes an address space. -/
inductive SpaceOp (N : ℕ) where
  | exec (p : Fin N) (image : ExecImage)
  | sbrk (p : Fin N) (n : Word)
  | fork (p : Fin N)

namespace SpaceOp

def actor : SpaceOp N → Fin N
  | exec p _ => p
  | sbrk p _ => p
  | fork p => p

def body : SpaceOp N → Kernel N Unit
  | exec p image => do let _ ← Kernel.exec p image
  | sbrk p n => do let _ ← growproc p n
  | fork p => do let _ ← Kernel.fork p

/-- One call that returns. -/
def step (s : Machine N) (op : SpaceOp N) : Option (Machine N) :=
  if (s.procs op.actor).state = .runnable then
    match op.body s with
    | (.ok _, t) => some t
    | (.error _, _) => none
  else none

/-- No `sbrk` asks for all the memory of its process back. -/
def KeepsSize (s : Machine N) : SpaceOp N → Prop
  | sbrk p n => GrowsInStep (s.procs p).sz n
  | _ => True

instance (s : Machine N) (op : SpaceOp N) : Decidable (KeepsSize s op) :=
  match op with
  | sbrk p n => inferInstanceAs (Decidable (GrowsInStep (s.procs p).sz n))
  | exec _ _ | fork _ => inferInstanceAs (Decidable True)

end SpaceOp

/-! ## The invariant -/

/-- What a process is to the address spaces. -/
structure Proc.Spaced (proc : Proc N) (dirs : Word → PageDir) : Prop where
  unmapped : proc.mmaps.totalMmaps = 0
  below : proc.sz.toNat < 0x60000000
  sized : Sized (dirs proc.pgdir).pte (pages proc.sz)

theorem Proc.Spaced.of_closed {proc proc' : Proc N} {dirs dirs' : Word → PageDir}
    (h : proc.Spaced dirs) (hproc : closed proc' = closed proc)
    (hdir : dirs' proc.pgdir = dirs proc.pgdir) : proc'.Spaced dirs' := by
  have hmmaps : proc'.mmaps = proc.mmaps := by
    have hclosed := congrArg Proc.mmaps hproc
    exact hclosed
  have hsz : proc'.sz = proc.sz := by
    have hclosed := congrArg Proc.sz hproc
    exact hclosed
  have hpgdir : proc'.pgdir = proc.pgdir := by
    have hclosed := congrArg Proc.pgdir hproc
    exact hclosed
  refine ⟨hmmaps ▸ h.unmapped, hsz ▸ h.below, ?_⟩
  rw [hpgdir, hdir, hsz]
  exact h.sized

structure SpaceSafe (s : Machine N) : Prop where
  frames : FrameSafe s
  tabled : ∀ d, (s.pgdirs d).Tabled
  spaced : ∀ p, (s.procs p).state ≠ .unused → (s.procs p).Spaced s.pgdirs

namespace SpaceSafe

variable {s t : Machine N} {p : Fin N}

theorem not_free (h : SpaceSafe s) (hp : (s.procs p).state ≠ .unused) :
    (s.procs p).pgdir ∉ s.freelist := by
  have hdir : s.Owns s.liveDirs ∅ (.dir (s.procs p).pgdir) (s.procs p).pgdir :=
    ⟨mem_liveDirs hp, rfl⟩
  exact h.frames.sound.not_free hdir

theorem clean (h : SpaceSafe s) (hp : (s.procs p).state ≠ .unused) (v : Vpn)
    (hv : (s.pgdirs (s.procs p).pgdir).pte v ≠ 0) :
    ((s.pgdirs (s.procs p).pgdir).pte v).has pteP = true :=
  h.frames.sound.entries _ (mem_liveDirs hp) v hv

/-- A step after which the other processes and their directories are as they were. -/
theorem of_others (h : SpaceSafe s) (hframes : FrameSafe t) (htabled : ∀ d, (t.pgdirs d).Tabled)
    (p : Fin N) (hothers : ∀ q, q ≠ p → closed (t.procs q) = closed (s.procs q) ∧
      ((s.procs q).state ≠ .unused → t.pgdirs (s.procs q).pgdir = s.pgdirs (s.procs q).pgdir))
    (hself : (t.procs p).state ≠ .unused → (t.procs p).Spaced t.pgdirs) : SpaceSafe t := by
  refine ⟨hframes, htabled, fun q hq ↦ ?_⟩
  by_cases hqp : q = p
  · subst hqp
    exact hself hq
  · obtain ⟨hproc, hdir⟩ := hothers q hqp
    have hstate : (t.procs q).state = (s.procs q).state := by
      have hclosed := congrArg Proc.state hproc
      exact hclosed
    rw [hstate] at hq
    exact (h.spaced q hq).of_closed hproc (hdir hq)

theorem tabled_after {α : Type} {c : Kernel N α} {outcome : Except Halt α} (h : SpaceSafe s)
    (hc : ∀ {F : Frame (Machine N)}, SystemFrame F → Respects F c) (hrun : c s = (outcome, t))
    (d : Word) : (t.pgdirs d).Tabled :=
  (hc (systemFrame_tabled d)).of_eq hrun (h.tabled d)

theorem of_untouched (h : SpaceSafe s) (hframes : FrameSafe t)
    (htabled : ∀ d, (t.pgdirs d).Tabled) (hsame : Untouched s t) : SpaceSafe t := by
  refine ⟨hframes, htabled, fun q hq ↦ ?_⟩
  rw [hsame.procs] at hq
  exact (h.spaced q hq).of_closed (by rw [hsame.procs]) (hsame.dirs _ (h.not_free hq))

end SpaceSafe

namespace Kernel

variable {s : Machine N} {p : Fin N} {t : Machine N} {np : Fin N} {n : Word}

/-! ## `sbrk` -/

theorem respects_growproc {F : Frame (Machine N)} (hF : SystemFrame F) (p : Fin N) (n : Word) :
    Respects F (growproc p n) := by
  have hresize (pgdir sz : Word) : Respects F (resize pgdir sz n) := by
    rw [resize]
    split
    · exact respects_allocuvm (hF.paging p) _ _ _
    · split
      · exact respects_deallocuvm (hF.paging p).toMapFrame _ _ _
      · exact .pure _
  refine .get_bind fun s ↦ (hresize _ _).bind fun sz ↦ ?_
  split
  · exact .pure _
  · exact (hF.respects_setProc p _).bind_pure _

theorem growproc_frameSound {E : Word → Vpn → Prop} {D R : Set Word} (n : Word)
    (hd : (s.procs p).pgdir ∈ D) (hsz : (s.procs p).sz.toNat < 0x60000000)
    (hs : FrameSound E D R s) :
    Triple (· = s) (growproc p n) (fun _ ↦ FrameSound E D R) fun _ _ ↦ True := by
  refine .get_bind ?_
  rintro t rfl
  refine .bind (Q := fun _ ↦ FrameSound E D R) ?_ fun sz ↦ ?_
  · refine .pre ?_ fun u hu ↦ show FrameSound E D R u from hu ▸ hs
    rw [resize]
    split
    · exact (allocuvm_sound hd _ _).post (fun _ _ hu ↦ hu.1) fun _ _ _ ↦ trivial
    · split
      · exact (keeps_deallocuvm hd hsz.le _).post (fun _ _ ↦ id) fun _ _ _ ↦ trivial
      · exact .pure fun _ ↦ id
  · split
    · exact .pure fun _ ↦ id
    · exact .modify_bind fun u hu ↦ .pure fun w hw ↦ hw ▸ frameSound_update hu rfl

theorem growproc_space (h : SpaceSafe s) (hp : (s.procs p).state = .runnable)
    (hstep : GrowsInStep (s.procs p).sz n) :
    Triple (· = s) (growproc p n) (fun _ ↦ SpaceSafe) fun _ _ ↦ True := by
  have hlive := live_of_runnable hp
  have hspaced := h.spaced p hlive
  have hgrew := growproc_grew (h.tabled _) (h.clean hlive) hspaced.below hspaced.sized hstep
  have hsound := growproc_frameSound n (mem_liveDirs hlive) hspaced.below h.frames.sound
  rintro t rfl
  rcases hrun : growproc p n t with ⟨e | r, u⟩
  · trivial
  · have hg := hgrew.returned rfl hrun
    have hs := hsound.returned rfl hrun
    have ht := h.tabled_after (fun hF ↦ respects_growproc hF p n) hrun
    have hothers {I : (Vpn → Word) → Prop} {w : Machine N} (hw : OnDir t (t.procs p).pgdir I w)
        (q : Fin N) (hq : q ≠ p) (hlive' : (t.procs q).state ≠ .unused) :
        w.pgdirs (t.procs q).pgdir = t.pgdirs (t.procs q).pgdir :=
      hw.others _ fun hdir ↦ hq (h.frames.separate q p hlive' hlive hdir)
    cases hg with
    | failed hsame =>
      have hprocs := hsame.procs_eq
      refine h.of_others (h.frames.of_core (fun q ↦ by rw [hprocs]) hs) ht p ?_ ?_
      · intro q hq
        rw [hprocs]
        exact ⟨rfl, hothers hsame q hq⟩
      · intro _
        rw [hprocs]
        refine ⟨hspaced.unmapped, hspaced.below, ?_⟩
        rw [hsame.entries]
        exact hspaced.sized
    | @resized w sz hsz hw =>
      have hprocs := hw.procs_eq
      have hother (q : Fin N) (hq : q ≠ p) :
          update w.procs p { w.procs p with sz := sz } q = t.procs q := by
        rw [update_of_ne hq, hprocs]
      have hself : update w.procs p { w.procs p with sz := sz } p =
          { t.procs p with sz := sz } := by
        rw [update_self, hprocs]
      refine h.of_others (h.frames.of_same_dirs ?_ ?_ hs ?_) ht p ?_ ?_
      · intro q
        dsimp only
        by_cases hq : q = p
        · rw [hq, hself]
        · rw [hother q hq]
      · intro q
        dsimp only
        by_cases hq : q = p
        · rw [hq, hself]
        · rw [hother q hq]
      · intro q hrunnable
        dsimp only at hrunnable ⊢
        by_cases hq : q = p
        · rw [hq, hself]
          exact ⟨(h.frames.fit p hp).1, hsz.le⟩
        · rw [hother q hq] at hrunnable ⊢
          exact h.frames.fit q hrunnable
      · intro q hq
        dsimp only
        rw [hother q hq]
        exact ⟨rfl, hothers hw q hq⟩
      · intro _
        dsimp only
        rw [hself]
        exact ⟨hspaced.unmapped, hsz, hw.entries⟩

/-- A `growproc` that takes all memory of a process away returns `-1`, and the pages are gone. -/
theorem growproc_gives_up (h : SpaceSafe s) (hp : (s.procs p).state ≠ .unused)
    (hstep : ¬ GrowsInStep (s.procs p).sz n) :
    Triple (· = s) (growproc p n) (fun r t ↦ r = -1 ∧ ¬ SameEntries s t)
      fun _ _ ↦ True := by
  have hspaced := h.spaced p hp
  have hbelow := hspaced.below
  have hall : (s.procs p).sz + n = 0 ∧ (s.procs p).sz ≠ 0 := by
    rw [GrowsInStep] at hstep
    push Not at hstep
    exact hstep
  have hsum := hall.1
  have hpos := hall.2
  have hlarge : 0x80000000 ≤ n.toNat := by bv_omega
  have hneg : n.toInt < 0 := by
    rw [toInt_eq_toNat_cond, if_neg (by omega)]
    omega
  have hslt : n.slt 0 = true := by
    rw [slt_eq_decide, decide_eq_true_eq]
    exact hneg
  have hnot : ¬ (0 : Word).slt n = true := by
    rw [slt_eq_decide, decide_eq_true_eq]
    exact not_lt.mpr hneg.le
  refine .get_bind ?_
  rintro t rfl
  rw [resize, if_neg hnot, if_pos hslt, hsum]
  have hdealloc := deallocuvm_cleared (s := t) (d := (t.procs p).pgdir) 0 hbelow.le
    (e := (t.pgdirs (t.procs p).pgdir).pte) fun v _ _ ↦ h.clean hp v
  refine .bind (hdealloc.at_state (.self (h.tabled _) rfl)) fun r ↦
    .of_forall ?_
  rintro u ⟨hr, hu⟩
  have hzero : r = 0 := by
    rw [hr]
    split
    · rename_i hle
      exact le_zero_iff.mp hle
    · rfl
  have hn : n ≠ 0 := by
    rintro rfl
    exact absurd hneg (by decide)
  rw [if_pos ⟨hn, hzero⟩]
  refine .pure_at ?_
  refine ⟨rfl, fun hsame ↦ ?_⟩
  -- page 0 was there, and is not any more
  have hpages : 0 < pages (t.procs p).sz := by
    unfold pages
    bv_omega
  have hgone := hu.entries.1 0 (Nat.zero_le _) (lt_of_lt_of_le hpages (le_max_right _ _))
  rw [hsame.1] at hgone
  have hpresent := (hspaced.sized 0 (by decide)).mpr hpages
  rw [hgone] at hpresent
  cases hpresent

theorem growproc_failed (h : SpaceSafe s) (hp : (s.procs p).state ≠ .unused)
    (hgrow : growproc p n s = (.ok (-1), t)) :
    SameEntries s t ↔ GrowsInStep (s.procs p).sz n := by
  constructor
  · intro hsame
    by_contra hstep
    have hgone := growproc_gives_up h hp hstep s rfl
    rw [hgrow] at hgone
    exact hgone.2 hsame
  · intro hstep
    have hspaced := h.spaced p hp
    have hgrew := growproc_grew (h.tabled _) (h.clean hp) hspaced.below hspaced.sized hstep s rfl
    rw [hgrow] at hgrew
    cases hgrew with
    | failed hsame =>
      refine ⟨fun d v ↦ ?_, hsame.procs_eq⟩
      by_cases hd : d = (s.procs p).pgdir
      · rw [hd, hsame.entries]
      · rw [hsame.others d hd]

/-! ## `exec` -/

theorem deleteMmaps_empty (h : (s.procs p).mmaps.totalMmaps = 0) :
    Triple (· = s) (deleteMmaps p) (fun _ t ↦ t = { s with
      procs := update s.procs p
        { s.procs p with mmaps := (s.procs p).mmaps.setTotal 0 } }) fun _ _ ↦ True := by
  have htotal : (s.procs p).mmaps.total.toNat = 0 := by
    rw [total, h]
    rfl
  rintro t rfl
  rw [deleteMmaps, bind_of_ok (get_apply t), htotal]
  rfl

/-- The state after `exec` by a process without regions: if it fails no process and no directory in
use is touched, and otherwise the process has a new directory with the pages up to its size. -/
def Replaced (s : Machine N) (p : Fin N) : Bool → Machine N → Prop
  | false, t => Untouched s t
  | true, t => (∀ q, q ≠ p → t.procs q = s.procs q) ∧
      (∀ d, d ∉ s.freelist → d ≠ (s.procs p).pgdir → t.pgdirs d = s.pgdirs d) ∧
      (t.procs p).Spaced t.pgdirs

theorem exec_replaced (h : SpaceSafe s) (hp : (s.procs p).state ≠ .unused) (image : ExecImage) :
    Triple (· = s) (exec p image) (Replaced s p) fun _ _ ↦ True := by
  have hnotFree := h.not_free hp
  have hne {d : Word} (hd : d ∈ s.freelist) : (s.procs p).pgdir ≠ d := fun heq ↦
    hnotFree (heq ▸ hd)
  refine exec_rule (D := fun d sz v ↦ d ∈ s.freelist ∧ sz.toNat < 0x60000000 ∧ ∃ u,
      OnDir s d (Filled noEntries 0 (pages sz)) u ∧ v = { u with
        procs := update u.procs p { u.procs p with mmaps := (u.procs p).mmaps.setTotal 0 } })
    (fun _ ↦ trivial) (fun _ ↦ id) (fun d sz u hmem hsz hu ↦ ?_) ?_
  · have hunmapped : (u.procs p).mmaps.totalMmaps = 0 := by
      rw [hu.procs_eq]
      exact (h.spaced p hp).unmapped
    exact (deleteMmaps_empty hunmapped).post (fun _ v hv ↦ ⟨hmem, hsz, u, hu, hv⟩) fun _ _ ↦ id
  · rintro d sz v ⟨hmem, hsz, u, hu, rfl⟩
    have hprocs := hu.procs_eq
    have hdir : u.pgdirs (s.procs p).pgdir = s.pgdirs (s.procs p).pgdir := hu.others _ (hne hmem)
    simp only [update_self, update_idem]
    rw [show (u.procs p).pgdir = (s.procs p).pgdir by rw [hprocs]]
    -- The old directory is freed last, from a state in which no process uses it.
    refine (Triple.at_state (freevm_onDir (I := anyEntries)) (OnDir.self ?_ trivial)).post
      (fun _ w hw ↦ ⟨fun q hq ↦ ?_, ?_, ?_⟩) fun _ _ ↦ id
    · rw [hdir]
      exact h.tabled _
    · rw [hw.procs_eq]
      dsimp only
      rw [update_of_ne hq, hprocs]
    · grind [hw.others, hu.others]
    · rw [hw.procs_eq]
      dsimp only
      rw [update_self]
      refine ⟨totalMmaps_setTotal _ _, hsz, ?_⟩
      dsimp only
      rw [hw.others d (hne hmem).symm]
      exact hu.entries.sized (Nat.zero_le _) sized_noEntries

theorem exec_space (h : SpaceSafe s) (hp : (s.procs p).state = .runnable) (image : ExecImage) :
    Triple (· = s) (exec p image) (fun _ ↦ SpaceSafe) fun _ _ ↦ True := by
  have hlive := live_of_runnable hp
  have hdelete : DeleteSafe p s := by
    intro i hi
    rw [total, (h.spaced p hlive).unmapped] at hi
    exact absurd hi (Nat.not_lt_zero i)
  have hreplaced := exec_replaced h hlive image
  have hsafe := exec_safe h.frames hp image hdelete
  rintro t rfl
  rcases hrun : exec p image t with ⟨e | r, u⟩
  · trivial
  · have hr := hreplaced.returned rfl hrun
    have hs := hsafe.returned rfl hrun
    have ht := h.tabled_after (fun hF ↦ hF.respects_exec p image) hrun
    cases r with
    | false => exact h.of_untouched hs ht hr
    | true =>
      obtain ⟨hothers, hdirs, hself⟩ := hr
      refine h.of_others hs ht p (fun q hq ↦ ?_) fun _ ↦ hself
      rw [hothers q hq]
      refine ⟨rfl, fun hlive' ↦ hdirs _ (h.not_free hlive') fun hdir ↦ ?_⟩
      exact hq (h.frames.separate q p hlive' hlive hdir)

/-! ## `fork` -/

/-- Since `s`, nothing has happened to the processes but to slot `np` and, up to open files, nothing
to the directories outside the free list. -/
structure Beside (s : Machine N) (np : Fin N) (t : Machine N) : Prop where
  procs : ∀ q, q ≠ np → closed (t.procs q) = closed (s.procs q)
  dirs : ∀ d, d ∉ s.freelist → t.pgdirs d = s.pgdirs d

theorem Beside.setProc (h : Beside s np t) (proc : Proc N) :
    Beside s np { t with procs := update t.procs np proc } := by
  refine ⟨fun q hq ↦ ?_, h.dirs⟩
  rw [← h.procs q hq]
  simp only [update_of_ne hq]

theorem copyMaps_empty (h : (s.procs p).mmaps.totalMmaps = 0) :
    Triple (· = s) (copyMaps p np) (fun copied t ↦ copied = true ∧ t = { s with
      procs := update s.procs np
        { s.procs np with mmaps := (s.procs np).mmaps.setTotal 0 } }) fun _ _ ↦ True := by
  have htotal : (s.procs p).mmaps.total.toNat = 0 := by
    rw [total, h]
    rfl
  rintro t rfl
  rw [copyMaps, bind_of_ok (get_apply t), htotal, h]
  exact ⟨rfl, rfl⟩

/-- The state after `fork` by a process without regions: at most one slot has changed, and it is
free or has a new directory with the pages up to its size. -/
def Forked (s t : Machine N) : Prop :=
  ∃ np, Beside s np t ∧ ((t.procs np).state ≠ .unused → (t.procs np).Spaced t.pgdirs)

theorem Beside.kept (hprocs : ∀ q, q ≠ np → t.procs q = s.procs q)
    (hdirs : ∀ d, d ∉ s.freelist → t.pgdirs d = s.pgdirs d) : Beside s np t :=
  ⟨fun q hq ↦ by rw [hprocs q hq], hdirs⟩

theorem fork_forked (h : SpaceSafe s) (hp : (s.procs p).state ≠ .unused) :
    Triple (· = s) (fork p) (fun _ ↦ Forked s) fun _ _ ↦ True := by
  have hspaced := h.spaced p hp
  refine fork_rule (C := SpaceCopied s (s.procs p).sz)
    (M := fun np copied u ↦ Beside s np u ∧ (copied = true → (u.procs np).mmaps.totalMmaps = 0 ∧
      Sized (u.pgdirs (u.procs np).pgdir).pte (pages (s.procs p).sz))) hp ?_ ?_ ?_ ?_ ?_ ?_
  · intro t ht
    have hdirs (d : Word) (_ : d ∉ s.freelist) : t.pgdirs d = s.pgdirs d := by rw [ht.rest]
    rcases ht.procs with hsame | ⟨np, pid, hunused, hslot⟩
    · refine ⟨p, .kept (fun q _ ↦ by rw [hsame]) hdirs, fun _ ↦ ?_⟩
      rw [ht.rest, hsame]
      exact hspaced
    · refine ⟨np, .kept (fun q hq ↦ ?_) hdirs, fun hlive ↦ absurd ?_ hlive⟩
      · rw [hslot, update_of_ne hq]
      · rw [hslot, update_self]
        exact hunused
  · exact fun np t _ ht ↦ ht.copyuvm _ hspaced.below.le
  · intro np u _ hu
    exact ⟨(Beside.kept hu.others hu.dirs).setProc _, nofun⟩
  · intro np d u hne hu
    have hunmapped : (update u.procs np { u.procs np with pgdir := d } p).mmaps.totalMmaps
        = 0 := by
      rw [update_of_ne hne, hu.others p hne]
      exact hspaced.unmapped
    refine (copyMaps_empty hunmapped).post ?_ fun _ _ ↦ id
    rintro copied v ⟨rfl, rfl⟩
    refine ⟨((Beside.kept hu.others hu.dirs).setProc _).setProc _, fun _ ↦ ?_⟩
    simp only [update_self]
    obtain ⟨-, -, -, hfilled⟩ := hu.space d rfl
    exact ⟨totalMmaps_setTotal _ _, hfilled.sized (Nat.zero_le _) sized_noEntries⟩
  · intro np w hw
    refine (abandon_gives np w).post (fun _ t ht ↦ ⟨np, ⟨fun q hq ↦ ?_, fun d hd ↦ ?_⟩, ?_⟩)
      fun _ _ _ ↦ trivial
    · rw [ht.others q hq, hw.1.procs q hq]
    · rw [ht.rest, ← hw.1.dirs d hd]
    · rw [ht.child]
      exact fun hlive ↦ absurd rfl hlive
  · intro np w _ hw
    obtain ⟨hbeside, hnew⟩ := hw
    obtain ⟨htotal, hsized⟩ := hnew rfl
    refine (Triple.of_frame (respects_dupFiles p np _) _).post (fun _ x hx ↦ ?_) fun _ _ _ ↦ trivial
    have hdirs : x.pgdirs = w.pgdirs := by rw [eq_of_filesFrame hx]
    have hclosed (q : Fin N) := closed_of_filesFrame hx q
    refine ⟨np, ⟨fun q hq ↦ ?_, fun d hd ↦ ?_⟩, fun _ ↦ ?_⟩
    · have hq' := hclosed q
      simp only [update_of_ne hq] at hq' ⊢
      rw [hq', hbeside.procs q hq]
    · rw [← hbeside.dirs d hd, ← hdirs]
    · have hchild := hclosed np
      simp only [update_self] at hchild ⊢
      have hspaced' : Proc.Spaced { w.procs np with sz := (s.procs p).sz, parent := some p }
          w.pgdirs := ⟨htotal, hspaced.below, hsized⟩
      have hready := hspaced'.of_closed hchild (congrFun hdirs _)
      exact { hready with }

theorem fork_space (h : SpaceSafe s) (hp : (s.procs p).state = .runnable) :
    Triple (· = s) (fork p) (fun _ ↦ SpaceSafe) fun _ _ ↦ True := by
  have hforked := fork_forked h (live_of_runnable hp)
  have hsafe := fork_safe h.frames hp
  rintro t rfl
  rcases hrun : fork p t with ⟨e | r, u⟩
  · trivial
  · obtain ⟨np, hbeside, hchild⟩ := hforked.returned rfl hrun
    have ht := h.tabled_after (fun hF ↦ hF.respects_fork p) hrun
    refine h.of_others (hsafe.returned rfl hrun) ht np
      (fun q hq ↦ ⟨hbeside.procs q hq, fun hlive ↦ ?_⟩) hchild
    exact hbeside.dirs _ (h.not_free hlive)

/-! ## The panics of `copyuvm` -/

/-- `fork` with `missing` in place of the two panics of `copyuvm`. -/
def forkOr (missing : Kernel N Bool) (p : Fin N) : Kernel N (Option (Fin N)) := do
  match ← allocproc with
  | none => return none
  | some np => do
    let s ← get
    match ← copyuvmOr missing (s.procs p).pgdir (s.procs p).sz with
    | none => do
      setProc np fun proc ↦ { proc with pgdir := 0 }
      abandon np
      return none
    | some d => do
      setProc np fun proc ↦ { proc with pgdir := d }
      if ← copyMaps p np then
        setProc np fun proc ↦ { proc with sz := (s.procs p).sz, parent := some p }
        dupFiles p np (List.finRange nOfile)
        setProc np fun proc ↦ { proc with state := .runnable }
        return some np
      else
        abandon np
        return none

theorem forkOr_eq (h : SpaceSafe s) (hp : (s.procs p).state ≠ .unused) (missing : Kernel N Bool) :
    forkOr missing p s = fork p s := by
  have hspaced := h.spaced p hp
  have htakes := allocproc_claims s s rfl
  rw [forkOr, fork, bind_apply, bind_apply]
  rcases hrun : allocproc s with ⟨e | r, t⟩
  · rfl
  · rw [hrun] at htakes
    cases r with
    | none => rfl
    | some np =>
      have hne : p ≠ np := by
        rintro rfl
        exact hp (findUnused_state htakes.slot)
      have hdirs := htakes.dirs
      have hparent : t.procs p = s.procs p := htakes.others p hne
      have hcopy : copyuvmOr missing (t.procs p).pgdir (t.procs p).sz t =
          copyuvm (t.procs p).pgdir (t.procs p).sz t := by
        rw [hparent]
        refine copyuvmOr_eq missing hspaced.below ?_ ?_ ?_
        · rw [hdirs]
          exact h.tabled _
        · exact htakes.not_free (h.not_free hp)
        · intro v hv
          have hsmall : v.toNat < 0x60000 := by
            have hbelow := hspaced.below
            unfold pages at hv
            omega
          rw [hdirs]
          exact (hspaced.sized v hsmall).mpr hv
      exact bind_of_eq hcopy

end Kernel

/-! ## Runs -/

namespace SpaceSafe

variable {s t : Machine N} {p : Fin N}

theorem step (h : SpaceSafe s) {op : SpaceOp N} (hkeeps : SpaceOp.KeepsSize s op)
    (hstep : SpaceOp.step s op = some t) : SpaceSafe t := by
  rw [SpaceOp.step] at hstep
  split at hstep
  · rename_i hp
    have hbody : Triple (· = s) op.body (fun _ ↦ SpaceSafe) fun _ _ ↦ True := by
      cases op with
      | exec p image =>
        exact .bind (exec_space h hp image) fun _ ↦ .pure fun _ ↦ id
      | sbrk p n => exact .bind (growproc_space h hp hkeeps) fun _ ↦ .pure fun _ ↦ id
      | fork p => exact .bind (fork_space h hp) fun _ ↦ .pure fun _ ↦ id
    have hrun := hbody s rfl
    rcases hc : op.body s with ⟨e | r, u⟩
    · rw [hc] at hstep
      cases hstep
    · rw [hc] at hstep hrun
      cases hstep
      exact hrun
  · cases hstep

/-- The invariant holds once `userinit` has set up the one page of `init`. -/
theorem of_boot (hboot : s.Boot) : SpaceSafe s := by
  refine ⟨hboot.frameSafe, hboot.tabled, fun p hp ↦ ?_⟩
  have hinit : p = s.initproc := by
    by_contra hne
    exact hp (hboot.unused p hne)
  subst hinit
  refine ⟨(hboot.tables _).2, ?_, ?_⟩
  · rw [hboot.init_sz]
    decide
  · rw [hboot.init_sz]
    intro v _
    rw [hboot.init_pages v, show pages pgSize = 1 from rfl, Nat.lt_one_iff]
    exact ⟨fun hv ↦ by rw [hv]; rfl, fun hv ↦ BitVec.eq_of_toNat_eq hv⟩

end SpaceSafe

/-- The size of `p` is below `MMAPBASE`, and the pages of `p` below `MMAPBASE` are those up to its
size. -/
def SizedInStep (s : Machine N) (p : Fin N) : Prop :=
  (s.procs p).sz < mmapBase ∧
    ∀ a, a < mmapBase → (present s p a = true ↔ a < pgRoundUp (s.procs p).sz)

theorem SpaceSafe.sizedInStep {s : Machine N} {p : Fin N} (h : SpaceSafe s)
    (hp : (s.procs p).state ≠ .unused) : SizedInStep s p := by
  have hspaced := h.spaced p hp
  have hbelow := hspaced.below
  refine ⟨hbelow, fun a ha ↦ ?_⟩
  have hpage : (vpn a).toNat < 0x60000 := by
    rw [lt_def] at ha
    rw [toNat_vpn]
    have hbase : mmapBase.toNat = 0x60000000 := rfl
    omega
  rw [present, hspaced.sized _ hpage, lt_def, toNat_pgRoundUp_pages (by omega), toNat_vpn]
  omega

/-- **The size of an address space.**  In every run from boot in which no `sbrk` asks for all the
memory of its process back, size and pages of every process are in step; a `growproc` that fails has
changed neither a size nor a translation; and it makes no difference what `copyuvm` does where the
source panics. -/
theorem spaceSize_in_step {s₀ s : Machine N} (hboot : s₀.Boot)
    (hrun : Runs.Reaches SpaceOp.step SpaceOp.KeepsSize s₀ s) :
    (∀ p, (s.procs p).state ≠ .unused → SizedInStep s p) ∧
      (∀ p n t, (s.procs p).state = .runnable → growproc p n s = (.ok (-1), t) →
        (SameEntries s t ↔ GrowsInStep (s.procs p).sz n)) ∧
      ∀ p missing, (s.procs p).state = .runnable → forkOr missing p s = Kernel.fork p s := by
  have hsafe : SpaceSafe s := hrun.invariant (SpaceSafe.of_boot hboot)
    fun _ _ _ h hkeeps hstep ↦ h.step hkeeps hstep
  refine ⟨fun p hp ↦ hsafe.sizedInStep hp, ?_, ?_⟩
  · intro p n t hp hgrow
    exact growproc_failed hsafe (live_of_runnable hp) hgrow
  · intro p missing hp
    exact forkOr_eq hsafe (live_of_runnable hp) missing

open BootImage

/-- A process grows by two pages, forks and gives one page back. -/
theorem spaceSize_after_sbrk :
    ∃ s, Runs.runIf SpaceOp.step SpaceOp.KeepsSize [.sbrk 0 0x2000, .fork 0, .sbrk 0 (-0x1000)]
        (idle 1 100) = some s ∧ (s.procs 1).state = .runnable ∧ SizedInStep s 0 ∧
      SizedInStep s 1 := by
  have hboot : (idle 1 100).Boot := boot (by decide)
  refine Runs.exists_runIf
    (F := fun s ↦ (s.procs 0).state = .runnable ∧ (s.procs 1).state = .runnable)
    (by decide +kernel) fun s hs ⟨hparent, hchild⟩ ↦ ?_
  have hsize := (spaceSize_in_step hboot hs).1
  exact ⟨hchild, hsize 0 (live_of_runnable hparent), hsize 1 (live_of_runnable hchild)⟩

/-- A process of one page gives that page back: `growproc` returns `-1` and leaves the size, but the
page is gone, and the next `fork` panics. -/
theorem spaceSize_out_of_step :
    ∃ s₀ s : Machine 2, s₀.Boot ∧ Runs.Reaches SpaceOp.step Runs.unguarded s₀ s ∧
      (s.procs 0).state = .runnable ∧
      ¬ SizedInStep s 0 ∧ (Kernel.fork 0 s).1 = .error .panic := by
  obtain ⟨s, hs, hlive, hsz, habsent, hpanic⟩ :
      ∃ s ∈ Runs.run SpaceOp.step [.sbrk 0 (-0x1000)] (idle 1 100),
        (s.procs 0).state = .runnable ∧ (s.procs 0).sz = 0x1000 ∧ present s 0 0 = false ∧
        (Kernel.fork 0 s).1 = .error .panic := by
    decide +kernel
  refine ⟨idle 1 100, s, boot (by decide), Runs.reaches_of_run hs, hlive,
    fun hsized ↦ ?_, hpanic⟩
  have hpresent := (hsized.2 0 (by decide)).mpr (by rw [hsz]; decide)
  rw [habsent] at hpresent
  cases hpresent

end Xv6Mmap
