import Xv6Mmap.Machine.Carrying

/-!
# Frames are given back when a process dies

The pages of a process below `MMAPBASE` are released by `freevm` when it is reaped; those above are
released by `my_munmap` and `delete_mmaps`, and only if they belong to a live region.  As long as
every page above `MMAPBASE` belongs to a live region of its process, and every live region is unmapped
or shared with another process when its process goes, no frame is lost.  A fault at the end of a
region, an unmapping at an address that is not aligned and an inherited region at the end of the table
break this.
-/

namespace Xv6Mmap

open Library Prog Kernel Runs Machine Relation

variable {N : ℕ}

namespace Machine

/-- The condition on the next operation under which no frame is lost. -/
def ReturnsFrames (s : Machine N) : Op N → Prop
  | .load p addr => FaultReturns p addr s
  | .store p addr _ => FaultReturns p addr s
  | .munmap p addr size => MunmapReturns p addr size s
  | .exec p _ => DeleteReturns p s
  | .exit p => DeleteReturns p s
  | _ => True

/-- The condition on the next operation under which no frame is freed twice and none is lost. -/
def KeepsAccount (s : Machine N) (op : Op N) : Prop := s.KeepsFrames op ∧ s.ReturnsFrames op

end Machine

namespace Kernel

open Machine

variable {s t : Machine N}

/-- **One step loses no frame.** -/
theorem carries_of_step (h : Returnable s) {op : Op N} (hkeeps : s.KeepsAccount op)
    (hstep : s.step op = some t) : s.Carries t := by
  obtain ⟨hsafe, hreturns⟩ := hkeeps
  obtain ⟨hp, hrun⟩ := step_cases hstep
  have hreturn {α : Type} {c : Kernel N α}
      (hc : Triple (· = s) c (fun _ ↦ s.Carries) (CarriesOn s op.actor)) :
      Triple (· = s) (do let _ ← c) (fun _ ↦ s.Carries) (CarriesOn s op.actor) :=
    .bind hc fun _ ↦ .pure fun _ ↦ id
  have hbody : Triple (· = s) op.body (fun _ ↦ s.Carries) (CarriesOn s op.actor) := by
    cases op with
    | load p addr => exact load_carries h hp hreturns
    | store p addr b => exact store_carries h hp b hreturns
    | mmap p call => exact hreturn (myMmap_carries h hp hsafe)
    | munmap p addr size => exact hreturn (myMunmap_carries h hp hsafe hreturns)
    | fork p => exact hreturn (fork_carries h hp)
    | exec p image => exact hreturn (exec_carries h hp image hreturns)
    | exit p => exact exit_carries h hp hreturns
    | wait p => exact hreturn (wait_carries h)
  have hresult := hbody s rfl
  rcases hrun with hrun | ⟨u, e, hrun, hsleeps, rfl⟩
  · rw [hrun] at hresult
    exact hresult
  · rw [hrun] at hresult
    exact hresult hsleeps

theorem Returnable.step (h : Returnable s) {op : Op N} (hkeeps : s.KeepsAccount op)
    (hstep : s.step op = some t) : Returnable t where
  safe := h.safe.step hkeeps.1 hstep
  tabled d := (systemFrame_tabled d).rel_step hstep (h.tabled d)
  covered := (carries_of_step h hkeeps hstep).covered

theorem Returnable.of_boot (hboot : s.Boot) : Returnable s where
  safe := hboot.frameSafe
  tabled := hboot.tabled
  covered q hq v f hv _ hmaps := by
    have hinit : q = s.initproc := by
      by_contra hne
      rw [hboot.unused q hne] at hq
      cases hq
    rw [hinit] at hmaps
    -- `init` maps its first page only
    obtain rfl : v = 0 := (hboot.init_pages v).mp hmaps.1
    exact absurd hv (by decide)

end Kernel

open Machine

variable {s₀ s₁ s t : Machine N} {p q : Fin N}

/-- Frame `f` is on the free list in a state of the run of `ops` from `s`. -/
def FreeDuring (f : Word) : List (Op N) → Machine N → Prop
  | [], s => f ∈ s.freelist
  | op :: rest, s => f ∈ s.freelist ∨ ∃ t, s.step op = some t ∧ FreeDuring f rest t

theorem FreeDuring.of_free {f : Word} (h : f ∈ s.freelist) (ops : List (Op N)) :
    FreeDuring f ops s := by
  cases ops with
  | nil => exact h
  | cons op rest => exact .inl h

/-- What each step keeps of a frame unless it frees it, in the course of a run. -/
theorem kept_or_freed {P : Machine N → Prop} {f : Word} {ops : List (Op N)}
    (hP : ∀ u u' : Machine N, u.Carries u' → P u → f ∈ u'.freelist ∨ P u')
    (hreturnable : Returnable s₁) (hrun : Takes step KeepsAccount ops s₁ s) (h : P s₁) :
    FreeDuring f ops s₁ ∨ P s := by
  induction ops generalizing s₁ with
  | nil =>
    cases hrun
    exact .inr h
  | cons op rest ih =>
    obtain ⟨hkeeps, u, hstep, hrest⟩ := hrun
    rcases hP _ _ (carries_of_step hreturnable hkeeps hstep) h with hfree | hkept
    · exact .inl (.inr ⟨u, hstep, .of_free hfree rest⟩)
    · refine (ih (hreturnable.step hkeeps hstep) hrest hkept).imp_left ?_
      exact fun hlater ↦ .inr ⟨u, hstep, hlater⟩

/-- The step in which `wait` by `p` reaps `q`. -/
theorem reaped_of_step (hsafe : FrameSafe s) (htabled : ∀ d, (s.pgdirs d).Tabled)
    (hfind : findZombie s p = some q) (hwait : s.step (.wait p) = some t) : Reaped s q t := by
  obtain ⟨_, hrun⟩ := call_cases (c := Kernel.wait p) rfl hwait
  have hresult := wait_reaped (p := p) hsafe htabled s rfl
  rcases hrun with ⟨r, hcall⟩ | ⟨u, e, hcall, hsleeps, _⟩
  · rw [hcall] at hresult
    cases r with
    | none =>
      rw [Kernel.wait, bind_of_ok (get_apply s), hfind] at hcall
      obtain ⟨_, _, _, hcall⟩ := bind_eq_ok hcall
      obtain ⟨_, _, _, hcall⟩ := bind_eq_ok hcall
      obtain ⟨_, _, _, hcall⟩ := bind_eq_ok hcall
      obtain ⟨_, _, _, hcall⟩ := bind_eq_ok hcall
      cases hcall
    | some q' =>
      obtain ⟨hfind', hreaped⟩ := hresult
      rw [hfind] at hfind'
      cases hfind'
      exact hreaped
  · have hnever := neverStuck_wait (p := p) s
    rw [hcall] at hnever
    rw [hnever e rfl] at hsleeps
    cases hsleeps

/-- **No frame is lost when a process dies.**  In every run from boot all of whose operations meet the
condition, once a process has been reaped every frame that it has mapped during its life is on the free
list or mapped by another process, or has been on the free list in the course of its life; its
page-table pages, its page directory and its kernel stack are on the free list. -/
theorem frames_returned {ops : List (Op N)} (hboot : s₀.Boot)
    (hbefore : Runs.Reaches Machine.step Machine.KeepsAccount s₀ s₁)
    (hlife : Runs.Takes Machine.step Machine.KeepsAccount ops s₁ s)
    (hfind : findZombie s p = some q) (hwait : s.step (.wait p) = some t) :
    (∀ v f, f ≠ 0 → s₁.Alive q → MapsFrame s₁ q v f →
      f ∈ t.freelist ∨ (∃ r, r ≠ q ∧ t.Alive r ∧ MapsFrame t r v f) ∨ FreeDuring f ops s₁) ∧
      (∀ i f, (s.pgdirs (s.procs q).pgdir).tabs i = some f → f ∈ t.freelist) ∧
      (s.procs q).pgdir ∈ t.freelist ∧ (s.procs q).kstack ∈ t.freelist := by
  have hstart : Returnable s₁ := hbefore.invariant (Returnable.of_boot hboot)
    fun _ _ _ h hkeeps hstep ↦ h.step hkeeps hstep
  have hend : Returnable s :=
    hlife.reaches.invariant hstart fun _ _ _ h hkeeps hstep ↦ h.step hkeeps hstep
  have hzombie := findZombie_state hfind
  have hreaped := reaped_of_step hend.safe hend.tabled hfind hwait
  refine ⟨fun v f hf halive hmaps ↦ ?_, hreaped.tables, hreaped.dir, hreaped.stack⟩
  by_cases hlow : v < mmapVpn
  · have hkept := kept_or_freed
      (P := fun u ↦ (u.procs q).state ≠ .unused ∧ MapsFrame u q v f)
      (fun _ _ hcarries h ↦ hcarries.low q v f h.1 hlow hf h.2) hstart hlife ⟨halive.1, hmaps⟩
    rcases hkept with hfree | ⟨_, hmapped⟩
    · exact Or.inr (Or.inr hfree)
    · have hfreed := hreaped.pages v hlow hmapped.1
      rw [hmapped.2] at hfreed
      exact Or.inl hfreed
  · have hhigh : mmapVpn ≤ v := BitVec.not_lt.mp hlow
    have hkept := kept_or_freed (P := fun u ↦ ∃ r, u.Alive r ∧ MapsFrame u r v f)
      (fun _ _ hcarries ⟨r, hr, h⟩ ↦ hcarries.high r v f hr hhigh hf h) hstart hlife
      ⟨q, halive, hmaps⟩
    rcases hkept with hfree | ⟨r, hr, hmapped⟩
    · exact Or.inr (Or.inr hfree)
    · have hrq : r ≠ q := by
        rintro rfl
        exact hr.2 hzombie
      have hlive : (s.procs q).state ≠ .unused := by
        rw [hzombie]
        decide
      refine Or.inr (Or.inl ⟨r, hrq, ?_, ?_⟩)
      · rw [Alive, hreaped.others r hrq]
        exact hr
      · exact (hreaped.maps_other hrq (hend.apart hlive hrq hr.1) v f).mpr hmapped

/-- A private page at a fixed address. -/
def fixedPage : MmapCall :=
  { BootImage.anonymousPage with
    addr := mmapBase
    flags := mapPrivate ||| mapAnonymous ||| mapFixed }

/-- Two processes only share a frame at the same page. -/
theorem page_eq_of_mapsFrame (h : FrameSafe s) {q r : Fin N} (hq : (s.procs q).state ≠ .unused)
    (hr : (s.procs r).state ≠ .unused) {v w : Vpn} {f : Word} (hf : f ≠ 0)
    (hqv : MapsFrame s q v f) (hrw : MapsFrame s r w f) : v = w := by
  have hfirst : s.Owns s.liveDirs ∅ (.page (s.procs q).pgdir v) f :=
    ⟨mem_liveDirs hq, hqv.1, hqv.2, hf⟩
  have hsecond : s.Owns s.liveDirs ∅ (.page (s.procs r).pgdir w) f :=
    ⟨mem_liveDirs hr, hrw.1, hrw.2, hf⟩
  rcases h.sound.owners.exclusive _ _ f hfirst hsecond with hequal | hsharing
  · exact (Owner.page.inj hequal).2
  · obtain ⟨_, _, _, hpage, hpage', _⟩ := hsharing.exists_pages
    rw [(Owner.page.inj hpage).2, (Owner.page.inj hpage').2]

open BootImage

/-- A child maps a private page, touches it and exits; then its parent reaps it. -/
theorem frames_returned_after_exit :
    ∃ s₁ s t : Machine 2, ∃ f, s₁.Alive 1 ∧ f ≠ 0 ∧ MapsFrame s₁ 1 (vpn mmapBase) f ∧
      findZombie s 0 = some 1 ∧ s.step (.wait 0) = some t ∧
      (f ∈ t.freelist ∨ (∃ r, r ≠ 1 ∧ t.Alive r ∧ MapsFrame t r (vpn mmapBase) f) ∨
        FreeDuring f [.exit 1] s₁) ∧
      (s.procs 1).pgdir ∈ t.freelist ∧ (s.procs 1).kstack ∈ t.freelist := by
  obtain ⟨w, hfork, hsafe, x, hmmap, hcovers, s₁, hload, hrunnable, hpresent, hframe, hdelete,
      hplain, s, hexit, hzombie, hsome⟩ :
      ∃ w ∈ (idle 1 100).step (.fork 0), MmapSafe 1 fixedPage w ∧
        ∃ x ∈ w.step (.mmap 1 fixedPage), (x.procs 1).mmaps.Covers (vpn mmapBase) ∧
        ∃ s₁ ∈ x.step (.load 1 mmapBase), (s₁.procs 1).state = .runnable ∧
        ((s₁.pgdirs (s₁.procs 1).pgdir).pte (vpn mmapBase)).has pteP = true ∧
        pteAddr ((s₁.pgdirs (s₁.procs 1).pgdir).pte (vpn mmapBase)) ≠ 0 ∧ DeleteSafe 1 s₁ ∧
        (∀ i < (s₁.procs 1).mmaps.total.toNat, Uncounted (s₁.procs 1).mmaps i ∧
          MmapRegion.writesBack ((s₁.procs 1).mmaps i) = false) ∧
        ∃ s ∈ s₁.step (.exit 1), findZombie s 0 = some 1 ∧ (s.step (.wait 0)).isSome := by
    decide +kernel
  obtain ⟨t, hwait⟩ := Option.isSome_iff_exists.mp hsome
  have hreturns : DeleteReturns 1 s₁ := by
    refine ⟨fun i hi _ hwrites ↦ ?_, fun i hi hcounted ↦ absurd (hplain i hi).1 hcounted⟩
    rw [(hplain i hi).2] at hwrites
    cases hwrites
  have hboot : (idle 1 100).Boot := boot (by decide)
  have hbefore : Reaches step KeepsAccount (idle 1 100) s₁ :=
    ((ReflTransGen.single ⟨.fork 0, ⟨trivial, trivial⟩, hfork⟩).tail
      ⟨.mmap 1 fixedPage, ⟨hsafe, trivial⟩, hmmap⟩).tail
      ⟨.load 1 mmapBase, ⟨trivial, fun _ _ _ ↦ hcovers⟩, hload⟩
  have hlife : Takes step KeepsAccount [.exit 1] s₁ s := ⟨⟨hdelete, hreturns⟩, s, hexit, rfl⟩
  obtain ⟨hframes, _, hdir, hstack⟩ := frames_returned hboot hbefore hlife hzombie hwait
  exact ⟨s₁, s, t, _, alive_of_runnable hrunnable, hframe, ⟨hpresent, rfl⟩, hzombie, hwait,
    hframes _ _ hframe (alive_of_runnable hrunnable) ⟨hpresent, rfl⟩, hdir, hstack⟩

/-- A child maps a private page, touches it and unmaps it with an address below it that is not
aligned: the entry is found and dropped, but the loop frees from the address given on and misses the
page.  After the child has been reaped the frame is neither free nor mapped, and it has never been
free in between. -/
theorem frame_lost_after_unaligned_munmap :
    ∃ s₀ s₁ s t : Machine 2, ∃ ops v f, s₀.Boot ∧
      Runs.Reaches Machine.step Runs.unguarded s₀ s₁ ∧ s₁.Alive 1 ∧ f ≠ 0 ∧ MapsFrame s₁ 1 v f ∧
      Runs.Takes Machine.step Runs.unguarded ops s₁ s ∧ findZombie s 0 = some 1 ∧
      s.step (.wait 0) = some t ∧ f ∉ t.freelist ∧ ¬ FreeDuring f ops s₁ ∧
      ∀ r w, (t.procs r).state ≠ .unused → ¬ MapsFrame t r w f := by
  obtain ⟨s₁, hs₁, hrunnable, hpresent, hframe, hunmap, x, hmunmap, hdelete, s, hexit, hzombie,
      hsame, hother, t, hwait, hfree⟩ :
      ∃ s₁ ∈ runIf step KeepsFrames [.fork 0, .mmap 1 fixedPage, .load 1 mmapBase] (idle 1 100),
        (s₁.procs 1).state = .runnable ∧
        ((s₁.pgdirs (s₁.procs 1).pgdir).pte (vpn mmapBase)).has pteP = true ∧
        pteAddr ((s₁.pgdirs (s₁.procs 1).pgdir).pte (vpn mmapBase)) ≠ 0 ∧
        MunmapSafe 1 (mmapBase - 1) pgSize s₁ ∧
        ∃ x ∈ s₁.step (.munmap 1 (mmapBase - 1) pgSize), DeleteSafe 1 x ∧
        ∃ s ∈ x.step (.exit 1), findZombie s 0 = some 1 ∧
        (s.pgdirs (s.procs 1).pgdir).pte (vpn mmapBase) =
          (s₁.pgdirs (s₁.procs 1).pgdir).pte (vpn mmapBase) ∧
        ((s.pgdirs (s.procs 0).pgdir).pte (vpn mmapBase)).has pteP = false ∧
        ∃ t ∈ s.step (.wait 0), [s₁, x, s, t].all fun u ↦
          pteAddr ((s₁.pgdirs (s₁.procs 1).pgdir).pte (vpn mmapBase)) ∉ u.freelist := by
    decide +kernel
  have hboot : (idle 1 100).Boot := boot (by decide)
  have hbefore := reaches_of_runIf hs₁
  have hlife : Reaches step KeepsFrames s₁ s :=
    (ReflTransGen.single ⟨.munmap 1 (mmapBase - 1) pgSize, hunmap, hmunmap⟩).tail
      ⟨.exit 1, hdelete, hexit⟩
  have hwhole : Reaches step KeepsFrames (idle 1 100) s := hbefore.trans hlife
  have hsafe : FrameSafe s :=
    hwhole.invariant hboot.frameSafe fun _ _ _ h hkeeps hstep ↦ h.step hkeeps hstep
  have htabled (d : Word) : (s.pgdirs d).Tabled :=
    hwhole.invariant (hboot.tabled d) fun _ _ _ h _ hstep ↦
      (systemFrame_tabled d).rel_step hstep h
  have hreaped := reaped_of_step hsafe htabled hzombie hwait
  have hlive : (s.procs 1).state ≠ .unused := by
    rw [findZombie_state hzombie]
    decide
  simp only [List.all_cons, List.all_nil, Bool.and_true, Bool.and_eq_true,
    decide_eq_true_eq] at hfree
  obtain ⟨hfree₁, hfreex, hfrees, hfreet⟩ := hfree
  have hnever : ¬ FreeDuring (pteAddr ((s₁.pgdirs (s₁.procs 1).pgdir).pte (vpn mmapBase)))
      [.munmap 1 (mmapBase - 1) pgSize, .exit 1] s₁ := by
    rintro (hfirst | ⟨x', hx', hsecond | ⟨s', hs', hthird⟩⟩)
    · exact hfree₁ hfirst
    · obtain rfl : x = x' := Option.mem_unique hmunmap hx'
      exact hfreex hsecond
    · obtain rfl : x = x' := Option.mem_unique hmunmap hx'
      obtain rfl : s = s' := Option.mem_unique hexit hs'
      exact hfrees hthird
  refine ⟨idle 1 100, s₁, s, t, [.munmap 1 (mmapBase - 1) pgSize, .exit 1], vpn mmapBase, _, hboot,
    hbefore.unguard,
    alive_of_runnable hrunnable, hframe, ⟨hpresent, rfl⟩,
    ⟨trivial, x, hmunmap, trivial, s, hexit, rfl⟩, hzombie, hwait, hfreet, hnever,
    fun r v hr hmaps ↦ ?_⟩
  -- Only process 0 is left, and it maps nothing at the page that the child had mapped.
  have hrq : r ≠ 1 := by
    rintro rfl
    exact hr hreaped.state
  rw [hreaped.others r hrq] at hr
  have hzero : r = 0 := (show ∀ r : Fin 2, r ≠ 1 → r = 0 by decide) r hrq
  have hdir : (s.procs r).pgdir ≠ (s.procs 1).pgdir := fun hequal ↦
    hrq (hsafe.separate r 1 hr hlive hequal)
  have hmapped := (hreaped.maps_other hrq hdir v _).mp hmaps
  have hpage : v = vpn mmapBase :=
    page_eq_of_mapsFrame hsafe hr hlive hframe hmapped ⟨by rw [hsame, hpresent], by rw [hsame]⟩
  rw [hzero, hpage, MapsFrame, hother] at hmapped
  cases hmapped.1

end Xv6Mmap
