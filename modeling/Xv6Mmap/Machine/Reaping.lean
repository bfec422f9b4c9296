import Xv6Mmap.Machine.Unmapping

/-!
# Releasing address spaces (`freevm`, `wait`, `exit`, `exec`)

`freevm` puts the frames behind the present pages below `MMAPBASE` on the free list, then the
page-table pages and the directory.  What is mapped above is left to `delete_mmaps`, which `exit` and
`exec` call before.
-/

namespace Xv6Mmap

open Function Library Prog List Proc

variable {N : ℕ}

/-! ## `freevm` -/

/-- Since `s`, frames have only been given back: an entry of directory `d` is as it was, or the frame
behind it is free. -/
structure Returning (d : Word) (s t : Machine N) : Prop where
  tabs : (t.pgdirs d).tabs = (s.pgdirs d).tabs
  pages : ∀ v, (t.pgdirs d).pte v = (s.pgdirs d).pte v ∨ pteAddr ((s.pgdirs d).pte v) ∈ t.freelist
  free : ∀ f ∈ s.freelist, f ∈ t.freelist

theorem Returning.refl (d : Word) (s : Machine N) : Returning d s s :=
  ⟨rfl, fun _ ↦ .inl rfl, fun _ ↦ id⟩

/-- Directory `d` has been released: its frames below `MMAPBASE`, its page-table pages and the
directory itself are free, and no other directory has been touched. -/
structure Released (d : Word) (s t : Machine N) : Prop where
  rest : Paged s t
  others : ∀ d', d' ≠ d → t.pgdirs d' = s.pgdirs d'
  pages : ∀ v < mmapVpn, ((s.pgdirs d).pte v).has pteP = true →
    pteAddr ((s.pgdirs d).pte v) ∈ t.freelist
  tables : ∀ i f, (s.pgdirs d).tabs i = some f → f ∈ t.freelist
  dir : d ∈ t.freelist
  free : ∀ f ∈ s.freelist, f ∈ t.freelist

namespace Kernel

open Machine

variable {s t : Machine N} {p : Fin N} {d : Word}

/-- Freeing a frame puts it on the free list. -/
theorem kfree_frees (f : Word) (s : Machine N) :
    Triple (· = s) (kfree f)
      (fun _ t ↦ t.freelist = f :: s.freelist ∧ t.pgdirs = s.pgdirs ∧ t.procs = s.procs ∧
        Paged s t) fun _ _ ↦ True := by
  rintro t rfl
  rw [kfree_apply]
  by_cases hbad : (f % pgSize != 0 || f < t.kend || physTop ≤ f) = true
  · rw [if_pos hbad]
    trivial
  · rw [if_neg hbad]
    exact ⟨rfl, rfl, rfl, rfl⟩

theorem Returning.push {u : Machine N} {f : Word} (h : Returning d s t)
    (hfree : u.freelist = f :: t.freelist) (hdirs : u.pgdirs = t.pgdirs) : Returning d s u where
  tabs := by rw [hdirs, h.tabs]
  pages v := by
    rw [hdirs, hfree]
    exact (h.pages v).imp_right fun hmem ↦ mem_cons_of_mem f hmem
  free g hg := by
    rw [hfree]
    exact mem_cons_of_mem f (h.free g hg)

theorem freePage_returning (v : Vpn) :
    Triple (Returning d s) (freePage d v) (fun _ ↦ Returning d s) fun _ _ ↦ True := by
  refine .of_forall fun t ht ↦ ?_
  refine .bind (Q := fun pte u ↦ pte = (t.pgdirs d).pte v ∧ u = t) ?_ fun pte ↦ ?_
  · rintro u rfl
    exact ⟨rfl, rfl⟩
  · refine .of_forall ?_
    rintro u ⟨rfl, rfl⟩
    split
    · split
      · exact .halt fun _ _ ↦ trivial
      · refine .bind (kfree_frees _ u) fun _ ↦ .modify ?_
        rintro w ⟨hfree, hdirs, _⟩
        have hw : Returning d s w := Returning.push ht hfree hdirs
        refine ⟨?_, fun v' ↦ ?_, hw.free⟩
        · simp only [update_self]
          exact hw.tabs
        · by_cases hv : v' = v
          · grind [ht.pages]
          · simp only [update_self, update_of_ne hv]
            exact hw.pages v'
    · refine .pure_at ?_
      exact ht

/-- The page-table pages of a list of directory entries become free. -/
theorem freePageTables_returning (done : BitVec 10 → Prop) (indices : List (BitVec 10)) :
    Triple (fun t ↦ Returning d s t ∧ ∀ i, done i → ∀ f, (s.pgdirs d).tabs i = some f → f ∈ t.freelist)
      (freePageTables d indices)
      (fun _ t ↦ Returning d s t ∧ ∀ i, done i ∨ i ∈ indices → ∀ f, (s.pgdirs d).tabs i = some f →
        f ∈ t.freelist) fun _ _ ↦ True := by
  induction indices generalizing done with
  | nil =>
    refine .pure fun t ht ↦ ⟨ht.1, fun i hi ↦ ht.2 i ?_⟩
    exact hi.resolve_right not_mem_nil
  | cons i rest ih =>
    refine .get_bind fun t ht ↦ ?_
    have hnext := ih fun j ↦ done j ∨ j = i
    have hpost (u : Machine N) (hu : Returning d s u ∧ ∀ j, (done j ∨ j = i) ∨ j ∈ rest →
        ∀ f, (s.pgdirs d).tabs j = some f → f ∈ u.freelist) :
        Returning d s u ∧ ∀ j, done j ∨ j ∈ i :: rest →
          ∀ f, (s.pgdirs d).tabs j = some f → f ∈ u.freelist := by
      refine ⟨hu.1, fun j hj ↦ hu.2 j ?_⟩
      rw [mem_cons, ← or_assoc] at hj
      exact hj
    cases htab : (t.pgdirs d).tabs i with
    | none =>
      refine (hnext.at_state ⟨ht.1, ?_⟩).post (fun _ u ↦ hpost u) fun _ _ ↦ id
      rintro j (hj | rfl) f hf
      · exact ht.2 j hj f hf
      · rw [← ht.1.tabs, htab] at hf
        cases hf
    | some pgtab =>
      refine .bind (kfree_frees pgtab t) fun _ ↦ .of_forall ?_
      rintro u ⟨hfree, hdirs, _⟩
      refine (hnext.at_state ⟨Returning.push ht.1 hfree hdirs, ?_⟩).post (fun _ u ↦ hpost u)
        fun _ _ ↦ id
      rw [hfree]
      rintro j (hj | rfl) f hf
      · exact mem_cons_of_mem _ (ht.2 j hj f hf)
      · rw [← ht.1.tabs, htab] at hf
        cases hf
        exact mem_cons_self

theorem mem_pdeIndices (i : BitVec 10) : i ∈ pdeIndices := by
  rw [pdeIndices, mem_map]
  exact ⟨i.toNat, mem_range.mpr i.isLt, BitVec.ofNat_toNat 10 i |>.trans (by simp)⟩

/-- **`freevm` releases a directory.** -/
theorem freevm_released (htabled : (s.pgdirs d).Tabled)
    (hclean : ∀ v, (s.pgdirs d).pte v ≠ 0 → ((s.pgdirs d).pte v).has pteP = true) :
    Triple (· = s) (freevm d) (fun _ ↦ Released d s) fun _ _ ↦ True := by
  have hstart : OnDir s d (· = (s.pgdirs d).pte) s := .self htabled rfl
  have hcleared := (deallocuvm_cleared (s := s) (d := d) (e := (s.pgdirs d).pte) 0
    (show mmapBase.toNat ≤ 0x60000000 by decide) fun v _ _ hne ↦ hclean v hne).at_state hstart
  have hreturning : Triple (· = s) (deallocuvm d mmapBase 0) (fun _ ↦ Returning d s)
      fun _ _ ↦ True := by
    rw [deallocuvm, if_neg (by decide)]
    refine .bind ((deallocFrom_rule (fun _ _ ↦ trivial) (fun _ _ _ _ ht ↦ ?_) _ _).at_state (.refl d s))
      fun _ ↦ .pure fun _ ↦ id
    exact (freePage_returning _).at_state ht
  have hdealloc := (hcleared.both hreturning).post (fun _ _ ↦ id)
    fun _ _ _ ↦ trivial
  have hindices := mem_pdeIndices
  rw [freevm]
  generalize pdeIndices = indices at hindices ⊢
  refine .bind hdealloc fun _ ↦ .of_forall ?_
  rintro t ⟨⟨_, honDir⟩, ht⟩
  have htables := (freePageTables_onDir (s := s) indices).at_state honDir
  have hfreed := (freePageTables_returning (d := d) (s := s) (fun _ ↦ False) indices).at_state
    ⟨ht, fun _ hfalse ↦ hfalse.elim⟩
  refine (htables.both hfreed).seq (fun _ _ _ ↦ trivial) fun _ ↦ .of_forall ?_
  rintro u ⟨honDir', hreturned, htabs⟩
  refine (kfree_frees d u).post ?_ fun _ _ _ ↦ trivial
  rintro _ w ⟨hfree, hdirs, _, hpaged⟩
  refine ⟨.trans honDir'.rest hpaged, ?_, ?_, ?_, ?_, ?_⟩
  · intro d' hne
    rw [hdirs]
    exact honDir'.others d' hne
  · intro v hv hpresent
    rw [hfree]
    refine mem_cons_of_mem _ ((hreturned.pages v).resolve_left fun hsame ↦ ?_)
    have hlow : v.toNat < max (Xv6Mmap.pages 0) (Xv6Mmap.pages mmapBase) := by
      have htop : Xv6Mmap.pages mmapBase = 0x60000 := by decide
      have hmmap : mmapVpn.toNat = 0x60000 := rfl
      rw [BitVec.lt_def, hmmap, ← htop] at hv
      exact hv.trans_le (le_max_right _ _)
    have hzero := honDir'.entries.1 v (Nat.zero_le _) hlow
    rw [hsame] at hzero
    rw [hzero, not_has_zero] at hpresent
    cases hpresent
  · intro i f hf
    rw [hfree]
    exact mem_cons_of_mem _ (htabs i (.inr (hindices i)) f hf)
  · rw [hfree]
    exact mem_cons_self
  · intro f hf
    rw [hfree]
    exact mem_cons_of_mem _ (hreturned.free f hf)

/-! ## `wait` -/

/-- Process `q` has been reaped. -/
structure Reaped (s : Machine N) (q : Fin N) (t : Machine N) : Prop where
  others : ∀ r, r ≠ q → t.procs r = s.procs r
  state : (t.procs q).state = .unused
  dirs : ∀ d, d ≠ (s.procs q).pgdir → t.pgdirs d = s.pgdirs d
  pages : ∀ v < mmapVpn, ((s.pgdirs (s.procs q).pgdir).pte v).has pteP = true →
    pteAddr ((s.pgdirs (s.procs q).pgdir).pte v) ∈ t.freelist
  tables : ∀ i f, (s.pgdirs (s.procs q).pgdir).tabs i = some f → f ∈ t.freelist
  dir : (s.procs q).pgdir ∈ t.freelist
  stack : (s.procs q).kstack ∈ t.freelist
  free : ∀ f ∈ s.freelist, f ∈ t.freelist

theorem findZombie_state {q : Fin N} (h : findZombie s p = some q) :
    (s.procs q).state = .zombie := by
  have hfound := List.find?_some h
  rw [Bool.and_eq_true] at hfound
  exact of_decide_eq_true hfound.2

/-- The entries of the directories in use are present or zero. -/
theorem FrameSafe.clean (h : FrameSafe s) {q : Fin N} (hq : (s.procs q).state ≠ .unused) (v : Vpn)
    (hne : (s.pgdirs (s.procs q).pgdir).pte v ≠ 0) :
    ((s.pgdirs (s.procs q).pgdir).pte v).has pteP = true :=
  h.sound.entries _ (mem_liveDirs hq) v hne

/-- **`wait` releases the address space and the kernel stack of the child that it reaps.** -/
theorem wait_reaped (h : FrameSafe s) (htabled : ∀ d, (s.pgdirs d).Tabled) :
    Triple (· = s) (wait p)
      (fun r t ↦ match r with
        | none => t = s
        | some q => findZombie s p = some q ∧ Reaped s q t) fun _ _ ↦ True := by
  refine .get_bind fun u hu ↦ ?_
  subst hu
  cases hfind : findZombie u p with
  | none =>
    refine .pure_at ?_
    rfl
  | some q =>
    have hlive : (u.procs q).state ≠ .unused := by
      rw [findZombie_state hfind]
      decide
    refine .bind (kfree_frees _ u) fun _ ↦ ?_
    refine .bind (Q := fun _ v ↦ v.freelist = (u.procs q).kstack :: u.freelist ∧
      v.pgdirs = u.pgdirs ∧ ∀ r, r ≠ q → v.procs r = u.procs r) (.modify ?_) fun _ ↦ ?_
    · grind
    refine .of_forall ?_
    rintro v ⟨hfree, hdirs, hothers⟩
    have hrelease := freevm_released (s := v) (d := (u.procs q).pgdir) (hdirs ▸ htabled _)
      (hdirs ▸ FrameSafe.clean h hlive)
    refine .bind hrelease fun _ ↦ .modify_bind fun w hw ↦ .pure_at ?_
    have hprocs : w.procs = v.procs := by rw [hw.rest]
    have hfree' : ∀ f ∈ (u.procs q).kstack :: u.freelist, f ∈ w.freelist := by
      rw [← hfree]
      exact hw.free
    refine ⟨rfl, ?_, ?_, ?_, ?_, ?_, hw.dir, hfree' _ mem_cons_self,
      fun f hf ↦ hfree' f (mem_cons_of_mem _ hf)⟩
    · intro r hr
      dsimp only
      rw [update_of_ne hr, hprocs, hothers r hr]
    · simp only [update_self]
    · intro d hd
      dsimp only
      rw [hw.others d hd, hdirs]
    · rw [← hdirs]
      exact hw.pages
    · rw [← hdirs]
      exact hw.tables

/-! ## `exit` -/

/-- Process `p` has lost the pages of its regions from `m` on; apart from that no page table has
changed. -/
structure Emptied (s : Machine N) (p : Fin N) (m : ℕ) (t : Machine N) : Prop where
  le_total : m ≤ (s.procs p).mmaps.total.toNat
  freed : Freed (s.procs p).pgdir (pagesAbove (s.procs p).mmaps m) s t
  pgdir : ∀ q, (t.procs q).pgdir = (s.procs q).pgdir
  state : ∀ q, q ≠ p → (t.procs q).state = (s.procs q).state

theorem FreedAbove.emptied {m : ℕ} (h : FreedAbove s p m t) : Emptied s p m t := { h with
  pgdir q := by
    by_cases hq : q = p
    · rw [hq, h.proc]
    · rw [h.others q hq]
  state q hq := by rw [h.others q hq] }

/-- Closing files does not get in the way of a write-back. -/
theorem WritesOut.of_filesFrame (h : WritesOut s p) (hrel : filesFrame.rel s t) :
    WritesOut t p := by
  have hrest := eq_of_filesFrame hrel
  have hfile (f : Word) : uncounted (t.files f) = uncounted (s.files f) :=
    congrFun (congrArg Machine.files hrel) f
  refine h.congr (mmaps_of_filesFrame hrel p) (fun addr ↦ ?_) ⟨fun f ↦ ⟨?_, ?_⟩, fun ip ↦ ?_⟩
  · rw [present, present, pgdir_of_core (core_of_filesFrame hrel p), hrest]
  · have hfield := congrArg File.writable (hfile f)
    exact hfield
  · have hfield := congrArg File.ip (hfile f)
    exact hfield
  · rw [hrest]
    exact .refl _

/-- **What `exit` does to page tables.** -/
theorem exit_emptied (hwell : (s.procs p).mmaps.WellFormed)
    (htabled : (s.pgdirs (s.procs p).pgdir).Tabled) (hwrites : WritesOut s p) :
    Triple (· = s) (exit p)
      (fun _ t ↦ (t.procs p).state = .zombie ∧
        ∃ m, Emptied s p m t ∧ StopsAt (s.procs p).mmaps m)
      fun e t ↦ e.sleeps = true → ∃ m, Emptied s p m t := by
  refine exit_rule (V := filesFrame.rel s)
    (D := fun w ↦ ∃ m, Emptied s p m w ∧ StopsAt (s.procs p).mmaps m) (nofun)
    ((neverStuck_closeFiles p _).awake (.of_frame (respects_closeFiles p _) s))
    (fun v hv ↦ ?_) fun w t hw ht ↦ ?_
  · have hmmaps := mmaps_of_filesFrame hv p
    have hpgdir (q : Fin N) := pgdir_of_core (core_of_filesFrame hv q)
    have hstate (q : Fin N) := state_of_core (core_of_filesFrame hv q)
    have hdirs : v.pgdirs = s.pgdirs := by rw [eq_of_filesFrame hv]
    have hfree : v.freelist = s.freelist := by rw [eq_of_filesFrame hv]
    have hback {m : ℕ} {t : Machine N} (ht : Emptied v p m t) : Emptied s p m t := by
      have hfreed := ht.freed.congr hdirs hfree
      rw [hpgdir, hmmaps] at hfreed
      refine ⟨hmmaps ▸ ht.le_total, hfreed, fun q ↦ ?_, fun q hq ↦ ?_⟩
      · rw [ht.pgdir, hpgdir]
      · rw [ht.state q hq, hstate]
    have hdelete := deleteMmaps_freed (hmmaps.symm ▸ hwell)
      (by rw [hdirs, hpgdir]; exact htabled) (hwrites.of_filesFrame hv)
    refine hdelete.post (fun _ t ht ↦ ?_) fun e t ht hstuck ↦ ?_
    · obtain ⟨m, ht, hstop⟩ := ht
      exact ⟨m, hback ht.emptied, hmmaps ▸ hstop⟩
    · obtain ⟨m, hm⟩ := ht hstuck
      exact ⟨m, hback hm.emptied⟩
  · obtain ⟨m, hemptied, hstop⟩ := hw
    refine ⟨by rw [ht.self], m, ⟨hemptied.le_total, ?_, fun q ↦ ?_, fun q hq ↦ ?_⟩, hstop⟩
    · rw [ht.rest]
      exact { hemptied.freed with }
    · rw [← hemptied.pgdir q]
      by_cases hq : q = p
      · rw [hq, ht.self]
      · rw [ht.others q hq]
    · rw [ht.others q hq, hemptied.state q hq]

/-! ## `exec` -/

/-- Process `p` has got a new image: its old pages below `MMAPBASE` and those of its regions from `m`
on are free, and nothing is mapped above `MMAPBASE`. -/
structure Vacated (s : Machine N) (p : Fin N) (m : ℕ) (t : Machine N) : Prop where
  le_total : m ≤ (s.procs p).mmaps.total.toNat
  stops : StopsAt (s.procs p).mmaps m
  others : ∀ q, q ≠ p → t.procs q = s.procs q
  state : (t.procs p).state = (s.procs p).state
  dirs : ∀ d, d ∉ s.freelist → d ≠ (s.procs p).pgdir → t.pgdirs d = s.pgdirs d
  image : ∀ v < mmapVpn, ((s.pgdirs (s.procs p).pgdir).pte v).has pteP = true →
    pteAddr ((s.pgdirs (s.procs p).pgdir).pte v) ∈ t.freelist
  regions : ∀ v ∈ pagesAbove (s.procs p).mmaps m, pteAddr ((s.pgdirs (s.procs p).pgdir).pte v) ≠ 0 →
    pteAddr ((s.pgdirs (s.procs p).pgdir).pte v) ∈ t.freelist
  area : ∀ v, mmapVpn ≤ v → (t.pgdirs (t.procs p).pgdir).pte v = 0

/-- What `exec` comes to. -/
def ExecReplaced (s : Machine N) (p : Fin N) : Bool → Machine N → Prop
  | false, t => Untouched s t
  | true, t => ∃ m, Vacated s p m t

theorem OnDir.writesOut {I : (Vpn → Word) → Prop} (h : OnDir s d I t) (hd : (s.procs p).pgdir ≠ d)
    (hwrites : WritesOut s p) : WritesOut t p := by
  have hprocs : t.procs = s.procs := by rw [h.rest]
  refine hwrites.congr (by rw [hprocs]) (fun addr ↦ ?_) ⟨fun f ↦ ?_, fun ip ↦ ?_⟩
  · rw [present, present, hprocs, h.others _ hd]
  · rw [h.rest]
    exact ⟨rfl, rfl⟩
  · rw [h.rest]
    exact .refl _

/-- **What `exec` does to page tables.** -/
theorem exec_replacing (h : FrameSafe s) (hp : (s.procs p).state = .runnable) (image : ExecImage)
    (htabled : ∀ d, (s.pgdirs d).Tabled) (hwrites : WritesOut s p) :
    Triple (· = s) (exec p image) (ExecReplaced s p)
      fun e t ↦ e.sleeps = true → ∃ u m, Untouched s u ∧ FreedAbove u p m t := by
  have hlive := live_of_runnable hp
  have hnotFree : (s.procs p).pgdir ∉ s.freelist :=
    h.sound.not_free (o := .dir (s.procs p).pgdir) ⟨mem_liveDirs hlive, rfl⟩
  have hne {d : Word} (hd : d ∈ s.freelist) : (s.procs p).pgdir ≠ d := fun heq ↦
    hnotFree (heq ▸ hd)
  refine exec_rule (D := fun d sz v ↦ ∃ u m, d ∈ s.freelist ∧ sz.toNat < 0x60000000 ∧
      OnDir s d (Filled noEntries 0 (Xv6Mmap.pages sz)) u ∧ FreedAbove u p m v ∧
      StopsAt (u.procs p).mmaps m)
    (nofun) (fun _ ↦ id) (fun d sz u hmem hsz hu ↦ ?_) ?_
  · have hdelete := deleteMmaps_freed (s := u) (p := p) (by
      rw [hu.procs_eq]
      exact (h.fit p hp).1.1) (by
      rw [hu.procs_eq, hu.others _ (hne hmem)]
      exact htabled _) (OnDir.writesOut hu (hne hmem) hwrites)
    refine hdelete.post (fun _ v hv ↦ ?_) fun e v hv hsleeps ↦ ?_
    · obtain ⟨m, hv, hstop⟩ := hv
      exact ⟨u, m, hmem, hsz, hu, hv, hstop⟩
    · obtain ⟨m, hv⟩ := hv hsleeps
      exact ⟨u, m, hu.untouched hmem, hv⟩
  · rintro d sz v ⟨u, m, hmem, hsz, hu, hv, hstop⟩
    have hne := hne hmem
    have hprocs := hu.procs_eq
    have hdir : u.pgdirs (s.procs p).pgdir = s.pgdirs (s.procs p).pgdir := hu.others _ hne
    have hfreed := hv.freed
    have hle := hv.le_total
    rw [hprocs] at hfreed hstop hle
    have hclean (x : Vpn) (hx : (v.pgdirs (s.procs p).pgdir).pte x ≠ 0) :
        ((v.pgdirs (s.procs p).pgdir).pte x).has pteP = true := by
      grind [hfreed.pte_cases, FrameSafe.clean]
    rw [show (v.procs p).pgdir = (s.procs p).pgdir by rw [hv.proc, hprocs]]
    -- The old directory is freed last, from a state in which no process uses it.
    refine neverStuck_freevm.awake ((freevm_released (by exact hfreed.tabled) (by exact hclean)).post
      (fun _ x hx ↦ ?_) fun _ _ ↦ id)
    have hothers (q : Fin N) (hq : q ≠ p) : x.procs q = s.procs q := by
      rw [hx.rest]
      simp only [update_of_ne hq]
      rw [hv.others q hq, hprocs]
    have hself : x.procs p = { v.procs p with pgdir := d, sz := sz } := by
      rw [hx.rest]
      simp only [update_self]
    refine ⟨m, hle, hstop, hothers, ?_, ?_, ?_, ?_, ?_⟩
    · rw [hself, hv.proc, hprocs]
    · intro d' hd' hne'
      rw [hx.others d' hne', hfreed.tables d' hne']
      exact hu.others d' fun heq ↦ hd' (heq ▸ hmem)
    · intro y hy hpresent
      rw [← hdir] at hpresent ⊢
      rcases hfreed.pte_cases y with hsame | ⟨_, _, hfree⟩
      · rw [← hsame] at hpresent ⊢
        exact hx.pages y hy hpresent
      · exact hx.free _ hfree
    · grind [hx.free, hfreed.freed]
    · intro y hy
      rw [hself]
      dsimp only
      rw [hx.others d hne.symm, hfreed.tables d hne.symm, hu.entries.2 y ?_]
      · rfl
      · have hmmap : mmapVpn.toNat = 0x60000 := rfl
        rw [BitVec.le_def, hmmap] at hy
        unfold Xv6Mmap.pages
        omega

end Kernel

end Xv6Mmap
