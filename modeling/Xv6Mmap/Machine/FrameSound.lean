import Xv6Mmap.Machine.Frames

/-!
# Sound ownership of frames

`FrameSound E dirs reserved s` says that the free list has no duplicates, that no frame in use is on
it, and that a frame is in use in two places only if both are entries for the same page at or above
`MMAPBASE` and neither is exclusive in the sense of `E`.  `dirs` are the page directories in use and
`reserved` the frames in the hands of the running call.  This module has the primitive changes of the
state: taking and freeing a frame, filling in and clearing an entry, adding a page-table page.
-/

namespace Xv6Mmap

open Function Library Ownership Prog Machine Set

variable {N : ℕ} {pa perm d d' : Word} {o : Owner N} {v : Vpn} {D' R' : Set Word}
  {E : Word → Vpn → Prop}

/-! ## Entries -/

theorem has_pteP_or (x : Word) : (x ||| pteP).has pteP = true := by
  have hbit : (x ||| pteP) &&& pteP = pteP := by grind
  rw [Word.has, hbit]
  decide

theorem pteAddr_of_aligned (h : pa.toNat % 4096 = 0) : pteAddr pa = pa := by
  apply BitVec.eq_of_toNat_eq
  rw [toNat_pteAddr, h, Nat.sub_zero]

theorem pteAddr_of_lt (h : perm.toNat < 4096) : pteAddr perm = 0 := by
  apply BitVec.eq_of_toNat_eq
  rw [toNat_pteAddr, Nat.mod_eq_of_lt h, Nat.sub_self]
  rfl

/-- An entry built from an aligned frame and low permission bits points to that frame. -/
theorem pteAddr_entry (hpa : pa.toNat % 4096 = 0) (hperm : perm.toNat < 4096) :
    pteAddr (pa ||| perm ||| pteP) = pa := by
  have hsplit : pteAddr (pa ||| perm ||| pteP) = pteAddr pa ||| pteAddr perm ||| pteAddr pteP := by
    simp only [pteAddr, BitVec.and_or_distrib_right]
  rw [hsplit, pteAddr_of_aligned hpa, pteAddr_of_lt hperm, show pteAddr pteP = 0 by decide]
  simp

theorem pteFlags_lt (pte : Word) : (pteFlags pte).toNat < 4096 := by
  rw [pteFlags, BitVec.toNat_and]
  exact Nat.lt_of_le_of_lt Nat.and_le_right (by decide)

theorem not_has_zero (flag : Word) : (0 : Word).has flag = false := by
  simp [Word.has]

/-- The first page of the mapping area. -/
def mmapVpn : Vpn := vpn mmapBase

/-! ## The invariant -/

/-- Entries for the same page of the mapping area may share a frame, unless one is exclusive. -/
def Sharing (E : Word → Vpn → Prop) : Owner N → Owner N → Prop
  | .page d v, .page d' v' => v = v' ∧ mmapVpn ≤ v ∧ ¬ E d v ∧ ¬ E d' v'
  | _, _ => False

/-- Only pages are shared, each with the same page of another directory. -/
theorem Sharing.exists_pages {o' : Owner N} (h : Sharing E o o') :
    ∃ d d' v, o = .page d v ∧ o' = .page d' v ∧ mmapVpn ≤ v ∧ ¬ E d v ∧ ¬ E d' v := by
  cases o with
  | page d v =>
    cases o' with
    | page d' v' =>
      obtain ⟨rfl, hbase, hE, hE'⟩ := h
      exact ⟨d, d', v, rfl, rfl, hbase, hE, hE'⟩
    | _ => exact h.elim
  | _ => exact h.elim

theorem Sharing.symm {o' : Owner N} (h : Sharing E o o') :
    Sharing E o' o := by
  obtain ⟨d, d', v, rfl, rfl, hbase, hE, hE'⟩ := h.exists_pages
  exact ⟨rfl, hbase, hE', hE⟩

structure FrameSound (E : Word → Vpn → Prop) (D R : Set Word) (s : Machine N) :
    Prop where
  owners : Sound s.freelist (s.Owns D R) (Sharing E)
  free_ok : ∀ f ∈ s.freelist, f ≠ 0 ∧ f.toNat % 4096 = 0
  held_ok : ∀ o f, s.Owns D R o f → f ≠ 0 ∧ f.toNat % 4096 = 0
  entries : ∀ d ∈ D, ∀ v, (s.pgdirs d).pte v ≠ 0 →
    ((s.pgdirs d).pte v).has pteP = true
  kend_pos : 0 < s.kend

namespace Machine

variable {s s' : Machine N} {D R : Set Word} {f : Word}

/-- The state with one entry replaced. -/
def setPte (s : Machine N) (d : Word) (v : Vpn) (pte : Word) : Machine N :=
  { s with
    pgdirs := update s.pgdirs d
      { s.pgdirs d with pte := update (s.pgdirs d).pte v pte } }

theorem pte_setPte_self (s : Machine N) (d : Word) (v : Vpn) (pte : Word) :
    ((s.setPte d v pte).pgdirs d).pte v = pte := by
  simp [setPte]

theorem pte_setPte_of_ne (s : Machine N) {v' : Vpn} (pte : Word) (h : d' ≠ d ∨ v' ≠ v) :
    ((s.setPte d v pte).pgdirs d').pte v' = (s.pgdirs d').pte v' := by
  by_cases hd : d' = d
  · subst hd
    have hv : v' ≠ v := h.elim (fun hne ↦ absurd rfl hne) id
    simp [setPte, hv]
  · simp [setPte, hd]

theorem tabs_setPte (s : Machine N) (d d' : Word) (v : Vpn) (pte : Word) :
    ((s.setPte d v pte).pgdirs d').tabs = (s.pgdirs d').tabs := by
  by_cases hd : d' = d
  · subst hd
    simp [setPte]
  · simp [setPte, hd]

/-- Replacing an entry changes what that entry holds and nothing else. -/
theorem owns_setPte {pte : Word} (h : (s.setPte d v pte).Owns D R o f) :
    (o ≠ .page d v ∧ s.Owns D R o f) ∨
      (o = .page d v ∧ d ∈ D ∧ pte.has pteP = true ∧ pteAddr pte = f ∧ f ≠ 0) := by
  cases o with
  | page d' v' =>
    by_cases hsame : d' = d ∧ v' = v
    · obtain ⟨rfl, rfl⟩ := hsame
      rw [Owns, pte_setPte_self] at h
      exact .inr ⟨rfl, h⟩
    · have hne : d' ≠ d ∨ v' ≠ v := by
        by_cases hd : d' = d
        · exact .inr fun hv ↦ hsame ⟨hd, hv⟩
        · exact .inl hd
      rw [Owns, pte_setPte_of_ne s pte hne] at h
      refine .inl ⟨?_, h⟩
      rintro ⟨⟩
      exact hsame ⟨rfl, rfl⟩
  | table d' i =>
    rw [Owns, tabs_setPte] at h
    exact .inl ⟨by simp, h⟩
  | dir d' | stack p | cache i | reserved g => exact .inl ⟨by simp, h⟩

/-- Frames are held by the same owners when the parts of the state that hold them agree. -/
theorem owns_congr (hdirs : ∀ d ∈ D, s'.pgdirs d = s.pgdirs d)
    (hstack : ∀ p, (s'.procs p).kstack = (s.procs p).kstack)
    (hcache : ∀ i, (s'.pagecache.pages i).page = (s.pagecache.pages i).page)
    (h : s'.Owns D R o f) : s.Owns D R o f := by
  cases o with
  | page d v | table d i => exact ⟨h.1, hdirs d h.1 ▸ h.2⟩
  | dir d | reserved g => exact h
  | stack p => exact ⟨hstack p ▸ h.1, h.2⟩
  | cache i => exact (hcache i).symm.trans h

theorem owns_mono (hdirs : D' ⊆ D) (hreserved : R' ⊆ R) (h : s.Owns D' R' o f)
    : s.Owns D R o f := by
  cases o with
  | page d v | table d i | dir d => exact ⟨hdirs h.1, h.2⟩
  | stack p | cache i => exact h
  | reserved g => exact ⟨hreserved h.1, h.2⟩

end Machine

namespace FrameSound

variable {E : Word → Vpn → Prop} {D R : Set Word} {s s' : Machine N} {f : Word}

theorem congr (h : FrameSound E D R s) (hfree : s'.freelist = s.freelist)
    (hdirs : s'.pgdirs = s.pgdirs) (hstack : ∀ p, (s'.procs p).kstack = (s.procs p).kstack)
    (hcache : ∀ i, (s'.pagecache.pages i).page = (s.pagecache.pages i).page)
    (hkend : s'.kend = s.kend) : FrameSound E D R s' where
  owners := by
    rw [hfree]
    exact h.owners.mono fun o f ↦ owns_congr (fun d _ ↦ by rw [hdirs]) hstack hcache
  free_ok := hfree ▸ h.free_ok
  held_ok o f ho :=
    h.held_ok o f (owns_congr (fun d _ ↦ by rw [hdirs]) hstack hcache ho)
  entries := hdirs ▸ h.entries
  kend_pos := hkend ▸ h.kend_pos

/-- Directories and reserved frames may be given up. -/
theorem mono (h : FrameSound E D R s) (hdirs : D' ⊆ D)
    (hreserved : R' ⊆ R) : FrameSound E D' R' s := { h with
  owners := h.owners.mono fun _ _ ↦ owns_mono hdirs hreserved
  held_ok o f ho := h.held_ok o f (owns_mono hdirs hreserved ho)
  entries d hd := h.entries d (hdirs hd) }

/-- A page may be made exclusive when its frame is mapped by no other directory. -/
theorem of_exclusive (h : FrameSound E D R s) {E' : Word → Vpn → Prop}
    (hE : ∀ d ∈ D, ∀ d' ∈ D, ∀ v, d ≠ d' → ∀ f, s.Owns D R (.page d v) f →
      s.Owns D R (.page d' v) f → ¬ E d v → ¬ E d' v → ¬ E' d v ∧ ¬ E' d' v) :
    FrameSound E' D R s := { h with
  owners := by
    refine h.owners.of_sharing ?_
    intro o o' f hne ho ho' hsharing
    obtain ⟨d, d', v, rfl, rfl, hbase, hd, hd'⟩ := hsharing.exists_pages
    have hdirs : d ≠ d' := fun heq ↦ hne (by rw [heq])
    obtain ⟨hd, hd'⟩ := hE d ho.1 d' ho'.1 v hdirs f ho ho' hd hd'
    exact ⟨rfl, hbase, hd, hd'⟩ }

theorem not_free (h : FrameSound E D R s) (ho : s.Owns D R o f) : f ∉ s.freelist :=
  h.owners.not_free o f ho

/-- Giving up a frame of the running call. -/
theorem unreserve (h : FrameSound E D (insert f R) s) : FrameSound E D R s :=
  h.mono (subset_refl D) (subset_insert f R)

theorem owns_reserved (s : Machine N) (D R : Set Word) (f : Word) :
    s.Owns D (insert f R) (.reserved f) f :=
  ⟨mem_insert f R, rfl⟩

/-- A frame of the running call belongs to nobody else. -/
theorem not_owns_reserved (h : FrameSound E D (insert f R) s) (hf : f ∉ R) (o : Owner N) :
    ¬ s.Owns D R o f := by
  intro ho
  have ho' := owns_mono (subset_refl D) (subset_insert f R) ho
  have heq := (h.owners.exclusive _ _ _ (owns_reserved s D R f) ho').resolve_right id
  subst heq
  exact hf ho.1

theorem ioFrame (E : Word → Vpn → Prop) (D R : Set Word) :
    IoFrame (.ofInvariant (FrameSound (N := N) E D R)) where
  mem _ _ h := h.congr rfl rfl (fun _ ↦ rfl) (fun _ ↦ rfl) rfl
  pagecache _ _ hpage h := h.congr rfl rfl (fun _ ↦ rfl) hpage rfl
  inodes _ _ h := h.congr rfl rfl (fun _ ↦ rfl) (fun _ ↦ rfl) rfl
  held _ _ h := h.congr rfl rfl (fun _ ↦ rfl) (fun _ ↦ rfl) rfl
  files _ _ h := h.congr rfl rfl (fun _ ↦ rfl) (fun _ ↦ rfl) rfl

/-! ## Taking and freeing frames -/

/-- The first free frame goes to the running call. -/
theorem pop (h : FrameSound E D R s) {next : List Word} (hfree : s.freelist = f :: next) :
    FrameSound E D (insert f R) { s with freelist := next } ∧ f ∉ R := by
  have howners := h.owners
  rw [hfree] at howners
  obtain ⟨hsound, hfresh, hnobody⟩ := howners.pop
  have hf := h.free_ok f (hfree ▸ List.mem_cons_self)
  have hsplit (o : Owner N) (g : Word)
      (ho : Owns { s with freelist := next } D (insert f R) o g) :
      s.Owns D R o g ∨ (o = .reserved f ∧ g = f) := by
    cases o with
    | reserved g' =>
      obtain ⟨hmem, rfl⟩ := ho
      rcases mem_insert_iff.mp hmem with rfl | hmem
      · exact .inr ⟨rfl, rfl⟩
      · exact .inl ⟨hmem, rfl⟩
    | page d v | table d i | dir d | stack p | cache i => exact .inl ho
  refine ⟨⟨?_, ?_, ?_, h.entries, h.kend_pos⟩, fun hmem ↦ hnobody (.reserved f) ⟨hmem, rfl⟩⟩
  · exact hsound.assign (o := .reserved f) hfresh (fun o ho ↦ absurd ho (hnobody o)) hsplit
  · intro g hg
    exact h.free_ok g (hfree ▸ List.mem_cons_of_mem f hg)
  · grind [h.held_ok]

/-- A frame may go back on the free list in a state in which nobody holds it any more. -/
theorem push (h : FrameSound E D R s) {t : Machine N} (haligned : f.toNat % 4096 = 0)
    (hnonzero : f ≠ 0) (hfresh : f ∉ s.freelist) (hfree : t.freelist = f :: s.freelist)
    (hentries : ∀ d ∈ D', ∀ v, (t.pgdirs d).pte v ≠ 0 →
      ((t.pgdirs d).pte v).has pteP = true) (hkend : t.kend = s.kend)
    (hsub : ∀ o g, t.Owns D' R' o g → s.Owns D R o g ∧ g ≠ f) :
    FrameSound E D' R' t where
  owners := by
    rw [hfree]
    exact h.owners.push hfresh (fun o g ho ↦ (hsub o g ho).1) fun o ho ↦ (hsub o f ho).2 rfl
  free_ok := by grind [h.free_ok]
  held_ok o g ho := h.held_ok o g (hsub o g ho).1
  entries := hentries
  kend_pos := hkend ▸ h.kend_pos

/-- A frame of the running call goes to an owner that held nothing else. -/
theorem give (h : FrameSound E D (insert f R) s) (hf : f ∉ R) {t : Machine N}
    (hsplit : ∀ o' g, t.Owns D R o' g → s.Owns D R o' g ∨ (o' = o ∧ g = f))
    (hfree : t.freelist = s.freelist) (hentries : ∀ d ∈ D, ∀ v, (t.pgdirs d).pte v ≠ 0 →
      ((t.pgdirs d).pte v).has pteP = true) (hkend : t.kend = s.kend) :
    FrameSound E D R t where
  owners := by
    rw [hfree]
    exact h.unreserve.owners.assign (h.not_free (owns_reserved s D R f))
      (fun o' ho' ↦ absurd ho' (h.not_owns_reserved hf o')) hsplit
  free_ok := hfree ▸ h.free_ok
  held_ok o' g ho := by
    rcases hsplit o' g ho with hold | ⟨_, rfl⟩
    · exact h.unreserve.held_ok o' g hold
    · exact h.held_ok _ g (owns_reserved s D R g)
  entries := hentries
  kend_pos := hkend ▸ h.kend_pos

/-! ## Changing entries and tables -/

/-- Mapping a frame at a page, where all who hold the frame may share it with that entry. -/
theorem setPte (h : FrameSound E D R s) {pte : Word} (hpresent : pte.has pteP = true)
    (hframe : pteAddr pte = f) (hfresh : f ∉ s.freelist) (hreserved : R' ⊆ R)
    (hothers : f ≠ 0 → ∀ o, s.Owns D R' o f → o = .page d v ∨ Sharing E (.page d v) o) :
    FrameSound E D R' (s.setPte d v pte) := { h with
  owners := by
    have hmono := (h.mono (subset_refl D) hreserved).owners
    by_cases hzero : f = 0
    · refine hmono.mono ?_
      intro o g ho
      rcases owns_setPte ho with ⟨_, hold⟩ | ⟨_, _, _, hg, hne⟩
      · exact hold
      · exact absurd (hg.symm.trans (hframe.trans hzero)) hne
    · refine hmono.assign (o := .page d v) hfresh ?_ ?_
      · intro o ho
        exact (hothers hzero o ho).imp id fun hsharing ↦ ⟨hsharing, hsharing.symm⟩
      · grind [owns_setPte]
  held_ok := by
    intro o g ho
    rcases owns_setPte ho with ⟨_, hold⟩ | ⟨_, _, _, rfl, hne⟩
    · exact h.held_ok o g (owns_mono (subset_refl D) hreserved hold)
    · refine ⟨hne, ?_⟩
      rw [toNat_pteAddr]
      omega
  entries := by grind [h.entries, pte_setPte_self, pte_setPte_of_ne] }

theorem setPte_reserved (h : FrameSound E D (insert pa R) s) (hpa : pa ∉ R)
    (hperm : perm.toNat < 4096) :
    FrameSound E D R (s.setPte d v (pa ||| perm ||| pteP)) := by
  have howns := owns_reserved s D R pa
  have haligned := (h.held_ok _ pa howns).2
  refine h.setPte (has_pteP_or _) (pteAddr_entry haligned hperm) (h.not_free howns)
    (subset_insert pa R) ?_
  intro _ o ho
  exact absurd ho (h.not_owns_reserved hpa o)

/-- Mapping a frame that another directory maps at the same page of the mapping area. -/
theorem setPte_shared (h : FrameSound E D R s)
    (howner : s.Owns D R (.page d' v) pa) (haligned : pa.toNat % 4096 = 0)
    (hperm : perm.toNat < 4096) (hbase : mmapVpn ≤ v) (hd : ¬ E d v) (hd' : ¬ E d' v) :
    FrameSound E D R (s.setPte d v (pa ||| perm ||| pteP)) := by
  refine h.setPte (has_pteP_or _) (pteAddr_entry haligned hperm) (h.not_free howner)
    (subset_refl R) ?_
  intro _ o ho
  rcases h.owners.exclusive _ _ _ howner ho with heq | hsharing
  · subst heq
    exact .inr ⟨rfl, hbase, hd, hd'⟩
  · obtain ⟨d₁, d₂, v₁, heq, rfl, _, _, hE⟩ := hsharing.exists_pages
    cases heq
    exact .inr ⟨rfl, hbase, hd, hE⟩

/-- Mapping frame zero, which is never free and never counts as held. -/
theorem setPte_zero (h : FrameSound E D R s) (hperm : perm.toNat < 4096) :
    FrameSound E D R (s.setPte d v (0 ||| perm ||| pteP)) := by
  refine h.setPte (has_pteP_or _) (pteAddr_entry (by decide) hperm) ?_ (subset_refl R) ?_
  · exact fun hmem ↦ (h.free_ok 0 hmem).1 rfl
  · exact fun hne ↦ absurd rfl hne

end FrameSound

namespace Kernel

open Machine

variable {E : Word → Vpn → Prop} {D R : Set Word} {d f pa perm : Word} {v : Vpn}
  {C : Machine N → Prop}

/-! ## The primitives -/

/-- What holds after `kalloc`. -/
def Allocated (E : Word → Vpn → Prop) (D R : Set Word) :
    Option Word → Machine N → Prop
  | none, s => FrameSound E D R s
  | some f, s => FrameSound E D (insert f R) s ∧ f ∉ R

theorem kalloc_allocated (hC : ∀ s free, C s → C { s with freelist := free }) :
    Triple (fun s ↦ FrameSound E D R s ∧ C s) kalloc
      (fun r s ↦ Allocated E D R r s ∧ C s) fun _ _ ↦ False := by
  rintro s ⟨hs, hc⟩
  rw [kalloc]
  cases hfree : s.freelist with
  | nil => exact ⟨hs, hc⟩
  | cons r next => exact ⟨hs.pop hfree, hC s next hc⟩

theorem kfree_apply (v : Word) (s : Machine N) :
    kfree v s =
      if v % pgSize != 0 || v < s.kend || physTop ≤ v then (.error .panic, s)
      else (.ok (), { s with
        mem := fun a ↦ if (a - v).toNat < 4096 then 1 else s.mem a
        freelist := v :: s.freelist }) := by
  rw [kfree, bind_of_ok (get_apply s)]
  split
  · rfl
  · rfl

/-- The frames that `kfree` accepts. -/
theorem of_not_rejected {v : Word} {s : Machine N} (hkend : 0 < s.kend)
    (h : ¬ (v % pgSize != 0 || v < s.kend || physTop ≤ v) = true) :
    v.toNat % 4096 = 0 ∧ v ≠ 0 := by
  simp only [Bool.or_eq_true, bne_iff_ne, ne_eq, decide_eq_true_eq, not_or, not_not] at h
  obtain ⟨⟨hmod, hlow⟩, _⟩ := h
  constructor
  · have hnat := congrArg BitVec.toNat hmod
    rw [BitVec.toNat_umod] at hnat
    exact hnat
  · rintro rfl
    exact hlow hkend

theorem kfree_reserved (hf : f ∉ R) :
    Triple (FrameSound (N := N) E D (insert f R)) (kfree f)
      (fun _ ↦ FrameSound E D R) fun _ ↦ FrameSound E D R := by
  intro s hs
  rw [kfree_apply]
  by_cases hbad : (f % pgSize != 0 || f < s.kend || physTop ≤ f) = true
  · rw [if_pos hbad]
    exact hs.unreserve
  · rw [if_neg hbad]
    obtain ⟨haligned, hnonzero⟩ := of_not_rejected hs.kend_pos hbad
    refine hs.push (t := { s with mem := _, freelist := f :: s.freelist }) haligned hnonzero
      (hs.not_free (FrameSound.owns_reserved s D R f)) rfl hs.entries rfl ?_
    intro o g ho
    refine ⟨owns_mono (subset_refl D) (subset_insert f R) ho, ?_⟩
    rintro rfl
    exact hs.not_owns_reserved hf o ho

/-- Freeing the frame behind an entry that shares it with no other, and clearing the entry. -/
theorem release (hd : d ∈ D) (hpa : pa ≠ 0) (halone : ∀ o : Owner N, ¬ Sharing E (.page d v) o) :
    Triple (fun s : Machine N ↦
        FrameSound E D R s ∧ pteAddr ((s.pgdirs d).pte v) = pa)
      (do kfree pa; writePte d v 0)
      (fun _ ↦ FrameSound E D R) fun _ ↦ FrameSound E D R := by
  rintro s ⟨hs, hframe⟩
  have hne : (s.pgdirs d).pte v ≠ 0 := by
    intro hzero
    rw [hzero] at hframe
    exact hpa (hframe.symm.trans (by decide))
  have howns : s.Owns D R (.page d v) pa := ⟨hd, hs.entries d hd v hne, hframe, hpa⟩
  rw [bind_apply, kfree_apply]
  by_cases hbad : (pa % pgSize != 0 || pa < s.kend || physTop ≤ pa) = true
  · rw [if_pos hbad]
    exact hs
  · rw [if_neg hbad]
    obtain ⟨haligned, hnonzero⟩ := of_not_rejected hs.kend_pos hbad
    refine hs.push (t := setPte { s with mem := _, freelist := pa :: s.freelist } d v 0)
      haligned hnonzero (hs.not_free howns) rfl ?_ rfl ?_
    · grind [pte_setPte_self, pte_setPte_of_ne, hs.entries]
    · intro o g ho
      rcases owns_setPte ho with ⟨hpage, hold⟩ | ⟨_, _, hpresent, _⟩
      · have hold' : s.Owns D R o g := hold
        refine ⟨hold', ?_⟩
        rintro rfl
        rcases hs.owners.exclusive _ _ _ howns hold' with heq | hsharing
        · exact hpage heq.symm
        · exact halone o hsharing
      · exact absurd hpresent (by decide)

/-! ## Page-table pages -/

/-- Everything but page directory `d` is the same. -/
def SameElse (d : Word) (s s' : Machine N) : Prop :=
  (∀ d', d' ≠ d → s'.pgdirs d' = s.pgdirs d') ∧ s'.procs = s.procs

theorem addPageTable_apply (i : BitVec 10) (s : Machine N) :
    addPageTable d i f s = (.ok (), { s with
      mem := fun a ↦ if (a - f).toNat < 4096 then 0 else s.mem a
      pgdirs := update s.pgdirs d
        { tabs := update (s.pgdirs d).tabs i (some f)
          pte := fun v ↦ if v.pdx = i then 0 else (s.pgdirs d).pte v } }) := rfl

theorem addPageTable_sound (hd : d ∈ D) (hf : f ∉ R) (i : BitVec 10)
    (hC : ∀ s s', SameElse d s s' → C s → C s') :
    Triple (fun s ↦ FrameSound E D (insert f R) s ∧ C s) (addPageTable d i f)
      (fun _ s ↦ FrameSound E D R s ∧ C s) fun _ _ ↦ False := by
  rintro s ⟨hs, hc⟩
  have hsplit (o : Owner N) (g : Word)
      (ho : (addPageTable d i f s).2.Owns D R o g) :
      s.Owns D R o g ∨ (o = .table d i ∧ g = f) := by
    rw [addPageTable_apply] at ho
    cases o with
    | table d' i' =>
      by_cases hdd : d' = d
      · subst hdd
        obtain ⟨_, htab⟩ := ho
        simp only [update_self] at htab
        by_cases hi : i' = i
        · grind
        · rw [update_of_ne hi] at htab
          exact .inl ⟨hd, htab⟩
      · simp only [Owns, update_of_ne hdd] at ho
        exact .inl ho
    | page d' v' =>
      by_cases hdd : d' = d
      · subst hdd
        obtain ⟨_, hpresent, hframe, hne⟩ := ho
        simp only [update_self] at hpresent hframe
        split at hpresent
        · exact absurd hpresent (by decide)
        · rename_i hpdx
          rw [if_neg hpdx] at hframe
          exact .inl ⟨hd, hpresent, hframe, hne⟩
      · simp only [Owns, update_of_ne hdd] at ho
        exact .inl ho
    | dir d' | stack p | cache i' | reserved g' => exact .inl ho
  rw [addPageTable_apply]
  refine ⟨hs.give hf hsplit rfl ?_ rfl, ?_⟩
  · grind [update_apply, hs.entries]
  · refine hC s _ ⟨fun d' hne ↦ ?_, rfl⟩ hc
    exact update_of_ne hne _ _

theorem walkpgdir_sound (hd : d ∈ D) (va : Word) (hC : ∀ s s', SameElse d s s' → C s → C s') :
    Triple (fun s ↦ FrameSound E D R s ∧ C s) (walkpgdir d va true)
      (fun r s ↦ (FrameSound E D R s ∧ C s) ∧ (r = none ∨ r = some (vpn va)))
      fun _ _ ↦ False := by
  refine .get_bind fun s hs ↦ ?_
  split
  · refine .pure_at ?_
    exact ⟨hs, .inr rfl⟩
  · rw [if_pos rfl]
    have hkalloc := kalloc_allocated (E := E) (D := D) (R := R) (C := C)
      fun t free ht ↦ hC t _ ⟨fun _ _ ↦ rfl, rfl⟩ ht
    refine (hkalloc.at_state hs).bind fun r ↦ ?_
    cases r with
    | none => exact .pure fun t ht ↦ ⟨ht, .inl rfl⟩
    | some pgtab =>
      refine .of_forall fun t ht ↦ ?_
      obtain ⟨⟨hsound, hfresh⟩, hc⟩ := ht
      have htable := addPageTable_sound (E := E) hd hfresh (vpn va).pdx hC
      refine (htable.at_state ⟨hsound, hc⟩).bind fun _ ↦ ?_
      exact .pure fun u hu ↦ ⟨hu, .inr rfl⟩

/-! ## Mapping one page -/

theorem writePte_apply (pte : Word) (s : Machine N) :
    writePte d v pte s = (.ok (), s.setPte d v pte) := rfl

/-- Mapping a reserved frame; on failure it is still reserved. -/
theorem mapPage_reserved (hd : d ∈ D) (hpa : pa ∉ R) (hperm : perm.toNat < 4096) (a : Word) :
    Triple (FrameSound (N := N) E D (insert pa R)) (mapPage d a pa perm)
      (fun mapped s ↦ FrameSound E D (if mapped then R else insert pa R) s)
      fun _ ↦ FrameSound E D R := by
  have hwalk := walkpgdir_sound (N := N) (E := E) (R := insert pa R) hd a
    (C := fun _ ↦ True) fun _ _ _ _ ↦ trivial
  refine (hwalk.pre fun s hs ↦ ⟨hs, trivial⟩).seq ?_ fun r ↦ ?_
  · exact fun _ _ hfalse ↦ hfalse.elim
  cases r with
  | none => exact .pure fun s hs ↦ hs.1.1
  | some v =>
    refine .get_bind fun s hs ↦ ?_
    obtain ⟨⟨hsound, _⟩, _⟩ := hs
    split
    · grind [Triple.halt, hsound.mono]
    · rintro t rfl
      exact hsound.setPte_reserved hpa hperm

/-- Mapping the frame that another directory maps at the same page of the mapping area; frame zero
stands for an absent page. -/
theorem mapPage_shared (hd : d ∈ D) (hd' : d' ∈ D) (hne : d' ≠ d) (hperm : perm.toNat < 4096)
    {a : Word} (hbase : mmapVpn ≤ vpn a) (hE : ¬ E d (vpn a)) (hE' : ¬ E d' (vpn a)) (pa : Word) :
    Triple (fun s : Machine N ↦ FrameSound E D R s ∧
        (pa = 0 ∨ pteAddr ((s.pgdirs d').pte (vpn a)) = pa))
      (mapPage d a pa perm) (fun _ ↦ FrameSound E D R)
      fun _ ↦ FrameSound E D R := by
  have hwalk := walkpgdir_sound (N := N) (E := E) (R := R) hd a
    (C := fun s ↦ pa = 0 ∨ pteAddr ((s.pgdirs d').pte (vpn a)) = pa) fun s s' hsame hframe ↦ by
      rw [hsame.1 d' hne]
      exact hframe
  refine hwalk.seq (fun _ _ hfalse ↦ hfalse.elim) fun r ↦ ?_
  cases r with
  | none => exact .pure fun s hs ↦ hs.1.1
  | some v =>
    refine .get_bind fun s hs ↦ ?_
    obtain ⟨⟨hsound, hframe⟩, hv⟩ := hs
    obtain rfl : v = vpn a := by simpa using hv
    split
    · refine .halt ?_
      rintro t rfl
      exact hsound
    · rintro t rfl
      change FrameSound E D R (t.setPte d (vpn a) (pa ||| perm ||| pteP))
      by_cases hzero : pa = 0
      · subst hzero
        exact hsound.setPte_zero hperm
      · have hframe : pteAddr ((t.pgdirs d').pte (vpn a)) = pa := hframe.resolve_left hzero
        have hpte : (t.pgdirs d').pte (vpn a) ≠ 0 := by
          intro h0
          rw [h0] at hframe
          exact hzero (hframe.symm.trans (by decide))
        have haligned : pa.toNat % 4096 = 0 := by
          rw [← hframe, toNat_pteAddr]
          omega
        exact hsound.setPte_shared ⟨hd', hsound.entries d' hd' _ hpte, hframe, hzero⟩ haligned
          hperm hbase hE hE'

/-- `mappages` of one page at a page boundary. -/
theorem mappages_page {va : Word} (h : va.toNat % 4096 = 0) (pgdir pa perm : Word) :
    (mappages pgdir va pgSize pa perm : Kernel N Bool) = mapPage pgdir va pa perm := by
  have hstart : pgRoundDown va = va := by
    apply BitVec.eq_of_toNat_eq
    rw [toNat_pgRoundDown, h, Nat.sub_zero]
  have hlast : pgRoundDown (va + pgSize - 1) = va := by
    have hsum : (va + pgSize - 1).toNat = va.toNat + 4095 := by
      rw [show va + pgSize - 1 = va + 4095 by unfold pgSize; bv_omega, BitVec.toNat_add,
        show (4095 : Word).toNat = 4095 from rfl, Nat.mod_eq_of_lt (by omega)]
    apply BitVec.eq_of_toNat_eq
    rw [toNat_pgRoundDown, hsum]
    omega
  rw [mappages, hstart, hlast, BitVec.sub_self]
  rfl

end Kernel

end Xv6Mmap
