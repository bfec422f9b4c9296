import Xv6Mmap.Machine.AddressSpace

/-!
# New address spaces (`setupkvm`, the image of `exec`, `copyuvm`)

A new directory comes from the free list, so no directory in use is written while it is filled or,
if that fails, freed again.  What `exec` builds and what `copyuvm` copies has the first pages of the
directory present, up to the size, and no others.  The pages that `copyuvm` reads are those of the
parent: as long as they are present, its two panics make no difference to what it does.
-/

namespace Xv6Mmap

open Library Prog BitVec Function

variable {N : ℕ} {t : Machine N} {I : (Vpn → Word) → Prop}

/-- The entries of a new directory. -/
def noEntries : Vpn → Word := fun _ ↦ 0

theorem sized_noEntries : Sized noEntries 0 := by
  intro v _
  rw [noEntries, not_has_zero]
  exact iff_of_false Bool.false_ne_true (by omega)

/-- Since `s`, no process has changed and no directory outside the free list. -/
structure Untouched (s t : Machine N) : Prop where
  procs : t.procs = s.procs
  dirs : ∀ d, d ∉ s.freelist → t.pgdirs d = s.pgdirs d

theorem Untouched.refl (s : Machine N) : Untouched s s := ⟨rfl, fun _ _ ↦ rfl⟩

theorem OnDir.procs_eq {s : Machine N} {d : Word} (h : OnDir s d I t) : t.procs = s.procs := by
  rw [h.rest]

theorem OnDir.untouched {s : Machine N} {d : Word}
    (h : OnDir s d I t) (hd : d ∈ s.freelist) : Untouched s t := by
  refine ⟨h.procs_eq, fun d' hd' ↦ h.others d' ?_⟩
  rintro rfl
  exact hd' hd

namespace Kernel

open Machine

variable {s : Machine N} {d : Word} {I : (Vpn → Word) → Prop} {k : ℕ} {i : Word}

/-! ## Freeing a directory -/

/-- No condition on the entries. -/
def anyEntries : (Vpn → Word) → Prop := fun _ ↦ True

theorem OnDir.any (h : OnDir s d I t) : OnDir s d anyEntries t :=
  h.mono fun _ _ ↦ trivial

theorem freePageTables_onDir (indices : List (BitVec 10)) :
    Triple (OnDir s d I) (freePageTables d indices) (fun _ ↦ OnDir s d I) fun _ _ ↦ True := by
  induction indices with
  | nil => exact .pure fun _ ↦ id
  | cons i rest ih =>
    refine .get_bind fun t ht ↦ ?_
    split
    · exact ((keeps_kfree_onDir _).at_state ht).seq (fun _ _ _ ↦ trivial) fun _ ↦ ih
    · exact ih.at_state ht

/-- Freeing a directory writes no other. -/
theorem freevm_onDir :
    Triple (OnDir s d I) (freevm d) (fun _ ↦ OnDir s d anyEntries) fun _ _ ↦ True := by
  have hdealloc : Triple (OnDir s d anyEntries) (deallocuvm d mmapBase 0)
      (fun _ ↦ OnDir s d anyEntries) fun _ _ ↦ True := by
    rw [deallocuvm, if_neg (by decide)]
    refine .bind (deallocFrom_rule (fun _ _ ↦ trivial) (fun _ t _ htable ht ↦ ?_) _ _) fun _ ↦
      .pure fun _ ↦ id
    exact freePage_onDir ht htable (fun _ ↦ trivial) fun _ ↦ trivial
  rw [freevm]
  generalize pdeIndices = indices
  refine .bind (hdealloc.pre fun t ht ↦ OnDir.any ht) fun _ ↦ ?_
  refine .bind (freePageTables_onDir indices) fun _ ↦ ?_
  exact (keeps_kfree_onDir d).post (fun _ _ ↦ id) fun _ _ _ ↦ trivial

/-! ## `setupkvm` -/

theorem mapKernel_onDir (indices : List (BitVec 10)) :
    Triple (OnDir s d (· = noEntries)) (mapKernel d indices)
      (fun _ ↦ OnDir s d (· = noEntries)) fun _ _ ↦ True := by
  induction indices with
  | nil => exact .pure fun _ ↦ id
  | cons i rest ih =>
    apply kalloc_onDir
    · exact .pure fun _ ↦ id
    · intro pgtab
      dsimp only
      intro t ht
      rw [bind_of_ok (addPageTable_apply i t)]
      apply ih
      have hmem := ht.buffers (fun a ↦ if (a - pgtab).toNat < 4096 then 0 else t.mem a) t.freelist
      refine .setDir hmem (ht.tabled.withTable i pgtab) ?_
      funext v
      dsimp only
      split
      · rfl
      · exact congrFun ht.entries v

/-- What a call that makes a directory comes to. -/
def NewDir (s : Machine N) (I : (Vpn → Word) → Prop) : Option Word → Machine N → Prop
  | none, t => Untouched s t
  | some d, t => d ∈ s.freelist ∧ OnDir s d I t

theorem setupkvm_new (s : Machine N) :
    Triple (· = s) setupkvm (NewDir s (· = noEntries)) fun _ _ ↦ True := by
  apply kalloc_rule
  · rintro t rfl _
    refine .pure_at ?_
    exact .refl t
  · rintro t frame rest rfl hfree
    have hmem : frame ∈ t.freelist := hfree ▸ List.mem_cons_self
    have hstart : OnDir t frame (· = noEntries) ({ t with
        freelist := rest
        mem := fun a ↦ if (a - frame).toNat < 4096 then 0 else t.mem a }.setDir frame
          .empty) := by
      refine ⟨rfl, fun d' hne ↦ pgdirs_setDir_of_ne _ _ hne, ?_, ?_⟩
      · rw [pgdirs_setDir_self]
        exact .empty
      · rw [pgdirs_setDir_self]
        rfl
    refine .modify_bind fun u hu ↦ .modify_bind fun w hw ↦ ?_
    subst hu hw
    refine .bind ((mapKernel_onDir kernelPdes).at_state hstart) fun mapped ↦ ?_
    cases mapped with
    | true => exact .pure fun w hw ↦ ⟨hmem, hw⟩
    | false =>
      rw [if_neg Bool.false_ne_true]
      refine .bind freevm_onDir fun _ ↦ .pure fun w hw ↦ ?_
      exact hw.untouched hmem

/-! ## The image of `exec` -/

theorem loadSegments_filled (headers : List (Option ProgHdr)) (sz : Word)
    (hsz : sz.toNat < 0x60000000) :
    Triple (OnDir s d (Filled noEntries 0 (pages sz))) (loadSegments d headers sz)
      (fun r t ↦ match r with
        | none => OnDir s d anyEntries t
        | some sz' => sz'.toNat < 0x60000000 ∧ OnDir s d (Filled noEntries 0 (pages sz')) t)
      fun _ _ ↦ True := by
  induction headers generalizing sz with
  | nil => exact .pure fun t ht ↦ ⟨hsz, ht⟩
  | cons header rest ih =>
    cases header with
    | none => exact .pure fun t ht ↦ OnDir.any ht
    | some ph =>
      rw [loadSegments]
      split
      · exact ih _ hsz
      · split
        · exact .pure fun t ht ↦ OnDir.any ht
        · refine .bind (allocuvm_filled (Nat.zero_le _) fun _ _ _ ↦ rfl) fun r ↦ ?_
          refine .of_forall fun t ht ↦ ?_
          obtain ⟨hcases, ht⟩ := ht
          split
          · refine .pure_at ?_
            exact OnDir.any ht
          · split
            · refine .pure_at ?_
              exact OnDir.any ht
            · rename_i hr _
              have hr' : r.toNat < 0x60000000 := by grind
              rw [if_neg hr] at ht
              exact (ih _ hr').at_state ht

theorem clearpteu_filled {e₀ : Vpn → Word} {uva : Word} (hk : (vpn uva).toNat < k) :
    Triple (OnDir s d (Filled e₀ 0 k)) (clearpteu d uva) (fun _ ↦ OnDir s d (Filled e₀ 0 k))
      fun _ _ ↦ True := by
  intro t ht
  rw [clearpteu, bind_of_ok (walkpgdir_false_apply d uva t)]
  by_cases htable : ((t.pgdirs d).tabs (vpn uva).pdx).isSome = true
  · rw [if_pos htable]
    refine ht.setPte htable ⟨?_, ?_⟩
    · intro v hv hv'
      by_cases hsame : v = vpn uva
      · rw [hsame, update_self, has_pteP_clear]
        exact ht.entries.1 _ (Nat.zero_le _) hk
      · rw [update_of_ne hsame]
        exact ht.entries.1 v hv hv'
    · intro v hv
      have hne : v ≠ vpn uva := by
        rintro rfl
        omega
      rw [update_of_ne hne]
      exact ht.entries.2 v hv
  · rw [if_neg htable]
    trivial

/-- The image of `exec` has the pages up to its size, and no others. -/
theorem buildImage_filled (image : ExecImage) :
    Triple (OnDir s d (· = noEntries)) (buildImage d image)
      (fun r t ↦ match r with
        | none => OnDir s d anyEntries t
        | some sz => sz.toNat < 0x60000000 ∧ OnDir s d (Filled noEntries 0 (pages sz)) t)
      fun _ _ ↦ True := by
  have hload := loadSegments_filled (s := s) (d := d) image.headers 0 (by decide)
  refine .bind (hload.pre fun t ht ↦ ht.mono ?_) fun r ↦ ?_
  · rintro e rfl
    exact filled_self noEntries 0
  · cases r with
    | none => exact .pure fun t ht ↦ ht
    | some sz =>
      refine .of_forall ?_
      rintro t ⟨hsz, ht⟩
      dsimp only
      have hround : (pgRoundUp sz).toNat = 4096 * pages sz := toNat_pgRoundUp_pages (by omega)
      have hpages : pages (pgRoundUp sz) = pages sz := by
        rw [pages, hround]
        omega
      have hsmall : pages sz ≤ 0x60000 := by
        unfold pages
        omega
      rw [← hpages] at ht
      generalize pgRoundUp sz = top at hround hpages ht ⊢
      have hsum : (top + 2 * pgSize).toNat = top.toNat + 8192 := by
        rw [toNat_add, show (2 * pgSize).toNat = 8192 from rfl, Nat.mod_eq_of_lt (by omega)]
      generalize top + 2 * pgSize = newsz at hsum ⊢
      have hstack : Triple (OnDir s d (Filled noEntries 0 (pages top))) (allocuvm d top newsz)
          _ _ := allocuvm_filled (Nat.zero_le _) fun _ _ _ ↦ rfl
      refine .bind (hstack.at_state ht) fun sz' ↦ .of_forall ?_
      rintro u ⟨hcases, hu⟩
      by_cases hfail : sz' = 0
      · rw [if_pos hfail]
        refine .pure_at ?_
        exact OnDir.any hu
      · obtain ⟨hle, hcases⟩ := hcases.resolve_left hfail
        rw [if_neg hfail] at hu ⊢
        have hsz' : sz'.toNat < 0x60000000 ∧ sz'.toNat = top.toNat + 8192 := by
          rcases hcases with ⟨_, hlt⟩ | ⟨rfl, hlow⟩
          · rw [lt_def] at hlt
            omega
          · exact ⟨hlow, hsum⟩
        have hguard : (vpn (sz' - 2 * pgSize)).toNat < pages sz' := by
          rw [toNat_vpn, toNat_sub_of_le (by
            rw [le_def, show (2 * pgSize).toNat = 8192 from rfl]
            omega), show (2 * pgSize).toNat = 8192 from rfl]
          unfold pages
          omega
        refine .bind ((clearpteu_filled hguard).at_state hu) fun _ ↦ ?_
        split
        · exact .pure fun w hw ↦ ⟨hsz'.1, hw⟩
        · exact .pure fun w hw ↦ OnDir.any hw

/-- `exec` by `p`: the new directory is complete when `delete_mmaps` is called, and the old one is
freed when the new one is in place. -/
theorem exec_rule {p : Fin N} {image : ExecImage} {D : Word → Word → Machine N → Prop}
    {Q : Bool → Machine N → Prop} {E : Halt → Machine N → Prop} (hpanic : ∀ t, E .panic t)
    (hfail : ∀ t, Untouched s t → Q false t)
    (hdelete : ∀ d sz u, d ∈ s.freelist → sz.toNat < 0x60000000 →
      OnDir s d (Filled noEntries 0 (pages sz)) u →
      Triple (· = u) (deleteMmaps p) (fun _ ↦ D d sz) E)
    (hfree : ∀ d sz t, D d sz t → Triple (fun u ↦ u = { t with
        procs := update t.procs p { t.procs p with pgdir := d, sz := sz } })
      (freevm (t.procs p).pgdir) (fun _ ↦ Q true) E) :
    Triple (· = s) (exec p image) Q E := by
  rw [exec]
  split
  · refine .pure_at ?_
    exact hfail s (.refl s)
  · refine .bind (neverStuck_setupkvm.panics (setupkvm_new s) fun t _ ↦ hpanic t) fun r ↦ ?_
    cases r with
    | none => exact .pure hfail
    | some d =>
      refine .of_forall ?_
      rintro t ⟨hmem, ht⟩
      refine .bind ((neverStuck_buildImage image).panics ((buildImage_filled image).at_state ht)
        fun t _ ↦ hpanic t) fun r ↦ ?_
      cases r with
      | none =>
        refine .bind (neverStuck_freevm.panics (freevm_onDir (I := anyEntries)) fun t _ ↦ hpanic t)
          fun _ ↦ .pure fun u hu ↦ ?_
        exact hfail u (hu.untouched hmem)
      | some sz =>
        refine .of_forall ?_
        rintro u ⟨hsz, hu⟩
        refine .bind (hdelete d sz u hmem hsz hu) fun _ ↦ .get_bind fun v hv ↦ ?_
        refine .modify_bind ?_
        rintro w rfl
        exact .bind (hfree d sz _ hv) fun _ ↦ .pure fun _ ↦ id

/-! ## `copyuvm` -/

theorem copyPageTo_filled (pgdir : Word) (e₀ : Vpn → Word) (hi : i.toNat = 4096 * k) :
    Triple (OnDir s d (Filled e₀ 0 k)) (copyPageTo pgdir d i)
      (fun copied ↦ OnDir s d (Filled e₀ 0 (if copied then k + 1 else k))) fun _ _ ↦ True := by
  refine .bind (keeps_walkpgdir_false i) fun found ↦ ?_
  cases found with
  | none => exact .halt fun _ _ ↦ trivial
  | some v =>
    refine .bind (Q := fun _ ↦ OnDir s d (Filled e₀ 0 k)) (fun _ ↦ id) fun pte ↦ ?_
    split
    · apply kalloc_onDir
      · exact .pure fun _ ↦ id
      · intro mem
        refine (keeps_memmove_onDir mem _ 4096).seq (fun _ _ _ ↦ trivial) fun _ ↦ ?_
        rw [mappages_page (by omega)]
        refine .bind (mapPage_onDir i mem _) fun mapped ↦ ?_
        cases mapped with
        | true =>
          refine .pure fun u hu ↦ hu.mono ?_
          rintro _ ⟨e', he', rfl⟩
          apply he'.update _ (Nat.zero_le _) (has_pteP_or _)
          rw [toNat_vpn]
          omega
        | false =>
          refine (keeps_kfree_onDir mem).seq (fun _ _ _ ↦ trivial) fun _ ↦ .pure fun _ ↦ id
    · exact .halt fun _ _ ↦ trivial

theorem copyFrom_filled (pgdir : Word) {sz : Word} (e₀ : Vpn → Word)
    (hsz : sz.toNat ≤ 0x60000000) (n : ℕ) (hi : i.toNat = 4096 * k) (hk : k ≤ pages sz) :
    Triple (OnDir s d (Filled e₀ 0 k)) (copyFrom pgdir d sz n i)
      (fun copied t ↦ OnDir s d anyEntries t ∧
        (copied = true → OnDir s d (Filled e₀ 0 (pages sz)) t)) fun _ _ ↦ True := by
  induction n generalizing i k with
  | zero =>
    simp only [copyFrom, lt_iff_lt_pages hi]
    split
    · exact .halt fun _ _ ↦ trivial
    · grind [Triple.pure, OnDir.any]
  | succ n ih =>
    simp only [copyFrom, lt_iff_lt_pages hi]
    split
    · rename_i hroom
      have hlow : i.toNat < 0x60000000 := Nat.lt_of_lt_of_le ((lt_iff_lt_pages hi).mpr hroom) hsz
      refine .bind (copyPageTo_filled pgdir e₀ hi) fun copied ↦ ?_
      cases copied with
      | true =>
        have hnext := toNat_add_pgSize hlow
        exact ih (i := i + pgSize) (k := k + 1) (by omega) (by omega)
      | false => exact .pure fun t ht ↦ ⟨OnDir.any ht, fun h ↦ by cases h⟩
    · grind [Triple.pure, OnDir.any]

/-- A copied address space has the pages up to the size of the parent, and no others. -/
theorem copyuvm_new (pgdir : Word) {sz : Word} (hsz : sz.toNat ≤ 0x60000000) (s : Machine N) :
    Triple (· = s) (copyuvm pgdir sz) (NewDir s (Filled noEntries 0 (pages sz)))
      fun _ _ ↦ True := by
  refine .bind (setupkvm_new s) fun r ↦ ?_
  cases r with
  | none => exact .pure fun t ht ↦ ht
  | some d =>
    refine .of_forall ?_
    rintro t ⟨hmem, ht⟩
    have hcopy := copyFrom_filled (s := s) (d := d) pgdir noEntries hsz
      (sz.toNat / 4096 + 1) (i := 0) (k := 0) rfl (Nat.zero_le _)
    refine .bind (hcopy.at_state (ht.mono ?_)) fun copied ↦ ?_
    · rintro e rfl
      exact filled_self noEntries 0
    · cases copied with
      | true => exact .pure fun u hu ↦ ⟨hmem, hu.2 rfl⟩
      | false =>
        refine .bind (freevm_onDir.pre fun u hu ↦ hu.1) fun _ ↦ .pure fun u hu ↦ ?_
        exact hu.untouched hmem

/-! ## The panics of `copyuvm` -/

/-- `copyPageTo` with `missing` in the place of its two panics. -/
def copyPageToOr (missing : Kernel N Bool) (pgdir d i : Word) : Kernel N Bool := do
  match ← walkpgdir pgdir i false with
  | none => missing
  | some v =>
    let pte ← readPte pgdir v
    if pte.has pteP then
      match ← kalloc with
      | none => return false
      | some mem =>
        memmove mem (pteAddr pte) 4096
        if ← mappages d i pgSize mem (pteFlags pte) then return true
        else
          kfree mem
          return false
    else missing

def copyFromOr (missing : Kernel N Bool) (pgdir d sz : Word) : ℕ → Word → Kernel N Bool
  | 0, i => if i < sz then halt .stuck else return true
  | n + 1, i => do
    if i < sz then
      if ← copyPageToOr missing pgdir d i then copyFromOr missing pgdir d sz n (i + pgSize)
      else return false
    else return true

/-- `copyuvm` with `missing` in the place of its two panics. -/
def copyuvmOr (missing : Kernel N Bool) (pgdir sz : Word) : Kernel N (Option Word) := do
  match ← setupkvm with
  | none => return none
  | some d =>
    if ← copyFromOr missing pgdir d sz (sz.toNat / 4096 + 1) 0 then return some d
    else
      freevm d
      return none

section Copy

variable {pgdir sz : Word} {t : Machine N}

theorem copyPageToOr_eq (missing : Kernel N Bool) (i : Word)
    (htable : ((t.pgdirs pgdir).tabs (vpn i).pdx).isSome = true)
    (hpresent : ((t.pgdirs pgdir).pte (vpn i)).has pteP = true) :
    copyPageToOr missing pgdir d i t = copyPageTo pgdir d i t := by
  have hwalk := walkpgdir_false_apply pgdir i t
  rw [if_pos htable] at hwalk
  have hread : readPte pgdir (vpn i) t = (.ok ((t.pgdirs pgdir).pte (vpn i)), t) := rfl
  rw [copyPageToOr, copyPageTo, bind_of_ok hwalk, bind_of_ok hwalk]
  dsimp only
  rw [bind_of_ok hread, bind_of_ok hread]
  exact congrFun ((if_pos hpresent).trans (if_pos hpresent).symm) t

/-- As long as the pages of the parent are present, the loop of `copyuvm` does not come to its
panics. -/
theorem copyFromOr_eq (missing : Kernel N Bool) {e₀ : Vpn → Word} (hne : pgdir ≠ d)
    (hsz : sz.toNat < 0x60000000) (htabled : (s.pgdirs pgdir).Tabled)
    (hpresent : ∀ v : Vpn, v.toNat < pages sz → ((s.pgdirs pgdir).pte v).has pteP = true)
    (n : ℕ) (hi : i.toNat = 4096 * k) (ht : OnDir s d (Filled e₀ 0 k) t) :
    copyFromOr missing pgdir d sz n i t = copyFrom pgdir d sz n i t := by
  induction n generalizing i k t with
  | zero => rfl
  | succ n ih =>
    rw [copyFromOr, copyFrom]
    split
    · rename_i hlt
      have hlow : i.toNat < 0x60000000 := Nat.lt_trans hlt hsz
      have hnext := toNat_add_pgSize hlow
      have hbit : ((t.pgdirs pgdir).pte (vpn i)).has pteP = true := by
        rw [ht.others pgdir hne]
        apply hpresent
        rw [toNat_vpn, hi, Nat.mul_div_cancel_left k (by decide)]
        exact (lt_iff_lt_pages hi).mp hlt
      have htable : ((t.pgdirs pgdir).tabs (vpn i).pdx).isSome = true := by
        rw [ht.others pgdir hne] at hbit ⊢
        by_contra hnone
        rw [htabled (vpn i) (by simpa using hnone), not_has_zero] at hbit
        cases hbit
      have hpage := copyPageTo_filled (s := s) (d := d) pgdir e₀ hi t ht
      rw [bind_apply, copyPageToOr_eq missing i htable hbit, bind_apply]
      rcases hrun : copyPageTo pgdir d i t with ⟨e | copied, u⟩
      · rfl
      · grind
    · rfl

theorem copyuvmOr_eq (missing : Kernel N Bool) (hsz : sz.toNat < 0x60000000)
    (htabled : (s.pgdirs pgdir).Tabled) (hlive : pgdir ∉ s.freelist)
    (hpresent : ∀ v : Vpn, v.toNat < pages sz → ((s.pgdirs pgdir).pte v).has pteP = true) :
    copyuvmOr missing pgdir sz s = copyuvm pgdir sz s := by
  have hsetup := setupkvm_new s s rfl
  rw [copyuvmOr, copyuvm, bind_apply, bind_apply]
  rcases hrun : setupkvm s with ⟨e | r, t⟩
  · rfl
  · rw [hrun] at hsetup
    cases r with
    | none => rfl
    | some d =>
      obtain ⟨hmem, ht⟩ := hsetup
      have hne : pgdir ≠ d := by
        rintro rfl
        exact hlive hmem
      have hstart : OnDir s d (Filled noEntries 0 0) t := by
        refine ht.mono ?_
        rintro e rfl
        exact filled_self noEntries 0
      exact bind_of_eq (copyFromOr_eq missing hne hsz htabled hpresent _ rfl hstart)

end Copy

end Kernel

end Xv6Mmap
