import Xv6Mmap.Machine.FrameFaults

/-!
# Building and freeing address spaces keeps frames sound

`setupkvm`, `allocuvm` and `copyuvm` map fresh frames in a directory under construction; `freevm`
frees the pages below `MMAPBASE`, the page-table pages and the directory itself.  None of these
functions sleeps.
-/

namespace Xv6Mmap

open Function Library Ownership Prog BitVec List

variable {N : ℕ}

namespace Kernel

open Machine

variable {E : Word → Vpn → Prop} {D R : Set Word} {d : Word} {α β : Type} {a oldsz newsz : Word}
  {s : Machine N}

/-! ## Functions that do not sleep -/

def NeverStuck (c : Kernel N α) : Prop := ∀ s e, (c s).1 = .error e → e = .panic

protected theorem NeverStuck.pure (a : α) : NeverStuck (pure a : Kernel N α) := nofun

protected theorem NeverStuck.panic : NeverStuck (halt .panic : Kernel N α) := fun _ _ h ↦ by
  cases h
  rfl

protected theorem NeverStuck.get : NeverStuck (get : Kernel N (Machine N)) := nofun

protected theorem NeverStuck.modify (f : Machine N → Machine N) :
    NeverStuck (modify f : Kernel N Unit) := nofun

theorem NeverStuck.bind {c : Kernel N α} {f : α → Kernel N β} (hc : NeverStuck c)
    (hf : ∀ a, NeverStuck (f a)) : NeverStuck (c >>= f) := by
  intro s e
  have hfirst := hc s e
  rw [bind_apply]
  rcases hrun : c s with ⟨outcome, s'⟩
  rw [hrun] at hfirst
  cases outcome with
  | ok a => exact hf a s' e
  | error e =>
    intro h
    cases h
    exact hfirst rfl

theorem NeverStuck.get_bind {f : Machine N → Kernel N α} (hf : ∀ s, NeverStuck (f s)) :
    NeverStuck (Prog.get >>= f) := NeverStuck.get.bind hf

theorem NeverStuck.bind_pure {c : Kernel N α} (hc : NeverStuck c) (g : α → β) :
    NeverStuck (c >>= fun a ↦ pure (g a)) :=
  hc.bind fun a ↦ .pure (g a)

section Panics

variable {P : Machine N → Prop} {c : Kernel N α} {Q : α → Machine N → Prop}
  {E X : Halt → Machine N → Prop}

/-- A call that never gets stuck can only end the run by a panic. -/
theorem NeverStuck.panics (hc : NeverStuck c) (h : Triple P c Q X)
    (hpanic : ∀ t, X .panic t → E .panic t) : Triple P c Q E := by
  intro s hs
  have hrun := h s hs
  have hhalt := hc s
  rcases hresult : c s with ⟨outcome, t⟩
  rw [hresult] at hrun hhalt
  cases outcome with
  | ok a => exact hrun
  | error e =>
    obtain rfl := hhalt e rfl
    exact hpanic t hrun

/-- A panic does not put the process to sleep. -/
theorem NeverStuck.awake {S : Machine N → Prop} (hc : NeverStuck c) (h : Triple P c Q X) :
    Triple P c Q fun e t ↦ e.sleeps = true → S t :=
  hc.panics h nofun

end Panics

theorem neverStuck_kalloc : NeverStuck (kalloc : Kernel N (Option Word)) := by
  intro s e
  rw [kalloc]
  split
  · exact fun h ↦ by cases h
  · exact fun h ↦ by cases h

theorem neverStuck_kfree (v : Word) : NeverStuck (kfree v : Kernel N Unit) := by
  intro s e
  rw [kfree_apply]
  split
  · intro h
    cases h
    rfl
  · exact nofun

theorem neverStuck_walkpgdir (va : Word) (alloc : Bool) :
    NeverStuck (walkpgdir d va alloc : Kernel N (Option Vpn)) := by
  refine .get_bind fun s ↦ ?_
  split
  · exact .pure _
  · split
    · refine neverStuck_kalloc.bind fun r ↦ ?_
      cases r with
      | none => exact .pure _
      | some pgtab =>
        exact (NeverStuck.bind (.modify _) fun _ ↦ .modify _).bind_pure _
    · exact .pure _

theorem neverStuck_mapPage (a pa perm : Word) :
    NeverStuck (mapPage d a pa perm : Kernel N Bool) := by
  refine (neverStuck_walkpgdir a true).bind fun r ↦ ?_
  cases r with
  | none => exact .pure _
  | some v =>
    refine (NeverStuck.get.bind_pure _).bind fun pte ↦ ?_
    split
    · exact .panic
    · exact (NeverStuck.modify _).bind_pure _

theorem neverStuck_mappages (va pa perm : Word) (size : Word) :
    NeverStuck (mappages d va size pa perm : Kernel N Bool) := by
  rw [mappages]
  generalize (pgRoundDown (va + size - 1) - pgRoundDown va).toNat / 4096 = n
  generalize pgRoundDown va = a
  induction n generalizing a pa with
  | zero => exact neverStuck_mapPage _ _ _
  | succ n ih =>
    refine (neverStuck_mapPage _ _ _).bind fun mapped ↦ ?_
    split
    · exact ih _ _
    · exact .pure _

theorem neverStuck_freePage (v : Vpn) : NeverStuck (freePage d v : Kernel N Unit) := by
  refine (NeverStuck.get.bind_pure _).bind fun pte ↦ ?_
  split
  · split
    · exact .panic
    · exact (neverStuck_kfree _).bind fun _ ↦ .modify _
  · exact .pure _

/-- The next page-directory boundary above an address below `MMAPBASE`. -/
theorem toNat_nextPde (h : a.toNat < 0x60000000) :
    (((a >>> 22) + 1) <<< 22).toNat = (a.toNat / 2 ^ 22 + 1) * 2 ^ 22 := by
  have hshift : (a >>> 22).toNat = a.toNat / 2 ^ 22 := by
    rw [toNat_ushiftRight, Nat.shiftRight_eq_div_pow]
  have hsucc : ((a >>> 22) + 1).toNat = a.toNat / 2 ^ 22 + 1 := by
    rw [toNat_add, hshift, show (1 : Word).toNat = 1 from rfl, Nat.mod_eq_of_lt (by omega)]
  rw [toNat_shiftLeft, hsucc, Nat.shiftLeft_eq, Nat.mod_eq_of_lt (by omega)]

theorem toNat_add_pgSize (h : a.toNat < 0x60000000) :
    (a + pgSize).toNat = a.toNat + 4096 := by
  rw [toNat_add, show pgSize.toNat = 4096 from rfl, Nat.mod_eq_of_lt (by omega)]

theorem neverStuck_deallocFrom (hold : oldsz.toNat ≤ 0x60000000) (n : ℕ)
    (haligned : a.toNat % 4096 = 0) (hfuel : oldsz.toNat ≤ a.toNat + 4096 * n) :
    NeverStuck (deallocFrom d oldsz n a : Kernel N Unit) := by
  induction n generalizing a with
  | zero =>
    rw [deallocFrom, if_neg (by rw [lt_def]; omega)]
    exact .pure _
  | succ n ih =>
    rw [deallocFrom]
    split
    · rename_i hlt
      have hlow : a.toNat < 0x60000000 := Nat.lt_of_lt_of_le hlt hold
      refine (neverStuck_walkpgdir a false).bind fun r ↦ ?_
      cases r with
      | none =>
        have hnext := toNat_nextPde hlow
        exact ih (by omega) (by omega)
      | some v =>
        have hnext := toNat_add_pgSize hlow
        exact (neverStuck_freePage v).bind fun _ ↦ ih (by omega) (by omega)
    · exact .pure _

/-- The pages a loop over `n` bytes goes through. -/
theorem le_mul_div_succ (n : ℕ) : n ≤ 4096 * (n / 4096 + 1) :=
  (Nat.lt_mul_div_succ n (by decide)).le

theorem neverStuck_deallocuvm (hold : oldsz.toNat ≤ 0x60000000) :
    NeverStuck (deallocuvm d oldsz newsz : Kernel N Word) := by
  rw [deallocuvm]
  split
  · exact .pure _
  · grind [le_mul_div_succ, NeverStuck.bind, NeverStuck.pure, neverStuck_deallocFrom, pgRoundUp_mod]

theorem neverStuck_freePageTables (indices : List (BitVec 10)) :
    NeverStuck (freePageTables d indices : Kernel N Unit) := by
  induction indices with
  | nil => exact .pure _
  | cons i rest ih =>
    refine .get_bind fun s ↦ ?_
    split
    · exact (neverStuck_kfree _).bind fun _ ↦ ih
    · exact ih

theorem neverStuck_freevm : NeverStuck (freevm d : Kernel N Unit) := by
  refine (neverStuck_deallocuvm (by decide)).bind fun _ ↦ ?_
  exact (neverStuck_freePageTables _).bind fun _ ↦ neverStuck_kfree _

theorem neverStuck_setupkvm : NeverStuck (setupkvm : Kernel N (Option Word)) := by
  have hkernel (pgdir : Word) (indices : List (BitVec 10)) :
      NeverStuck (mapKernel pgdir indices : Kernel N Bool) := by
    induction indices with
    | nil => exact .pure _
    | cons i rest ih =>
      refine neverStuck_kalloc.bind fun r ↦ ?_
      cases r with
      | none => exact .pure _
      | some pgtab =>
        exact (NeverStuck.bind (.modify _) fun _ ↦ .modify _).bind fun _ ↦ ih
  refine neverStuck_kalloc.bind fun r ↦ ?_
  cases r with
  | none => exact .pure _
  | some pgdir =>
    refine .bind (.modify _) fun _ ↦ .bind (.modify _) fun _ ↦ ?_
    refine (hkernel pgdir kernelPdes).bind fun mapped ↦ ?_
    split
    · exact .pure _
    · exact neverStuck_freevm.bind_pure _

theorem neverStuck_allocFrom (hnew : newsz.toNat < 0x60000000) (n : ℕ)
    (hfuel : newsz.toNat ≤ a.toNat + 4096 * n) :
    NeverStuck (allocFrom d oldsz newsz n a : Kernel N Bool) := by
  induction n generalizing a with
  | zero =>
    rw [allocFrom, if_neg (by rw [lt_def]; omega)]
    exact .pure _
  | succ n ih =>
    rw [allocFrom]
    split
    · rename_i hlt
      have hlow : a.toNat < 0x60000000 := Nat.lt_trans hlt hnew
      refine neverStuck_kalloc.bind fun r ↦ ?_
      cases r with
      | none => exact (neverStuck_deallocuvm hnew.le).bind_pure _
      | some mem =>
        refine .bind (.modify _) fun _ ↦ (neverStuck_mappages _ _ _ _).bind fun mapped ↦ ?_
        split
        · have hnext := toNat_add_pgSize hlow
          exact ih (by omega)
        · refine (neverStuck_deallocuvm hnew.le).bind fun _ ↦ ?_
          exact (neverStuck_kfree _).bind_pure _
    · exact .pure _

theorem neverStuck_allocuvm (oldsz newsz : Word) :
    NeverStuck (allocuvm d oldsz newsz : Kernel N Word) := by
  rw [allocuvm]
  split
  · exact .pure _
  · rename_i hbase
    have hnew : newsz.toNat < 0x60000000 := by
      rw [BitVec.not_le] at hbase
      exact hbase
    split
    · exact .pure _
    · refine (neverStuck_allocFrom hnew _ (by omega)).bind fun mapped ↦ ?_
      split
      · exact .pure _
      · exact .pure _

theorem neverStuck_copyuvm (pgdir : Word) {sz : Word} (hsz : sz.toNat ≤ 0x60000000) :
    NeverStuck (copyuvm pgdir sz : Kernel N (Option Word)) := by
  have hpage (d i : Word) : NeverStuck (copyPageTo pgdir d i : Kernel N Bool) := by
    refine (neverStuck_walkpgdir i false).bind fun r ↦ ?_
    cases r with
    | none => exact .panic
    | some v =>
      refine (NeverStuck.get.bind_pure _).bind fun pte ↦ ?_
      split
      · refine neverStuck_kalloc.bind fun r ↦ ?_
        cases r with
        | none => exact .pure _
        | some mem =>
          refine .bind (.modify _) fun _ ↦ (neverStuck_mappages _ _ _ _).bind fun mapped ↦ ?_
          split
          · exact .pure _
          · exact (neverStuck_kfree _).bind_pure _
      · exact .panic
  have hpages (d : Word) (n : ℕ) (i : Word) (hfuel : sz.toNat ≤ i.toNat + 4096 * n) :
      NeverStuck (copyFrom pgdir d sz n i : Kernel N Bool) := by
    induction n generalizing i with
    | zero =>
      rw [copyFrom, if_neg (by rw [lt_def]; omega)]
      exact .pure _
    | succ n ih =>
      rw [copyFrom]
      split
      · rename_i hlt
        have hnext := toNat_add_pgSize (a := i) (Nat.lt_of_lt_of_le hlt hsz)
        refine (hpage d i).bind fun copied ↦ ?_
        split
        · exact ih _ (by omega)
        · exact .pure _
      · exact .pure _
  refine neverStuck_setupkvm.bind fun r ↦ ?_
  cases r with
  | none => exact .pure _
  | some d =>
    have hfuel : sz.toNat ≤ (0 : Word).toNat + 4096 * (sz.toNat / 4096 + 1) :=
      Nat.le_add_left_of_le (le_mul_div_succ sz.toNat)
    refine (hpages d _ 0 hfuel).bind fun copied ↦ ?_
    split
    · exact .pure _
    · exact neverStuck_freevm.bind_pure _

theorem neverStuck_buildImage (image : ExecImage) :
    NeverStuck (buildImage d image : Kernel N (Option Word)) := by
  have hload (headers : List (Option ProgHdr)) (sz : Word) :
      NeverStuck (loadSegments d headers sz : Kernel N (Option Word)) := by
    induction headers generalizing sz with
    | nil => exact .pure _
    | cons header rest ih =>
      cases header with
      | none => exact .pure _
      | some ph =>
        rw [loadSegments]
        split
        · exact ih sz
        · split
          · exact .pure _
          · refine (neverStuck_allocuvm _ _).bind fun sz' ↦ ?_
            split
            · exact .pure _
            · split
              · exact .pure _
              · exact ih sz'
  refine (hload image.headers 0).bind fun r ↦ ?_
  cases r with
  | none => exact .pure _
  | some sz =>
    refine (neverStuck_allocuvm _ _).bind fun sz' ↦ ?_
    split
    · exact .pure _
    · have hclear (uva : Word) : NeverStuck (clearpteu d uva : Kernel N Unit) := by
        refine (neverStuck_walkpgdir uva false).bind fun r ↦ ?_
        cases r with
        | none => exact .panic
        | some v =>
          exact (NeverStuck.get.bind_pure _).bind fun _ ↦ .modify _
      refine (hclear _).bind fun _ ↦ ?_
      split
      · exact .pure _
      · exact .pure _

/-! ## Freeing pages below `MMAPBASE` -/

theorem not_sharing_of_low {v : Vpn} (h : v < mmapVpn) (o : Owner N) :
    ¬ Sharing E (.page d v) o := by
  intro hsharing
  obtain ⟨d₁, d₂, v₁, heq, _, hbase, _, _⟩ := hsharing.exists_pages
  cases heq
  rw [lt_def] at h
  rw [le_def] at hbase
  omega

theorem vpn_lt_mmapVpn (h : a.toNat < 0x60000000) : vpn a < mmapVpn := by
  rw [lt_def, toNat_vpn, mmapVpn, toNat_vpn, show mmapBase.toNat = 0x60000000 from rfl]
  omega

theorem keeps_freePage (hd : d ∈ D) {v : Vpn} (hlow : v < mmapVpn) :
    Keeps (FrameSound (N := N) E D R) (freePage d v) := by
  refine .bind (Q := fun pte s ↦ FrameSound E D R s ∧
    pte = (s.pgdirs d).pte v) (fun s hs ↦ ⟨hs, rfl⟩) fun pte ↦ ?_
  split
  · split
    · exact .halt fun s hs ↦ hs.1
    · rename_i hne
      have hrelease := release (N := N) (E := E) (R := R) hd hne
        (not_sharing_of_low (E := E) hlow)
      exact hrelease.pre fun s hs ↦ ⟨hs.1, by rw [hs.2]⟩
  · exact .pure fun s hs ↦ hs.1

theorem keeps_walkpgdir_false (va : Word) {I : Machine N → Prop} {X : Halt → Machine N → Prop} :
    Triple I (walkpgdir d va false) (fun _ ↦ I) X := by
  intro s hs
  rw [walkpgdir_false_apply]
  exact hs

/-- The loop of `deallocuvm` keeps what freeing a page keeps. -/
theorem deallocFrom_rule {I : Machine N → Prop} {X : Halt → Machine N → Prop}
    (hstuck : ∀ t, I t → X .stuck t)
    (hpage : ∀ a t, a < oldsz → ((t.pgdirs d).tabs (vpn a).pdx).isSome = true → I t →
      Triple (· = t) (freePage d (vpn a)) (fun _ ↦ I) X) (n : ℕ) (a : Word) :
    Triple I (deallocFrom d oldsz n a) (fun _ ↦ I) X := by
  induction n generalizing a with
  | zero =>
    rw [deallocFrom]
    split
    · exact .halt hstuck
    · exact .pure fun _ ↦ id
  | succ n ih =>
    rw [deallocFrom]
    split
    · rename_i hlt
      intro t ht
      rw [bind_of_ok (walkpgdir_false_apply d a t)]
      by_cases htable : ((t.pgdirs d).tabs (vpn a).pdx).isSome = true
      · rw [if_pos htable]
        exact Triple.bind (hpage a t hlt htable ht) (fun _ ↦ ih _) t rfl
      · rw [if_neg htable]
        exact ih _ t ht
    · exact .pure fun _ ↦ id

theorem keeps_deallocuvm (hd : d ∈ D) (hold : oldsz.toNat ≤ 0x60000000) (newsz : Word) :
    Keeps (FrameSound (N := N) E D R) (deallocuvm d oldsz newsz) := by
  rw [deallocuvm]
  split
  · exact .pure fun _ ↦ id
  · refine .bind (deallocFrom_rule (I := FrameSound E D R) (fun _ ↦ id) (fun a t hlt _ ht ↦ ?_) _ _)
      fun _ ↦ .pure fun _ ↦ id
    exact (keeps_freePage hd (vpn_lt_mmapVpn (Nat.lt_of_lt_of_le hlt hold))).at_state ht

/-! ## Freeing a directory -/

/-- The frames of the page-table pages behind the directory entries of a list. -/
def tableFrames (tabs : BitVec 10 → Option Word) (indices : List (BitVec 10)) : Set Word :=
  { f | ∃ i ∈ indices, tabs i = some f }

/-- A directory that is given up leaves its page-table pages and itself with the running call. -/
theorem frameSound_retire (hd : d ∉ D)
    (h : FrameSound E (insert d D) R s) (indices : List (BitVec 10)) :
    FrameSound E D (insert d R ∪ tableFrames (s.pgdirs d).tabs indices) s := by
  have hmem : d ∈ insert d D := Set.mem_insert d D
  -- every newly reserved frame was held by the directory
  have hold (f : Word) (hf : f ∈ insert d R ∪ tableFrames (s.pgdirs d).tabs indices) :
      s.Owns (insert d D) R (.reserved f) f ∨
        s.Owns (insert d D) R (.dir d) f ∨
          ∃ i, s.Owns (insert d D) R (.table d i) f := by
    rcases hf with hf | ⟨i, _, htab⟩
    · rcases Set.mem_insert_iff.mp hf with rfl | hf
      · exact .inr (.inl ⟨hmem, rfl⟩)
      · exact .inl ⟨hf, rfl⟩
    · exact .inr (.inr ⟨i, hmem, htab⟩)
  have hother {o : Owner N} {f : Word} (ho : s.Owns D ∅ o f) :
      s.Owns (insert d D) R o f ∧ o ≠ .dir d ∧ (∀ i, o ≠ .table d i) ∧
        ∀ g, o ≠ .reserved g := by
    refine ⟨owns_mono (Set.subset_insert d D) (Set.empty_subset _) ho, ?_, ?_, ?_⟩
    · rintro rfl
      exact hd ho.1
    · rintro i rfl
      exact hd ho.1
    · rintro g rfl
      exact ho.1.elim
  -- so whoever holds a frame now, somebody held it before
  have hheld (o : Owner N) (f : Word)
      (ho : s.Owns D (insert d R ∪ tableFrames (s.pgdirs d).tabs indices) o f) :
      ∃ o', s.Owns (insert d D) R o' f := by
    cases o with
    | reserved g =>
      obtain ⟨hg, rfl⟩ := ho
      rcases hold f hg with hown | hown | ⟨i, hown⟩
      · exact ⟨_, hown⟩
      · exact ⟨_, hown⟩
      · exact ⟨_, hown⟩
    | page d' v => exact ⟨_, (hother (o := .page d' v) ho).1⟩
    | table d' i => exact ⟨_, (hother (o := .table d' i) ho).1⟩
    | dir d' => exact ⟨_, (hother (o := .dir d') ho).1⟩
    | stack p => exact ⟨.stack p, ho⟩
    | cache i => exact ⟨.cache i, ho⟩
  refine ⟨⟨h.owners.nodup, ?_, ?_⟩, h.free_ok, ?_, ?_, h.kend_pos⟩
  · intro o f ho
    obtain ⟨o', ho'⟩ := hheld o f ho
    exact h.not_free ho'
  · intro o o' f ho ho'
    -- a reserved frame has no other owner
    have hreserved {g : Word} {o₂ : Owner N}
        (hg : g ∈ insert d R ∪ tableFrames (s.pgdirs d).tabs indices)
        (ho₂ : s.Owns D ∅ o₂ g) : False := by
      obtain ⟨hown₂, hnd, hnt, hnr⟩ := hother ho₂
      rcases hold g hg with hown | hown | ⟨i, hown⟩
      · exact hnr g ((h.owners.exclusive _ _ _ hown hown₂).resolve_right id).symm
      · exact hnd ((h.owners.exclusive _ _ _ hown hown₂).resolve_right id).symm
      · exact hnt i ((h.owners.exclusive _ _ _ hown hown₂).resolve_right id).symm
    have hplain {o₂ : Owner N} {g : Word}
        (ho₂ : s.Owns D (insert d R ∪ tableFrames (s.pgdirs d).tabs indices) o₂ g) :
        (∃ g', o₂ = .reserved g' ∧ g' ∈ insert d R ∪
          tableFrames (s.pgdirs d).tabs indices ∧ g = g') ∨ s.Owns D ∅ o₂ g := by
      cases o₂ with
      | reserved g' => exact .inl ⟨g', rfl, ho₂.1, ho₂.2⟩
      | page d' v | table d' i | dir d' | stack p | cache i => exact .inr ho₂
    rcases hplain ho with ⟨g, rfl, hg, rfl⟩ | hold₁
    · grind
    · grind [h.owners.exclusive]
  · intro o f ho
    obtain ⟨o', ho'⟩ := hheld o f ho
    exact h.held_ok o' f ho'
  · exact fun d' hd' ↦ h.entries d' (Set.mem_insert_of_mem d hd')

/-- Distinct page-table pages of a directory lie in distinct frames, none of them the directory or
otherwise reserved. -/
structure TablesApart (d : Word) (R : Set Word) (tabs : BitVec 10 → Option Word) : Prop where
  injective : ∀ i j f, tabs i = some f → tabs j = some f → i = j
  not_reserved : ∀ i f, tabs i = some f → f ∉ insert d R

theorem FrameSound.tablesApart (h : FrameSound E D R s)
    (hd : d ∈ D) : TablesApart d R (s.pgdirs d).tabs := by
  constructor
  · intro i j f hi hj
    have howns (k : BitVec 10) (hk : (s.pgdirs d).tabs k = some f) :
        s.Owns D R (.table d k) f := ⟨hd, hk⟩
    cases (h.owners.exclusive _ _ _ (howns i hi) (howns j hj)).resolve_right id
    rfl
  · intro i f hi hf
    have howns : s.Owns D R (.table d i) f := ⟨hd, hi⟩
    rcases Set.mem_insert_iff.mp hf with rfl | hf
    · have hdir : s.Owns D R (.dir f) f := ⟨hd, rfl⟩
      cases (h.owners.exclusive _ _ _ howns hdir).resolve_right id
    · have hreserved : s.Owns D R (.reserved f) f := ⟨hf, rfl⟩
      cases (h.owners.exclusive _ _ _ howns hreserved).resolve_right id

theorem respects_kfree_pgdirs {X : (Word → PageDir) → Prop} (f : Word) :
    Respects (.ofInvariant fun s : Machine N ↦ X s.pgdirs) (kfree f) := by
  intro s hs
  rw [kfree_apply]
  split
  · exact hs
  · exact hs

theorem freePageTables_sound {tabs : BitVec 10 → Option Word} (htabs : TablesApart d R tabs)
    (indices : List (BitVec 10)) (hnodup : indices.Nodup) :
    Triple (fun s : Machine N ↦
        FrameSound E D (insert d R ∪ tableFrames tabs indices) s ∧
          (s.pgdirs d).tabs = tabs)
      (freePageTables d indices) (fun _ ↦ FrameSound E D (insert d R))
      fun _ ↦ FrameSound E D (insert d R) := by
  induction indices with
  | nil =>
    exact .pure fun s hs ↦ hs.1.mono (subset_refl D) Set.subset_union_left
  | cons i rest ih =>
    obtain ⟨hi, hrest⟩ := nodup_cons.mp hnodup
    refine .get_bind fun s hs ↦ ?_
    rw [hs.2]
    cases htab : tabs i with
    | none =>
      refine (ih hrest).at_state ⟨hs.1.mono (subset_refl D) ?_, hs.2⟩
      refine Set.union_subset_union_right _ ?_
      rintro f ⟨j, hj, hf⟩
      exact ⟨j, mem_cons_of_mem i hj, hf⟩
    | some f =>
      have hfresh : f ∉ insert d R ∪ tableFrames tabs rest := by
        rintro (hf | ⟨j, hj, hf⟩)
        · exact htabs.not_reserved i f htab hf
        · exact hi (htabs.injective i j f htab hf ▸ hj)
      have hsplit : insert f (insert d R ∪ tableFrames tabs rest) ⊆
          insert d R ∪ tableFrames tabs (i :: rest) := by
        rintro g (rfl | hg | ⟨j, hj, hg⟩)
        · exact .inr ⟨i, mem_cons_self, htab⟩
        · exact .inl hg
        · exact .inr ⟨j, mem_cons_of_mem i hj, hg⟩
      have hfree := (kfree_reserved (N := N) (E := E) (D := D) hfresh).carry
        (respects_kfree_pgdirs (X := fun pgdirs ↦ (pgdirs d).tabs = tabs) f)
      refine (hfree.at_state ⟨hs.1.mono (subset_refl D) hsplit, hs.2⟩).seq ?_ fun _ ↦ ih hrest
      exact fun _ t ht ↦ ht.1.mono (subset_refl D) Set.subset_union_left

theorem nodup_pdeIndices : pdeIndices.Nodup := by
  refine List.Nodup.map_on ?_ nodup_range
  intro i hi j hj hequal
  have hi' := mem_range.mp hi
  have hj' := mem_range.mp hj
  have hnat := congrArg BitVec.toNat hequal
  rw [toNat_ofNat, toNat_ofNat, Nat.mod_eq_of_lt (by omega),
    Nat.mod_eq_of_lt (by omega)] at hnat
  exact hnat

/-- `freevm` gives back a directory that is in use. -/
theorem freevm_sound (hd : d ∉ D) :
    Triple (FrameSound (N := N) E (insert d D) R) (freevm d)
      (fun _ ↦ FrameSound E D R) fun _ ↦ FrameSound E D R := by
  have hmem : d ∈ insert d D := Set.mem_insert d D
  have hbase : mmapBase.toNat ≤ 0x60000000 := le_rfl
  have hnodup := nodup_pdeIndices
  rw [freevm]
  generalize pdeIndices = indices at hnodup ⊢
  refine (keeps_deallocuvm hmem hbase 0).seq
    (fun _ s hs ↦ hs.mono (Set.subset_insert d D) (subset_refl R)) fun _ ↦ ?_
  refine .of_forall fun s hs ↦ ?_
  have hreserved : d ∉ R := by
    intro hd'
    have hdir : s.Owns (insert d D) R (.dir d) d := ⟨hmem, rfl⟩
    have hres : s.Owns (insert d D) R (.reserved d) d := ⟨hd', rfl⟩
    cases (hs.owners.exclusive _ _ _ hdir hres).resolve_right id
  have hretire := frameSound_retire hd hs indices
  have htables := freePageTables_sound (N := N) (E := E) (D := D)
    (FrameSound.tablesApart hs hmem) indices hnodup
  refine (htables.at_state ⟨hretire, rfl⟩).seq
    (fun _ t ht ↦ ht.mono (subset_refl D) (Set.subset_insert d R)) fun _ ↦ ?_
  exact kfree_reserved hreserved

/-! ## New directories -/

/-- A directory without entries owns nothing but itself, and shares no page. -/
theorem newDir_sound (hd : d ∉ D) (hd' : d ∉ R) (h : FrameSound E D (insert d R) s) :
    FrameSound (fun d' v ↦ E d' v ∨ d' = d) (insert d D) R
      { s with pgdirs := update s.pgdirs d ⟨fun _ ↦ none, fun _ ↦ 0⟩ } := by
  have howns := FrameSound.owns_reserved s D R d
  have hmono := h.unreserve
  have hsplit (o : Owner N) (g : Word)
      (ho : Owns { s with pgdirs := update s.pgdirs d ⟨fun _ ↦ none, fun _ ↦ 0⟩ }
        (insert d D) R o g) :
      (s.Owns D R o g ∧ ∀ v, o ≠ .page d v) ∨ (o = .dir d ∧ g = d) := by
    cases o with
    | dir d' =>
      obtain ⟨hmem', rfl⟩ := ho
      rcases Set.mem_insert_iff.mp hmem' with rfl | hmem'
      · exact .inr ⟨rfl, rfl⟩
      · exact .inl ⟨⟨hmem', rfl⟩, by simp⟩
    | table d' i =>
      obtain ⟨hmem', htab⟩ := ho
      by_cases hdd : d' = d
      · subst hdd
        simp only [update_self] at htab
        cases htab
      · simp only [update_of_ne hdd] at htab
        exact .inl ⟨⟨(Set.mem_insert_iff.mp hmem').resolve_left hdd, htab⟩, by simp⟩
    | page d' v =>
      obtain ⟨hmem', hpage⟩ := ho
      by_cases hdd : d' = d
      · subst hdd
        simp only [update_self] at hpage
        exact absurd hpage.1 (by decide)
      · simp only [update_of_ne hdd] at hpage
        refine .inl ⟨⟨(Set.mem_insert_iff.mp hmem').resolve_left hdd, hpage⟩, ?_⟩
        rintro v' ⟨⟩
        exact hdd rfl
    | stack p | cache i | reserved g' => exact .inl ⟨ho, by simp⟩
  refine ⟨⟨h.owners.nodup, ?_, ?_⟩, h.free_ok, ?_, ?_, h.kend_pos⟩
  · grind [hmono.not_free, h.not_free]
  · intro o o' g ho ho'
    have hfresh (o₂ : Owner N) : ¬ s.Owns D R o₂ d := h.not_owns_reserved hd' o₂
    rcases hsplit o g ho with ⟨hold, hpage⟩ | ⟨rfl, rfl⟩
    · rcases hsplit o' g ho' with ⟨hold', hpage'⟩ | ⟨_, rfl⟩
      · refine (hmono.owners.exclusive o o' g hold hold').imp id fun hsharing ↦ ?_
        obtain ⟨d₁, d₂, v, rfl, rfl, hbase, hE, hE'⟩ := hsharing.exists_pages
        refine ⟨rfl, hbase, ?_, ?_⟩
        · rintro (h₁ | rfl)
          · exact hE h₁
          · exact hpage v rfl
        · rintro (h₁ | rfl)
          · exact hE' h₁
          · exact hpage' v rfl
      · exact absurd hold (hfresh o)
    · grind
  · grind [hmono.held_ok, h.held_ok]
  · grind [update_apply, h.entries]

/-- Going on after `kalloc`, with nothing but the frames to look after. -/
theorem kalloc_bind_sound {k : Option Word → Kernel N α} {Q : α → Machine N → Prop}
    {X : Halt → Machine N → Prop} (hnone : Triple (FrameSound E D R) (k none) Q X)
    (hsome : ∀ f, f ∉ R →
      Triple (FrameSound E D (insert f R)) (k (some f)) Q X) :
    Triple (FrameSound E D R) (kalloc >>= k) Q X := by
  have hkalloc := kalloc_allocated (N := N) (E := E) (D := D)
    (R := R) (C := fun _ ↦ True) fun _ _ h ↦ h
  refine (hkalloc.pre fun s hs ↦ ⟨hs, trivial⟩).seq (fun _ _ h ↦ h.elim) fun r ↦ ?_
  cases r with
  | none => exact hnone.pre fun s hs ↦ hs.1
  | some f =>
    refine .of_forall fun s hs ↦ ?_
    exact (hsome f hs.1.2).at_state hs.1.1

/-- A frame or directory fewer to share changes nothing for the others. -/
theorem FrameSound.of_new {d' : Word} (h : FrameSound (fun d₁ v ↦ E d₁ v ∨ d₁ = d') D R s) :
    FrameSound E D R s :=
  h.of_exclusive fun _ _ _ _ _ _ _ _ _ hE hE' ↦
    ⟨fun h₁ ↦ hE (.inl h₁), fun h₁ ↦ hE' (.inl h₁)⟩

/-- A new directory is given up. -/
theorem freevm_gives_up {Q : Option Word → Machine N → Prop} (hd : d ∉ D)
    (hQ : ∀ t, FrameSound E D R t → Q none t) :
    Triple (FrameSound (fun d' v ↦ E d' v ∨ d' = d) (insert d D) R)
      (do freevm d; return none : Kernel N (Option Word)) Q fun _ ↦ FrameSound E D R :=
  (freevm_sound hd).seq (fun _ _ ht ↦ FrameSound.of_new ht) fun _ ↦
    Triple.pure fun t ht ↦ hQ t (FrameSound.of_new ht)

theorem keeps_mapKernel (hd : d ∈ D) (indices : List (BitVec 10)) :
    Keeps (FrameSound (N := N) E D R) (mapKernel d indices) := by
  induction indices with
  | nil => exact .pure fun _ ↦ id
  | cons i rest ih =>
    refine kalloc_bind_sound (.pure fun _ ↦ id) fun pgtab hfresh ↦ ?_
    have htable := addPageTable_sound (N := N) (E := E) hd hfresh i (C := fun _ ↦ True)
      fun _ _ _ h ↦ h
    refine (htable.pre fun s hs ↦ ⟨hs, trivial⟩).seq (fun _ _ h ↦ h.elim) fun _ ↦ ?_
    exact ih.pre fun t ht ↦ ht.1

/-- `setupkvm` makes a directory that shares no page. -/
theorem setupkvm_sound :
    Triple (FrameSound (N := N) E D R) setupkvm
      (fun r s ↦ match r with
        | none => FrameSound E D R s
        | some d => d ∉ D ∧
            FrameSound (fun d' v ↦ E d' v ∨ d' = d) (insert d D) R s)
      fun _ ↦ FrameSound E D R := by
  refine kalloc_bind_sound (.pure fun _ ↦ id) fun d hfresh ↦ ?_
  refine .of_forall fun s hsound ↦ ?_
  have hd : d ∉ D := by
    intro hmem
    have hdir : s.Owns D (insert d R) (.dir d) d := ⟨hmem, rfl⟩
    cases (hsound.owners.exclusive _ _ _ hdir
      (FrameSound.owns_reserved s D R d)).resolve_right id
  have hio := FrameSound.ioFrame (N := N) E D (insert d R)
  have hmemset := Triple.of_respects (respects_memset hio.toCacheFrame d 0 4096)
  refine (hmemset.at_state hsound).seq (fun _ _ ht ↦ .unreserve ht) fun _ ↦ ?_
  refine .bind (Q := fun _ ↦ FrameSound (fun d' v ↦ E d' v ∨ d' = d) (insert d D)
    R) (.modify fun t ht ↦ newDir_sound hd hfresh ht) fun _ ↦ ?_
  have hmem : d ∈ insert d D := Set.mem_insert d D
  refine (keeps_mapKernel hmem kernelPdes).seq (fun _ t ht ↦ ?_) fun mapped ↦ ?_
  · exact FrameSound.of_new (ht.mono (Set.subset_insert d D) (subset_refl R))
  · cases mapped with
    | true => exact .pure fun t ht ↦ ⟨hd, ht⟩
    | false => exact freevm_gives_up hd fun _ ↦ id

/-! ## Filling an address space -/

theorem keeps_allocFrom (hd : d ∈ D) (hnew : newsz.toNat < 0x60000000)
    (n : ℕ) (haligned : a.toNat % 4096 = 0) :
    Keeps (FrameSound (N := N) E D R) (allocFrom d oldsz newsz n a) := by
  induction n generalizing a with
  | zero =>
    rw [allocFrom]
    split
    · exact .halt fun _ ↦ id
    · exact .pure fun _ ↦ id
  | succ n ih =>
    rw [allocFrom]
    split
    · refine kalloc_bind_sound ?_ fun mem hmem ↦ ?_
      · exact .bind (keeps_deallocuvm hd hnew.le oldsz) fun _ ↦ .pure fun _ ↦ id
      · have hio := FrameSound.ioFrame (N := N) E D (insert mem R)
        have hmemset := Triple.of_respects (respects_memset hio.toCacheFrame mem 0 4096)
        refine hmemset.seq (fun _ _ ht ↦ .unreserve ht) fun _ ↦ ?_
        rw [mappages_page haligned]
        refine .bind (mapPage_reserved hd hmem (by decide) a) fun mapped ↦ ?_
        cases mapped with
        | true => exact ih (aligned_add haligned rfl)
        | false =>
          refine (keeps_deallocuvm hd hnew.le oldsz).seq (fun _ _ ht ↦ .unreserve ht)
            fun _ ↦ ?_
          exact .bind (kfree_reserved hmem) fun _ ↦ .pure fun _ ↦ id
    · exact .pure fun _ ↦ id

/-- `allocuvm` keeps the frames sound and returns zero, the old size or a size below
`MMAPBASE`. -/
theorem allocuvm_sound (hd : d ∈ D) (oldsz newsz : Word) :
    Triple (FrameSound (N := N) E D R) (allocuvm d oldsz newsz)
      (fun sz s ↦ FrameSound E D R s ∧
        (sz = 0 ∨ (sz = oldsz ∧ newsz < oldsz) ∨ (sz = newsz ∧ newsz.toNat < 0x60000000)))
      fun _ ↦ FrameSound E D R := by
  rw [allocuvm]
  split
  · exact .pure fun s hs ↦ ⟨hs, .inl rfl⟩
  · rename_i hbase
    have hnew : newsz.toNat < 0x60000000 := by
      rw [BitVec.not_le] at hbase
      exact hbase
    split
    · rename_i hlt
      exact .pure fun s hs ↦ ⟨hs, .inr (.inl ⟨rfl, hlt⟩)⟩
    · refine .bind (keeps_allocFrom hd hnew _ (pgRoundUp_mod oldsz)) fun mapped ↦ ?_
      split
      · exact .pure fun s hs ↦ ⟨hs, .inr (.inr ⟨rfl, hnew⟩)⟩
      · exact .pure fun s hs ↦ ⟨hs, .inl rfl⟩

theorem keeps_copyPageTo (hd : d ∈ D) (pgdir : Word) {i : Word} (haligned : i.toNat % 4096 = 0) :
    Keeps (FrameSound (N := N) E D R) (copyPageTo pgdir d i) := by
  refine .bind (keeps_walkpgdir_false i) fun r ↦ ?_
  cases r with
  | none => exact .halt fun _ ↦ id
  | some v =>
    refine .bind (Q := fun _ ↦ FrameSound E D R) (fun _ ↦ id) fun pte ↦ ?_
    split
    · refine kalloc_bind_sound (.pure fun _ ↦ id) fun mem hmem ↦ ?_
      have hio := FrameSound.ioFrame (N := N) E D (insert mem R)
      have hmove := Triple.of_respects (respects_memmove hio.toCacheFrame mem (pteAddr pte) 4096)
      refine hmove.seq (fun _ _ ht ↦ .unreserve ht) fun _ ↦ ?_
      rw [mappages_page haligned]
      refine .bind (mapPage_reserved hd hmem (pteFlags_lt pte) i) fun mapped ↦ ?_
      cases mapped with
      | true => exact .pure fun _ ↦ id
      | false => exact .bind (kfree_reserved hmem) fun _ ↦ .pure fun _ ↦ id
    · exact .halt fun _ ↦ id

theorem keeps_copyFrom (hd : d ∈ D) (pgdir sz : Word) (n : ℕ) {i : Word}
    (haligned : i.toNat % 4096 = 0) :
    Keeps (FrameSound (N := N) E D R) (copyFrom pgdir d sz n i) := by
  induction n generalizing i with
  | zero =>
    rw [copyFrom]
    split
    · exact .halt fun _ ↦ id
    · exact .pure fun _ ↦ id
  | succ n ih =>
    rw [copyFrom]
    split
    · refine .bind (keeps_copyPageTo hd pgdir haligned) fun copied ↦ ?_
      split
      · exact ih (aligned_add haligned rfl)
      · exact .pure fun _ ↦ id
    · exact .pure fun _ ↦ id

theorem copyuvm_sound (pgdir sz : Word) :
    Triple (FrameSound (N := N) E D R) (copyuvm pgdir sz)
      (fun r s ↦ match r with
        | none => FrameSound E D R s
        | some d => d ∉ D ∧
            FrameSound (fun d' v ↦ E d' v ∨ d' = d) (insert d D) R s)
      fun _ ↦ FrameSound E D R := by
  refine .bind setupkvm_sound fun r ↦ ?_
  cases r with
  | none => exact .pure fun s hs ↦ hs
  | some d =>
    refine .of_forall fun s hs ↦ ?_
    obtain ⟨hd, hsound⟩ := hs
    have hmem : d ∈ insert d D := Set.mem_insert d D
    have hcopy := keeps_copyFrom (N := N) (E := fun d' v ↦ E d' v ∨ d' = d)
      (R := R) hmem pgdir sz (sz.toNat / 4096 + 1) (i := 0) rfl
    refine (hcopy.at_state hsound).seq (fun _ t ht ↦ ?_) fun copied ↦ ?_
    · exact FrameSound.of_new (ht.mono (Set.subset_insert d D) (subset_refl R))
    · cases copied with
      | true => exact .pure fun t ht ↦ ⟨hd, ht⟩
      | false => exact freevm_gives_up hd fun _ ↦ id

/-! ## The image of `exec` -/

/-- Clearing the user bit leaves a page present. -/
theorem has_pteP_clear (x : Word) : (x &&& ~~~pteU).has pteP = x.has pteP := by
  rw [Word.has, BitVec.and_assoc, show ~~~pteU &&& pteP = pteP by decide]
  rfl

theorem keeps_clearpteu (hd : d ∈ D) (uva : Word) :
    Keeps (FrameSound (N := N) E D R) (clearpteu d uva) := by
  refine .bind (keeps_walkpgdir_false uva) fun r ↦ ?_
  cases r with
  | none => exact .halt fun _ ↦ id
  | some v =>
    intro t hsound
    change FrameSound E D R (t.setPte d v ((t.pgdirs d).pte v &&& ~~~pteU))
    have hframe : pteAddr ((t.pgdirs d).pte v &&& ~~~pteU) = pteAddr ((t.pgdirs d).pte v) := by
      rw [pteAddr, BitVec.and_assoc, show ~~~pteU &&& ~~~(0xFFF : Word) = ~~~(0xFFF : Word) by
        decide]
      rfl
    have hbit := has_pteP_clear ((t.pgdirs d).pte v)
    by_cases hzero : (t.pgdirs d).pte v = 0
    · have hsame : t.setPte d v ((t.pgdirs d).pte v &&& ~~~pteU) = t := by
        have hnull : (t.pgdirs d).pte v &&& ~~~pteU = (t.pgdirs d).pte v := by
          rw [hzero]
          decide
        rw [hnull, setPte]
        simp
      rw [hsame]
      exact hsound
    · have hpresent := hsound.entries d hd v hzero
      by_cases hnull : pteAddr ((t.pgdirs d).pte v) = 0
      · refine hsound.setPte (hbit.trans hpresent) (hframe.trans hnull) ?_ (subset_refl R)
          fun hne ↦ absurd rfl hne
        exact fun hmem ↦ (hsound.free_ok 0 hmem).1 rfl
      · have howns : t.Owns D R (.page d v) (pteAddr ((t.pgdirs d).pte v)) :=
          ⟨hd, hpresent, rfl, hnull⟩
        refine hsound.setPte (hbit.trans hpresent) hframe (hsound.not_free howns)
          (subset_refl R) ?_
        intro _ o ho
        exact (hsound.owners.exclusive _ _ _ howns ho).imp .symm id

theorem loadSegments_sound (hd : d ∈ D) (headers : List (Option ProgHdr)) {sz : Word}
    (hsz : sz.toNat < 0x60000000) :
    Triple (FrameSound (N := N) E D R) (loadSegments d headers sz)
      (fun r s ↦ FrameSound E D R s ∧ ∀ sz', r = some sz' → sz'.toNat < 0x60000000)
      fun _ ↦ FrameSound E D R := by
  induction headers generalizing sz with
  | nil =>
    refine .pure fun s hs ↦ ⟨hs, ?_⟩
    rintro sz' ⟨⟩
    exact hsz
  | cons header rest ih =>
    have hnone : Triple (FrameSound (N := N) E D R)
        (pure (none : Option Word) : Kernel N _)
        (fun r s ↦ FrameSound E D R s ∧ ∀ sz', r = some sz' → sz'.toNat < 0x60000000)
        fun _ ↦ FrameSound E D R :=
      .pure fun s hs ↦ ⟨hs, fun sz' h ↦ by cases h⟩
    cases header with
    | none => exact hnone
    | some ph =>
      rw [loadSegments]
      split
      · exact ih hsz
      · split
        · exact hnone
        · refine .bind (allocuvm_sound hd sz (ph.vaddr + ph.memsz)) fun sz' ↦ ?_
          split
          · exact hnone.pre fun s hs ↦ hs.1
          · split
            · exact hnone.pre fun s hs ↦ hs.1
            · rename_i hne _
              refine .of_forall fun s hs ↦ ?_
              obtain ⟨hsound, hcases⟩ := hs
              have hsz' : sz'.toNat < 0x60000000 := by grind
              exact (ih hsz').at_state hsound

theorem buildImage_sound (hd : d ∈ D) (image : ExecImage) :
    Triple (FrameSound (N := N) E D R) (buildImage d image)
      (fun r s ↦ FrameSound E D R s ∧ ∀ sz, r = some sz → sz.toNat < 0x60000000)
      fun _ ↦ FrameSound E D R := by
  have hnone : Triple (FrameSound (N := N) E D R)
      (pure (none : Option Word) : Kernel N _)
      (fun r s ↦ FrameSound E D R s ∧ ∀ sz, r = some sz → sz.toNat < 0x60000000)
      fun _ ↦ FrameSound E D R :=
    .pure fun s hs ↦ ⟨hs, fun sz h ↦ by cases h⟩
  refine .bind (loadSegments_sound hd image.headers (by decide)) fun r ↦ ?_
  cases r with
  | none => exact hnone.pre fun s hs ↦ hs.1
  | some sz =>
    refine .of_forall ?_
    intro s hs
    have hsz := hs.2 sz rfl
    have hround : (pgRoundUp sz).toNat ≤ 0x60000000 := by
      rw [toNat_pgRoundUp]
      omega
    dsimp only
    generalize pgRoundUp sz = top at hround ⊢
    generalize hnew : top + 2 * pgSize = newsz
    have hstack := (allocuvm_sound (N := N) (E := E) (R := R) hd
      top newsz).at_state hs.1
    refine .bind hstack fun sz' ↦ ?_
    split
    · exact hnone.pre fun t ht ↦ ht.1
    · rename_i hne
      refine .of_forall fun t ht ↦ ?_
      obtain ⟨hsound, hcases⟩ := ht
      have hsz' : sz'.toNat < 0x60000000 := by
        rcases hcases with h | ⟨_, hlt⟩ | ⟨rfl, h⟩
        · exact absurd h hne
        · exfalso
          have hsum : newsz.toNat = top.toNat + 8192 := by
            rw [← hnew, toNat_add, show (2 * pgSize).toNat = 8192 from rfl,
              Nat.mod_eq_of_lt (by omega)]
          rw [lt_def, hsum] at hlt
          omega
        · exact h
      refine .bind ((keeps_clearpteu hd _).at_state hsound) fun _ ↦ ?_
      split
      · refine .pure fun u hu ↦ ⟨hu, ?_⟩
        rintro sz'' ⟨⟩
        exact hsz'
      · exact hnone

end Kernel

end Xv6Mmap
