import Xv6Mmap.Machine.Entries
import Xv6Mmap.Machine.FrameSpaces

/-!
# Filling and clearing an address space (`growproc`, `allocuvm`, `deallocuvm`)

`allocuvm` fills the entries of a range of pages and takes them back if it runs out of frames;
`deallocuvm` clears a range.  Both, and what `exec` does with a new directory, are described by what
they do to the entries of one directory: nothing else changes but memory and the free list.
-/

namespace Xv6Mmap

open Function Library Prog BitVec Machine

variable {N : ℕ} {v : Vpn} {pte : Word} {e₀ e e' : Vpn → Word} {lo k : ℕ}

namespace Kernel

/-- The call that `growproc` makes for `n` more bytes. -/
def resize (pgdir sz n : Word) : Kernel N Word :=
  if (0 : Word).slt n then allocuvm pgdir sz (sz + n)
  else if n.slt 0 then deallocuvm pgdir sz (sz + n)
  else pure sz

/-- `growproc` by `p`; the result is `-1` on failure. -/
def growproc (p : Fin N) (n : Word) : Kernel N Word := do
  let s ← get
  let sz ← resize (s.procs p).pgdir (s.procs p).sz n
  -- A new size of zero is taken for a failure.
  if n ≠ 0 ∧ sz = 0 then return -1
  else
    setProc p fun proc ↦ { proc with sz := sz }
    return 0

end Kernel

/-! ## Work on one directory -/

/-- Since `s`, only directory `d` has been written, and its entries are as `I` says. -/
structure OnDir (s : Machine N) (d : Word) (I : (Vpn → Word) → Prop) (t : Machine N) : Prop where
  rest : t = { s with mem := t.mem, freelist := t.freelist, pgdirs := t.pgdirs }
  others : ∀ d', d' ≠ d → t.pgdirs d' = s.pgdirs d'
  tabled : (t.pgdirs d).Tabled
  entries : I (t.pgdirs d).pte

namespace OnDir

variable {s t u : Machine N} {d : Word} {I J : (Vpn → Word) → Prop}

theorem self (htabled : (s.pgdirs d).Tabled) (h : I (s.pgdirs d).pte) : OnDir s d I s :=
  ⟨rfl, fun _ _ ↦ rfl, htabled, h⟩

theorem mono (h : OnDir s d I t) (hI : ∀ e, I e → J e) : OnDir s d J t :=
  ⟨h.rest, h.others, h.tabled, hI _ h.entries⟩

theorem buffers (h : OnDir s d I t) (mem : Word → Byte) (free : List Word) :
    OnDir s d I { t with mem := mem, freelist := free } := by
  refine ⟨?_, h.others, h.tabled, h.entries⟩
  conv_lhs => rw [h.rest]

theorem setDir (h : OnDir s d I t) {dir : PageDir} (htabled : dir.Tabled) (hJ : J dir.pte) :
    OnDir s d J (t.setDir d dir) where
  rest := by
    conv_lhs => rw [h.rest]
    rfl
  others d' hne := (pgdirs_setDir_of_ne t dir hne).trans (h.others d' hne)
  tabled := by
    rw [pgdirs_setDir_self]
    exact htabled
  entries := by
    rw [pgdirs_setDir_self]
    exact hJ

theorem setPte (h : OnDir s d I t) (htable : ((t.pgdirs d).tabs v.pdx).isSome = true)
    (hJ : J (update (t.pgdirs d).pte v pte)) :
    OnDir s d J (t.setPte d v pte) :=
  h.setDir (h.tabled.withPte htable pte) hJ

theorem walked (h : OnDir s d I t) {va : Word} (hwalked : t.walked d va = some u) :
    OnDir s d I u := by
  have hgrown := grown_of_walked hwalked
  refine ⟨?_, ?_, tabled_of_walked hwalked h.tabled, ?_⟩
  · rw [hgrown.rest]
    conv_lhs => rw [h.rest]
  · intro d' hne
    exact (hgrown.others d' hne).trans (h.others d' hne)
  · rw [hgrown.entries h.tabled]
    exact h.entries

end OnDir

namespace Kernel

open Machine

variable {s : Machine N} {d : Word} {I J : (Vpn → Word) → Prop} {α : Type}

theorem keeps_kfree_onDir (f : Word) : Keeps (OnDir s d I) (kfree f) := by
  intro t ht
  rw [kfree_apply]
  by_cases hbad : (f % pgSize != 0 || f < t.kend || physTop ≤ f) = true
  · rw [if_pos hbad]
    exact ht
  · rw [if_neg hbad]
    exact ht.buffers _ _

theorem keeps_memset_onDir (dst : Word) (c : Byte) (n : ℕ) :
    Keeps (OnDir s d I) (memset dst c n) :=
  .modify fun t ht ↦ ht.buffers _ t.freelist

theorem keeps_memmove_onDir (dst src : Word) (n : ℕ) :
    Keeps (OnDir s d I) (memmove dst src n) :=
  .modify fun t ht ↦ ht.buffers _ t.freelist

theorem kalloc_onDir {k : Option Word → Kernel N α} {Q : α → Machine N → Prop}
    {E : Halt → Machine N → Prop} (hnone : Triple (OnDir s d I) (k none) Q E)
    (hsome : ∀ frame, Triple (OnDir s d I) (k (some frame)) Q E) :
    Triple (OnDir s d I) (kalloc >>= k) Q E := by
  apply kalloc_rule
  · intro t ht _
    exact hnone.at_state ht
  · intro t frame rest ht _
    exact (hsome frame).at_state (ht.buffers t.mem rest)

theorem mapPage_onDir (va pa perm : Word) :
    Triple (OnDir s d I) (mapPage d va pa perm)
      (fun mapped ↦ OnDir s d fun e ↦ if mapped then
        ∃ e', I e' ∧ e = update e' (vpn va) (pa ||| perm ||| pteP) else I e)
      fun _ _ ↦ True := by
  refine .of_forall fun t ht ↦ (mapPage_run d va pa perm t).post ?_ fun _ _ _ ↦ trivial
  intro mapped u hu
  cases mapped with
  | false =>
    obtain ⟨_, rfl⟩ := hu
    exact ht
  | true =>
    obtain ⟨w, hwalked, _, rfl⟩ := hu
    have hw := ht.walked hwalked
    exact hw.setPte (isSome_of_walked hwalked) ⟨_, hw.entries, rfl⟩

/-- Freeing the page behind an entry that has a page-table page. -/
theorem freePage_onDir {t : Machine N} (ht : OnDir s d I t)
    (htable : ((t.pgdirs d).tabs v.pdx).isSome = true)
    (hpresent : ((t.pgdirs d).pte v).has pteP = true → J (update (t.pgdirs d).pte v 0))
    (habsent : ((t.pgdirs d).pte v).has pteP = false → J (t.pgdirs d).pte) :
    Triple (· = t) (freePage d v) (fun _ ↦ OnDir s d J) fun _ _ ↦ True := by
  refine .bind (Q := fun pte u ↦ pte = (t.pgdirs d).pte v ∧ u = t) ?_ fun pte ↦ ?_
  · rintro u rfl
    exact ⟨rfl, rfl⟩
  · refine .of_forall ?_
    rintro u ⟨rfl, rfl⟩
    by_cases hbit : ((u.pgdirs d).pte v).has pteP = true
    · rw [if_pos hbit]
      split
      · exact .halt fun _ _ ↦ trivial
      · rintro w rfl
        generalize pteAddr ((w.pgdirs d).pte v) = pa
        rw [bind_apply, kfree_apply]
        by_cases hbad : (pa % pgSize != 0 || pa < w.kend || physTop ≤ pa) = true
        · rw [if_pos hbad]
          trivial
        · rw [if_neg hbad]
          have hfreed := ht.buffers (fun a ↦ if (a - pa).toNat < 4096 then 1 else w.mem a)
            (pa :: w.freelist)
          exact hfreed.setPte htable (hpresent hbit)
    · rw [if_neg hbit]
      refine .pure_at ?_
      exact ⟨ht.rest, ht.others, ht.tabled, habsent (by simpa using hbit)⟩

end Kernel

/-! ## Ranges of entries -/

/-- The pages that hold the first `sz` bytes. -/
def pages (sz : Word) : ℕ := (sz.toNat + 4095) / 4096

theorem pages_mono {sz sz' : Word} (h : sz ≤ sz') : pages sz ≤ pages sz' := by
  rw [le_def] at h
  unfold pages
  omega

/-- Page `k` is one of the first `sz` bytes' if it starts among them. -/
theorem lt_iff_lt_pages {a sz : Word} (ha : a.toNat = 4096 * k) : a < sz ↔ k < pages sz := by
  rw [lt_def, pages]
  omega

theorem toNat_pgRoundUp_pages {sz : Word} (h : sz.toNat ≤ 0xFFFFF000) :
    (pgRoundUp sz).toNat = 4096 * pages sz := by
  rw [toNat_pgRoundUp_of_le h, pageCeil, pages, Nat.mul_comm]

/-- The entries `e` are the entries `e₀`, with pages `lo` to `k` filled. -/
def Filled (e₀ : Vpn → Word) (lo k : ℕ) (e : Vpn → Word) : Prop :=
  (∀ v : Vpn, lo ≤ v.toNat → v.toNat < k → (e v).has pteP = true) ∧
    ∀ v : Vpn, v.toNat < lo ∨ k ≤ v.toNat → e v = e₀ v

/-- The entries `e` are the entries `e₀`, with pages `lo` to `k` cleared. -/
def Cleared (e₀ : Vpn → Word) (lo k : ℕ) (e : Vpn → Word) : Prop :=
  (∀ v : Vpn, lo ≤ v.toNat → v.toNat < k → e v = 0) ∧
    ∀ v : Vpn, v.toNat < lo ∨ k ≤ v.toNat → e v = e₀ v

theorem filled_self (e : Vpn → Word) (lo : ℕ) : Filled e lo lo e :=
  ⟨fun _ h h' ↦ absurd h (by omega), fun _ _ ↦ rfl⟩

theorem cleared_self (e : Vpn → Word) (lo : ℕ) : Cleared e lo lo e :=
  ⟨fun _ h h' ↦ absurd h (by omega), fun _ _ ↦ rfl⟩

theorem Filled.eq (h : Filled e₀ lo lo e) : e = e₀ := by
  funext v
  exact h.2 v (by omega)

/-- One more entry of a range is written. -/
theorem range_update {P : Word → Prop} (h : (∀ w : Vpn, lo ≤ w.toNat → w.toNat < k → P (e w)) ∧
      ∀ w : Vpn, w.toNat < lo ∨ k ≤ w.toNat → e w = e₀ w) (hv : v.toNat = k) (hlo : lo ≤ k)
    (hpte : P pte) :
    (∀ w : Vpn, lo ≤ w.toNat → w.toNat < k + 1 → P (update e v pte w)) ∧
      ∀ w : Vpn, w.toNat < lo ∨ k + 1 ≤ w.toNat → update e v pte w = e₀ w := by
  constructor
  · intro w hw hw'
    by_cases hsame : w = v
    · rw [hsame, update_self]
      exact hpte
    · have hne : w.toNat ≠ v.toNat := fun heq ↦ hsame (eq_of_toNat_eq heq)
      rw [update_of_ne hsame]
      exact h.1 w hw (by omega)
  · intro w hw
    have hne : w ≠ v := by
      rintro rfl
      omega
    rw [update_of_ne hne]
    exact h.2 w (by omega)

theorem Filled.update
    (h : Filled e₀ lo k e) (hv : v.toNat = k) (hlo : lo ≤ k) (hpte : pte.has pteP = true) :
    Filled e₀ lo (k + 1) (update e v pte) :=
  range_update (P := fun pte ↦ pte.has pteP = true) h hv hlo hpte

/-- Clearing the pages that were filled leaves what was there before, if that was nothing. -/
theorem Filled.cleared {m hi : ℕ} (h : Filled e₀ lo k e)
    (hc : Cleared e m hi e') (hmk : m ≤ k) (hk : k ≤ hi)
    (hzero : ∀ v : Vpn, m ≤ v.toNat → v.toNat < hi → e₀ v = 0) : Filled e₀ lo m e' := by
  constructor
  · intro v hv hv'
    rw [hc.2 v (by omega)]
    exact h.1 v hv (by omega)
  · intro v hv
    by_cases hin : m ≤ v.toNat ∧ v.toNat < hi
    · rw [hc.1 v hin.1 hin.2, hzero v hin.1 hin.2]
    · rw [hc.2 v (by omega)]
      exact h.2 v (by omega)

/-! ## `deallocuvm` -/

theorem Vpn.toNat_pdx (v : Vpn) : v.pdx.toNat = v.toNat / 1024 := by
  have hlt := v.isLt
  rw [Vpn.pdx, toNat_setWidth, toNat_ushiftRight, Nat.shiftRight_eq_div_pow]
  omega

/-- The pages behind one directory entry without a page-table page are clear already. -/
theorem Cleared.skip {dir : PageDir} {j j' : ℕ} (h : Cleared e lo j dir.pte)
    (htabled : dir.Tabled) {i : BitVec 10} (hnone : (dir.tabs i).isSome = false) (hj : j ≤ j')
    (hpde : ∀ v : Vpn, j ≤ v.toNat → v.toNat < j' → v.pdx = i) : Cleared e lo j' dir.pte := by
  constructor
  · intro v hv hv'
    by_cases hlt : v.toNat < j
    · exact h.1 v hv hlt
    · apply htabled v
      rw [hpde v (by omega) hv']
      exact hnone
  · intro v hv
    exact h.2 v (by omega)

theorem Cleared.update {j : ℕ} (h : Cleared e lo j e')
    (hlo : lo ≤ j) (hv : v.toNat = j) : Cleared e lo (j + 1) (update e' v 0) :=
  range_update (P := (· = 0)) h hv hlo rfl

theorem Cleared.absent {j : ℕ} (h : Cleared e lo j e')
    (hv : v.toNat = j) (hzero : e' v = 0) : Cleared e lo (j + 1) e' := by
  constructor
  · intro w hw hw'
    by_cases hsame : w = v
    · rw [hsame, hzero]
    · have hne : w.toNat ≠ v.toNat := fun heq ↦ hsame (eq_of_toNat_eq heq)
      exact h.1 w hw (by omega)
  · intro w hw
    exact h.2 w (by omega)

namespace Kernel

open Machine

variable {s : Machine N} {d : Word} {I : (Vpn → Word) → Prop} {e e₀ : Vpn → Word}

/-- The loop of `deallocuvm` clears the pages from `lo` up to the old size. -/
theorem deallocFrom_cleared {oldsz : Word} (hold : oldsz.toNat ≤ 0x60000000)
    (hclean : ∀ v : Vpn, lo ≤ v.toNat → v.toNat < pages oldsz → e v ≠ 0 → (e v).has pteP = true)
    (n : ℕ) {a : Word} (ha : a.toNat = 4096 * k) (hlo : lo ≤ k) :
    Triple (OnDir s d (Cleared e lo (min k (pages oldsz)))) (deallocFrom d oldsz n a)
      (fun _ ↦ OnDir s d (Cleared e lo (pages oldsz))) fun _ _ ↦ True := by
  induction n generalizing a k with
  | zero =>
    simp only [deallocFrom, lt_iff_lt_pages ha]
    split
    · exact .halt fun _ _ ↦ trivial
    · rename_i hdone
      rw [Nat.min_eq_right (not_lt.mp hdone)]
      exact .pure fun _ ↦ id
  | succ n ih =>
    simp only [deallocFrom, lt_iff_lt_pages ha]
    split
    · rename_i hk
      have hlow : a.toNat < 0x60000000 := Nat.lt_of_lt_of_le ((lt_iff_lt_pages ha).mpr hk) hold
      rw [Nat.min_eq_left hk.le]
      refine .of_forall fun t ht ↦ ?_
      have hwalk := walkpgdir_false_apply d a t
      have hvpn : (vpn a).toNat = k := by
        rw [toNat_vpn]
        omega
      by_cases htable : ((t.pgdirs d).tabs (vpn a).pdx).isSome = true
      · rw [if_pos htable] at hwalk
        have hfree : Triple (· = t) (freePage d (vpn a))
            (fun _ ↦ OnDir s d (Cleared e lo (k + 1))) fun _ _ ↦ True := by
          apply freePage_onDir ht htable
          · intro _
            exact ht.entries.update hlo hvpn
          · intro habsent
            apply ht.entries.absent hvpn
            by_contra hne
            have hsame := ht.entries.2 (vpn a) (by omega)
            rw [hsame] at hne habsent
            rw [hclean (vpn a) (by omega) (by omega) hne] at habsent
            cases habsent
        have hnext := toNat_add_pgSize hlow
        have hrest := ih (a := a + pgSize) (k := k + 1) (by omega) (by omega)
        rw [Nat.min_eq_left (by omega)] at hrest
        rintro u rfl
        rw [bind_of_ok hwalk]
        exact Triple.bind hfree (fun _ ↦ hrest) u rfl
      · rw [if_neg htable] at hwalk
        have hnext := toNat_nextPde hlow
        have hpdx := Vpn.toNat_pdx (vpn a)
        have hskip : Cleared e lo (min ((a.toNat / 2 ^ 22 + 1) * 1024) (pages oldsz))
            (t.pgdirs d).pte := by
          apply ht.entries.skip ht.tabled (by simpa using htable) (by omega)
          intro v hv hv'
          apply eq_of_toNat_eq
          rw [Vpn.toNat_pdx, hpdx, hvpn]
          omega
        have hrest := ih (a := ((a >>> 22) + 1) <<< 22) (k := (a.toNat / 2 ^ 22 + 1) * 1024)
          (by omega) (by omega)
        rintro u rfl
        rw [bind_of_ok hwalk]
        exact hrest u ⟨ht.rest, ht.others, ht.tabled, hskip⟩
    · rename_i hdone
      rw [Nat.min_eq_right (not_lt.mp hdone)]
      exact .pure fun _ ↦ id

/-- `deallocuvm` clears the pages between the two sizes. -/
theorem deallocuvm_cleared {oldsz : Word} (newsz : Word) (hold : oldsz.toNat ≤ 0x60000000)
    (hclean : ∀ v : Vpn, pages newsz ≤ v.toNat → v.toNat < pages oldsz → e v ≠ 0 →
      (e v).has pteP = true) :
    Triple (OnDir s d (· = e)) (deallocuvm d oldsz newsz)
      (fun r t ↦ r = (if oldsz ≤ newsz then oldsz else newsz) ∧
        OnDir s d (Cleared e (pages newsz) (max (pages newsz) (pages oldsz))) t)
      fun _ _ ↦ True := by
  rw [deallocuvm]
  by_cases hle : oldsz ≤ newsz
  · rw [if_pos hle, if_pos hle, Nat.max_eq_left (pages_mono hle)]
    refine .pure fun t ht ↦ ⟨rfl, ht.mono ?_⟩
    rintro _ rfl
    exact cleared_self _ _
  · have hlt : newsz ≤ oldsz := BitVec.le_of_lt (BitVec.not_le.mp hle)
    have hnew : newsz.toNat ≤ 0xFFFFF000 := by
      rw [le_def] at hlt
      omega
    have hloop := deallocFrom_cleared (s := s) (d := d) hold hclean (oldsz.toNat / 4096 + 1)
      (toNat_pgRoundUp_pages hnew) le_rfl
    rw [Nat.min_eq_left (pages_mono hlt)] at hloop
    rw [if_neg hle, if_neg hle, Nat.max_eq_right (pages_mono hlt)]
    refine .bind (hloop.pre fun t ht ↦ ht.mono ?_) fun _ ↦ .pure fun t ht ↦ ⟨rfl, ht⟩
    rintro _ rfl
    exact cleared_self _ _

/-! ## `allocuvm` -/

section Alloc

variable {oldsz newsz : Word} {lo : ℕ}

section

variable (hnew : newsz.toNat < 0x60000000) (hle : oldsz ≤ newsz)
  (hzero : ∀ v : Vpn, pages oldsz ≤ v.toNat → v.toNat < 0x60000 → e₀ v = 0) (hlo : lo ≤ pages oldsz)
include hnew hle hzero hlo

/-- Taking back what a failing `allocuvm` has filled. -/
theorem rollback_filled (hk : pages oldsz ≤ k) (hk' : k ≤ pages newsz) :
    Triple (OnDir s d (Filled e₀ lo k)) (deallocuvm d newsz oldsz)
      (fun _ ↦ OnDir s d (Filled e₀ lo (pages oldsz))) fun _ _ ↦ True := by
  have htop : pages newsz ≤ 0x60000 := by
    unfold pages
    omega
  refine .of_forall fun t ht ↦ ?_
  have hfilled : Filled e₀ lo k (t.pgdirs d).pte := ht.entries
  have hclean (v : Vpn) (hv : pages oldsz ≤ v.toNat) (hv' : v.toNat < pages newsz)
      (hne : (t.pgdirs d).pte v ≠ 0) : ((t.pgdirs d).pte v).has pteP = true := by
    by_cases hvk : v.toNat < k
    · exact hfilled.1 v (by omega) hvk
    · rw [hfilled.2 v (by omega), hzero v hv (by omega)] at hne
      exact absurd rfl hne
  have hclear := deallocuvm_cleared (s := s) (d := d) _ hnew.le hclean
  refine (hclear.at_state ⟨ht.rest, ht.others, ht.tabled, rfl⟩).post ?_ fun _ _ ↦ id
  rintro r u ⟨_, hu⟩
  rw [Nat.max_eq_right (pages_mono hle)] at hu
  refine hu.mono fun e he ↦ hfilled.cleared he hk hk' ?_
  intro v hv hv'
  exact hzero v hv (by omega)

theorem allocFrom_filled (n : ℕ) {a : Word} (ha : a.toNat = 4096 * k) (hk : pages oldsz ≤ k)
    (hk' : k ≤ pages newsz) :
    Triple (OnDir s d (Filled e₀ lo k)) (allocFrom d oldsz newsz n a)
      (fun done ↦ OnDir s d (Filled e₀ lo (if done then pages newsz else pages oldsz)))
      fun _ _ ↦ True := by
  induction n generalizing a k with
  | zero =>
    simp only [allocFrom, lt_iff_lt_pages ha]
    split
    · exact .halt fun _ _ ↦ trivial
    · grind [Triple.pure]
  | succ n ih =>
    simp only [allocFrom, lt_iff_lt_pages ha]
    split
    · rename_i hroom
      have hlow : a.toNat < 0x60000000 := Nat.lt_trans ((lt_iff_lt_pages ha).mpr hroom) hnew
      have hback := rollback_filled (s := s) (d := d) hnew hle hzero hlo hk hk'
      apply kalloc_onDir
      · exact .bind hback fun _ ↦ .pure fun _ ↦ id
      · intro mem
        refine (keeps_memset_onDir mem 0 4096).seq (fun _ _ _ ↦ trivial) fun _ ↦ ?_
        rw [mappages_page (by omega)]
        refine .bind (mapPage_onDir a mem (pteW ||| pteU)) fun mapped ↦ ?_
        cases mapped with
        | true =>
          have hnext := toNat_add_pgSize hlow
          have hrest := ih (a := a + pgSize) (k := k + 1) (by omega) (by omega) (by omega)
          refine hrest.pre fun t ht ↦ ht.mono ?_
          rintro _ ⟨e', he', rfl⟩
          apply he'.update _ (by omega) (has_pteP_or _)
          rw [toNat_vpn]
          omega
        | false =>
          refine .bind hback fun _ ↦ ?_
          refine (keeps_kfree_onDir mem).seq (fun _ _ _ ↦ trivial) fun _ ↦ .pure fun _ ↦ id
    · grind [Triple.pure]

end

/-- **`allocuvm`** fills the pages up to the size it returns; if it returns zero the pages are as
they were. -/
theorem allocuvm_filled (hlo : lo ≤ pages oldsz)
    (hzero : ∀ v : Vpn, pages oldsz ≤ v.toNat → v.toNat < 0x60000 → e₀ v = 0) :
    Triple (OnDir s d (Filled e₀ lo (pages oldsz))) (allocuvm d oldsz newsz)
      (fun r t ↦ (r = 0 ∨ oldsz ≤ r ∧
          (r = oldsz ∧ newsz < oldsz ∨ r = newsz ∧ r.toNat < 0x60000000)) ∧
        OnDir s d (Filled e₀ lo (if r = 0 then pages oldsz else pages r)) t)
      fun _ _ ↦ True := by
  have hkept (t : Machine N) (ht : OnDir s d (Filled e₀ lo (pages oldsz)) t) :
      OnDir s d (Filled e₀ lo (if (0 : Word) = 0 then pages oldsz else pages 0)) t := by
    rw [if_pos rfl]
    exact ht
  rw [allocuvm]
  split
  · exact .pure fun t ht ↦ ⟨.inl rfl, hkept t ht⟩
  · rename_i hbase
    have hnew : newsz.toNat < 0x60000000 := BitVec.not_le.mp hbase
    split
    · grind [Triple.pure]
    · rename_i hsize
      have hle : oldsz ≤ newsz := BitVec.not_lt.mp hsize
      have hold : oldsz.toNat ≤ 0xFFFFF000 := by
        rw [le_def] at hle
        omega
      refine .bind (allocFrom_filled hnew hle hzero hlo (newsz.toNat / 4096 + 1)
        (toNat_pgRoundUp_pages hold) le_rfl (pages_mono hle)) fun done ↦ ?_
      cases done with
      | false => exact .pure fun t ht ↦ ⟨.inl rfl, hkept t ht⟩
      | true => grind [Triple.pure, pages, pages_mono]

end Alloc

end Kernel

/-! ## `growproc` -/

/-- The pages below `MMAPBASE` that are present are the first `n`. -/
def Sized (e : Vpn → Word) (n : ℕ) : Prop :=
  ∀ v : Vpn, v.toNat < 0x60000 → ((e v).has pteP = true ↔ v.toNat < n)

theorem Filled.sized (h : Filled e₀ lo k e) (hlo : lo ≤ k) (h₀ : Sized e₀ lo) : Sized e k := by
  intro v hv
  by_cases hin : lo ≤ v.toNat ∧ v.toNat < k
  · exact iff_of_true (h.1 v hin.1 hin.2) hin.2
  · rw [h.2 v (by omega), h₀ v hv]
    omega

theorem Cleared.sized (h : Cleared e₀ lo k e) (hlo : lo ≤ k) (h₀ : Sized e₀ k) : Sized e lo := by
  intro v hv
  by_cases hin : lo ≤ v.toNat ∧ v.toNat < k
  · rw [h.1 v hin.1 hin.2, not_has_zero]
    exact iff_of_false Bool.false_ne_true (by omega)
  · rw [h.2 v (by omega), h₀ v hv]
    omega

namespace Kernel

open Machine

variable {s : Machine N} {p : Fin N}

/-- The state after `growproc`: if it fails all entries and processes are as they were, and
otherwise the size has changed and the pages with it. -/
inductive Grew (s : Machine N) (p : Fin N) : Word → Machine N → Prop
  | failed {t : Machine N}
      (hsame : OnDir s (s.procs p).pgdir (· = (s.pgdirs (s.procs p).pgdir).pte) t) : Grew s p (-1) t
  | resized {t : Machine N} (sz : Word) (hsz : sz.toNat < 0x60000000)
      (ht : OnDir s (s.procs p).pgdir (fun e ↦ Sized e (pages sz)) t) :
      Grew s p 0 { t with procs := update t.procs p { t.procs p with sz := sz } }

/-- The sizes below `MMAPBASE` for which `growproc` keeps size and pages in step: only giving up
all memory at once is left out. -/
def GrowsInStep (sz n : Word) : Prop := sz + n = 0 → sz = 0

instance (sz n : Word) : Decidable (GrowsInStep sz n) := inferInstanceAs (Decidable (_ → _))

section Grow

variable {d sz n : Word}

/-- What `growproc` goes by after its call of `allocuvm` or `deallocuvm`, and what there is then. -/
def Resized (s : Machine N) (d n r : Word) (t : Machine N) : Prop :=
  if n ≠ 0 ∧ r = 0 then OnDir s d (· = (s.pgdirs d).pte) t
  else r.toNat < 0x60000000 ∧ OnDir s d (fun e ↦ Sized e (pages r)) t

section

variable (htabled : (s.pgdirs d).Tabled)
  (hclean : ∀ v, (s.pgdirs d).pte v ≠ 0 → ((s.pgdirs d).pte v).has pteP = true)
  (hsz : sz.toNat < 0x60000000) (hsized : Sized (s.pgdirs d).pte (pages sz))
include htabled hclean hsz hsized

theorem allocuvm_resized (hn : n ≠ 0) :
    Triple (· = s) (allocuvm d sz (sz + n)) (Resized s d n) fun _ _ ↦ True := by
  have hzero (v : Vpn) (hv : pages sz ≤ v.toNat) (hv' : v.toNat < 0x60000) :
      (s.pgdirs d).pte v = 0 := by
    by_contra hne
    exact absurd ((hsized v hv').mp (hclean v hne)) (by omega)
  refine .weaken (allocuvm_filled (s := s) le_rfl hzero) ?_ ?_ fun _ _ ↦ id
  · rintro t rfl
    exact .self htabled (filled_self _ _)
  · rintro r t ⟨hcases, ht⟩
    rw [Resized]
    by_cases hr : r = 0
    · rw [if_pos ⟨hn, hr⟩]
      rw [if_pos hr] at ht
      exact ht.mono fun e he ↦ he.eq
    · rw [if_neg fun h ↦ hr h.2]
      rw [if_neg hr] at ht
      obtain ⟨hle, hcases⟩ := hcases.resolve_left hr
      refine ⟨?_, ht.mono fun e he ↦ he.sized (pages_mono hle) hsized⟩
      rcases hcases with ⟨rfl, _⟩ | ⟨_, hlow⟩
      · exact hsz
      · exact hlow

theorem deallocuvm_resized (hstep : GrowsInStep sz n) :
    Triple (· = s) (deallocuvm d sz (sz + n)) (Resized s d n) fun _ _ ↦ True := by
  have hdealloc := deallocuvm_cleared (s := s) (d := d) (sz + n) hsz.le
    (e := (s.pgdirs d).pte) fun v _ _ ↦ hclean v
  refine hdealloc.weaken ?_ ?_ fun _ _ ↦ id
  · rintro t rfl
    exact .self htabled rfl
  · rintro r t ⟨hr, ht⟩
    rw [Resized]
    by_cases hle : sz ≤ sz + n
    · -- the new size has wrapped around and is not below the old one: nothing is freed
      rw [if_pos hle] at hr
      rw [Nat.max_eq_left (pages_mono hle)] at ht
      have hsame : OnDir s d (· = (s.pgdirs d).pte) t :=
        ht.mono fun e he ↦ funext fun v ↦ he.2 v (by omega)
      split
      · exact hsame
      · refine ⟨hr ▸ hsz, hsame.mono ?_⟩
        rintro e rfl
        rw [hr]
        exact hsized
    · have hlt : sz + n ≤ sz := BitVec.le_of_lt (BitVec.not_le.mp hle)
      rw [if_neg hle] at hr
      rw [Nat.max_eq_right (pages_mono hlt)] at ht
      have hne : r ≠ 0 := by
        intro hzero
        have hsum : sz + n = 0 := hr.symm.trans hzero
        rw [hsum, hstep hsum] at hle
        exact hle (BitVec.le_refl _)
      rw [if_neg fun h ↦ hne h.2, hr]
      refine ⟨?_, ht.mono fun e he ↦ he.sized (pages_mono hlt) hsized⟩
      rw [le_def] at hlt
      omega

theorem resize_resized (hstep : GrowsInStep sz n) :
    Triple (· = s) (resize d sz n) (Resized s d n) fun _ _ ↦ True := by
  rw [resize]
  by_cases hpos : (0 : Word).slt n = true
  · rw [if_pos hpos]
    apply allocuvm_resized htabled hclean hsz hsized
    rintro rfl
    cases hpos
  · rw [if_neg hpos]
    by_cases hneg : n.slt 0 = true
    · rw [if_pos hneg]
      exact deallocuvm_resized htabled hclean hsz hsized hstep
    · have hn : n = 0 := by
        have hle : n.toInt ≤ 0 := by simpa [slt_eq_decide] using hpos
        have hge : 0 ≤ n.toInt := by simpa [slt_eq_decide] using hneg
        exact toInt_inj.mp (le_antisymm hle hge)
      rw [if_neg hneg]
      refine .pure_at ?_
      rw [Resized, if_neg fun h ↦ h.1 hn]
      exact ⟨hsz, .self htabled hsized⟩

end

end Grow

/-- **`growproc`** keeps size and pages in step, unless it is asked to give up all memory. -/
theorem growproc_grew (htabled : (s.pgdirs (s.procs p).pgdir).Tabled)
    (hclean : ∀ v, (s.pgdirs (s.procs p).pgdir).pte v ≠ 0 →
      ((s.pgdirs (s.procs p).pgdir).pte v).has pteP = true)
    (hsz : (s.procs p).sz.toNat < 0x60000000)
    (hsized : Sized (s.pgdirs (s.procs p).pgdir).pte (pages (s.procs p).sz)) {n : Word}
    (hstep : GrowsInStep (s.procs p).sz n) :
    Triple (· = s) (growproc p n) (Grew s p) fun _ _ ↦ True := by
  refine .get_bind ?_
  rintro t rfl
  refine .bind (resize_resized htabled hclean hsz hsized hstep) fun r ↦
    .of_forall fun u hu ↦ ?_
  rw [Resized] at hu
  split
  · rename_i hfail
    rw [if_pos hfail] at hu
    refine .pure_at ?_
    exact .failed hu
  · rename_i hok
    rw [if_neg hok] at hu
    rintro w rfl
    exact .resized r hu.1 hu.2

end Kernel

end Xv6Mmap
