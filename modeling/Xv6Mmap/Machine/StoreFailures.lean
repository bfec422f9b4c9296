import Xv6Mmap.Library.Traced
import Xv6Mmap.Machine.CacheCoherence
import Xv6Mmap.Machine.Growth

/-!
# How `mmap_store_data` signals failure

The functions below `mmap_store_data` report failure in three ways: a negative word, the word `-1`,
and, from `map_pagecache_page`, the number of bytes left.  That number is `-1` as well when the last
page lacks one byte.  A record of the `kalloc` and `mappages` calls on the way, with their results,
says what the report should have been.
-/

namespace Xv6Mmap.Kernel

open Library Prog Traced Machine
open BitVec (ofNat_add toNat_add toNat_mul toNat_ofNat toNat_sub)

variable {nproc : ℕ}

/-- A call of `kalloc` or `mappages`, and whether it succeeded. -/
inductive StoreCall where
  | kalloc (ok : Bool)
  | mappages (ok : Bool)

def StoreCall.ok : StoreCall → Bool
  | kalloc ok => ok
  | mappages ok => ok

abbrev StoreTraced (nproc : ℕ) (α : Type) := Traced Halt (Machine nproc) StoreCall α

/-- No call has failed. -/
def Clean (l : List StoreCall) : Prop := ∀ c ∈ l, c.ok = true

def kallocTraced : StoreTraced nproc (Option Word) := do
  let r ← lift kalloc
  record (.kalloc r.isSome)
  return r

def mappagesTraced (pgdir va size pa perm : Word) : StoreTraced nproc Bool := do
  let ok ← lift (mappages pgdir va size pa perm)
  record (.mappages ok)
  return ok

/-! ## The functions with their record -/

def mapPagecachePageUtilTraced (p : Fin nproc) (f mmapaddr protection offset size : Word) :
    StoreTraced nproc Word := do
  match ← kallocTraced with
  | none => return -1
  | some temp => do
    lift (memset temp 0 4096)
    let s ← lift get
    lift (fillPage (s.files f).ip (size.toNat + 1) temp offset 0 size)
    if ← mappagesTraced (s.procs p).pgdir mmapaddr pgSize temp protection then return size
    else return -1

def mapFilePagesTraced (p : Fin nproc) (f mmapaddr protection offset : Word) :
    ℕ → Word → Word → StoreTraced nproc Word
  | 0, _, size => return size
  | n + 1, currsize, size => do
    let mapsize := if size.slt pgSize then size else pgSize
    let r ← mapPagecachePageUtilTraced p f (mmapaddr + currsize) protection (offset + currsize)
      mapsize
    if r.slt 0 then return -1
    else mapFilePagesTraced p f mmapaddr protection offset n (currsize + pgSize) (size - pgSize)

def mapAnonPageTraced (p : Fin nproc) (off protection : Word) : StoreTraced nproc Word := do
  match ← kallocTraced with
  | none => return -1
  | some mappedPage => do
    lift (memset mappedPage 0 4096)
    let s ← lift get
    if ← mappagesTraced (s.procs p).pgdir off pgSize mappedPage protection then return 0
    else
      let _ ← lift (deallocuvm (s.procs p).pgdir (off - pgSize) off)
      lift (kfree mappedPage)
      return -1

def mapAnonPagesTraced (p : Fin nproc) (mmapaddr protection : Word) :
    ℕ → Word → StoreTraced nproc Bool
  | 0, _ => return true
  | n + 1, i => do
    let r ← mapAnonPageTraced p (mmapaddr + i) protection
    if r.slt 0 then return false else mapAnonPagesTraced p mmapaddr protection n (i + pgSize)

def mapAnonMainTraced (p : Fin nproc) (mmapaddr protection size : Word) :
    StoreTraced nproc Word := do
  if ← mapAnonPagesTraced p mmapaddr protection ((size.count + 4095) / 4096) 0 then return size
  else return -1

def mmapStoreDataTraced (p : Fin nproc) (addr size flags protection f offset : Word) :
    StoreTraced nproc Word := do
  if flags.has mapAnonymous then
    let r ← mapAnonMainTraced p addr protection size
    if r.slt 0 then return -1 else return 0
  else
    let r ← mapFilePagesTraced p f addr protection offset ((size.count + 4095) / 4096) 0 size
    if r = -1 then return -1 else return 0

section Erasing

variable (p : Fin nproc)

theorem kallocTraced_erases : Erases (kallocTraced : StoreTraced nproc _) kalloc := by
  intro x
  rcases hrun : kalloc x.1 with ⟨outcome, t⟩
  cases outcome <;> simp [kallocTraced, bind_apply, lift, record, hrun]

theorem mappagesTraced_erases (pgdir va size pa perm : Word) :
    Erases (mappagesTraced pgdir va size pa perm : StoreTraced nproc _)
      (mappages pgdir va size pa perm) := by
  intro x
  rcases hrun : mappages pgdir va size pa perm x.1 with ⟨outcome, t⟩
  cases outcome <;> simp [mappagesTraced, bind_apply, lift, record, hrun]

theorem mapPagecachePageUtilTraced_erases (f mmapaddr protection offset size : Word) :
    Erases (mapPagecachePageUtilTraced p f mmapaddr protection offset size)
      (mapPagecachePageUtil p f mmapaddr protection offset size) := by
  refine kallocTraced_erases.bind fun r ↦ ?_
  cases r with
  | none => exact erases_pure _
  | some temp =>
    refine (erases_lift _).bind fun _ ↦ (erases_lift get).bind fun s ↦ ?_
    refine (erases_lift _).bind fun _ ↦ (mappagesTraced_erases _ _ _ _ _).bind fun ok ↦ ?_
    exact .ite _ (erases_pure _) (erases_pure _)

theorem mapAnonPageTraced_erases (off protection : Word) :
    Erases (mapAnonPageTraced p off protection) (mapAnonPage p off protection) := by
  refine kallocTraced_erases.bind fun r ↦ ?_
  cases r with
  | none => exact erases_pure _
  | some mappedPage =>
    refine (erases_lift _).bind fun _ ↦ (erases_lift get).bind fun s ↦ ?_
    refine (mappagesTraced_erases _ _ _ _ _).bind fun ok ↦ .ite _ (erases_pure _) ?_
    exact (erases_lift _).bind fun _ ↦ (erases_lift _).bind fun _ ↦ erases_pure _

theorem mapFilePagesTraced_erases (f mmapaddr protection offset : Word) (n : ℕ)
    (currsize size : Word) :
    Erases (mapFilePagesTraced p f mmapaddr protection offset n currsize size)
      (mapFilePages p f mmapaddr protection offset n currsize size) := by
  induction n generalizing currsize size with
  | zero => exact erases_pure _
  | succ n ih =>
    refine (mapPagecachePageUtilTraced_erases _ _ _ _ _ _).bind fun r ↦ ?_
    exact .ite _ (erases_pure _) (ih _ _)

theorem mapAnonPagesTraced_erases (mmapaddr protection : Word) (n : ℕ) (i : Word) :
    Erases (mapAnonPagesTraced p mmapaddr protection n i)
      (mapAnonPages p mmapaddr protection n i) := by
  induction n generalizing i with
  | zero => exact erases_pure _
  | succ n ih =>
    refine (mapAnonPageTraced_erases _ _ _).bind fun r ↦ ?_
    exact .ite _ (erases_pure _) (ih _)

/-- The record is one of `mmap_store_data` itself. -/
theorem mmapStoreDataTraced_erases (addr size flags protection f offset : Word) :
    Erases (mmapStoreDataTraced p addr size flags protection f offset)
      (mmapStoreData p addr size flags protection f offset) := by
  refine .ite _ ?_ ?_
  · have hmain : Erases (mapAnonMainTraced p addr protection size)
        (mapAnonMain p addr protection size) :=
      (mapAnonPagesTraced_erases _ _ _ _ _).bind fun ok ↦
        .ite _ (erases_pure _) (erases_pure _)
    exact hmain.bind fun r ↦ .ite _ (erases_pure _) (erases_pure _)
  · refine (mapFilePagesTraced_erases _ _ _ _ _ _ _ _).bind fun r ↦ ?_
    exact .ite _ (erases_pure _) (erases_pure _)

end Erasing

/-! ## Pages that are present -/

section Presence

/-- The directory of process `p` is `d`, and the pages of `W` are present in it. -/
structure Holds (p : Fin nproc) (d : Word) (W : Vpn → Prop) (s : Machine nproc) : Prop where
  dir : (s.procs p).pgdir = d
  tabled : (s.pgdirs d).Tabled
  pages : ∀ v, W v → ((s.pgdirs d).pte v).has pteP = true

variable {p : Fin nproc} {d : Word} {W : Vpn → Prop}

/-- The pages of the `n` bytes from `va` on. -/
def rangePages (va : Word) (n : ℕ) (v : Vpn) : Prop := ∃ j < n, v = vpn (va + BitVec.ofNat 32 j)

theorem Holds.mono {W' : Vpn → Prop} {s : Machine nproc} (h : Holds p d W s)
    (hsub : ∀ v, W' v → W v) : Holds p d W' s :=
  ⟨h.dir, h.tabled, fun v hv ↦ h.pages v (hsub v hv)⟩

theorem cacheFrame_holds : CacheFrame (.ofInvariant (Holds p d W)) where
  mem _ _ h := { h with }
  pagecache _ _ _ h := { h with }

theorem mapPage_holds (va pa perm : Word) :
    Triple (Holds p d W) (mapPage d va pa perm)
      (fun ok t ↦ ok = true → Holds p d (fun v ↦ W v ∨ v = vpn va) t) fun _ _ ↦ True := by
  refine .of_forall fun s hs ↦ (mapPage_run d va pa perm s).post ?_ fun _ _ _ ↦ trivial
  rintro _ t hrun rfl
  rw [if_pos rfl] at hrun
  obtain ⟨u, hwalked, _, rfl⟩ := hrun
  have hgrown := grown_of_walked hwalked
  refine ⟨?_, ?_, fun v hv ↦ ?_⟩
  · change (u.procs p).pgdir = d
    rw [hgrown.rest]
    exact hs.dir
  · change ((u.setDir d ((u.pgdirs d).withPte (vpn va) _)).pgdirs d).Tabled
    rw [pgdirs_setDir_self]
    exact (tabled_of_walked hwalked hs.tabled).withPte (isSome_of_walked hwalked) _
  · by_cases hsame : v = vpn va
    · rw [hsame, pte_setPte_self]
      exact has_pteP_or _
    · rw [pte_setPte_of_ne u _ (.inr hsame), hgrown.entries hs.tabled]
      exact hs.pages v (hv.resolve_right hsame)

theorem mapPagesFrom_holds (perm : Word) (n : ℕ) (a pa : Word) :
    Triple (Holds p d W) (mapPagesFrom d a pa perm n)
      (fun ok t ↦ ok = true →
        Holds p d (fun v ↦ W v ∨ ∃ k ≤ n, v = vpn (a + pgSize * BitVec.ofNat 32 k)) t)
      fun _ _ ↦ True := by
  induction n generalizing a pa W with
  | zero =>
    refine (mapPage_holds a pa perm).post (fun ok t h hok ↦ (h hok).mono ?_) fun _ _ _ ↦ trivial
    rintro v (hv | ⟨k, hk, rfl⟩)
    · exact .inl hv
    · obtain rfl : k = 0 := by omega
      exact .inr (by simp)
  | succ n ih =>
    refine .bind (mapPage_holds a pa perm) fun ok ↦ .of_forall fun s hs ↦ ?_
    cases ok with
    | false => exact .pure fun _ _ ↦ nofun
    | true =>
      rw [if_pos rfl]
      refine ((ih _ _).at_state (hs rfl)).post (fun ok t h hok ↦ (h hok).mono ?_) fun _ _ _ ↦ trivial
      rintro v (hv | ⟨k, hk, rfl⟩)
      · exact .inl (.inl hv)
      · cases k with
        | zero => exact .inl (.inr (by simp))
        | succ k =>
          refine .inr ⟨k, by omega, ?_⟩
          rw [ofNat_add, BitVec.mul_add, BitVec.mul_one, BitVec.add_assoc,
            BitVec.add_comm pgSize]

/-- `mappages` of a page that need not start at a page boundary. -/
theorem mappages_holds (va pa perm : Word) :
    Triple (Holds p d W) (mappages d va pgSize pa perm)
      (fun ok t ↦ ok = true → Holds p d (fun v ↦ W v ∨ rangePages va 4096 v) t) fun _ _ ↦ True := by
  have hva := va.isLt
  refine (mapPagesFrom_holds perm _ _ pa).post (fun ok t h hok ↦ (h hok).mono ?_) fun _ _ _ ↦ trivial
  rintro v (hv | ⟨j, hj, rfl⟩)
  · exact .inl hv
  · refine .inr ⟨(va.toNat % 4096 + j) / 4096, ?_, BitVec.eq_of_toNat_eq ?_⟩
    · rw [toNat_sub, toNat_pgRoundDown, toNat_pgRoundDown, toNat_sub, toNat_add,
        show pgSize.toNat = 4096 from rfl, show (1 : Word).toNat = 1 from rfl]
      omega
    · rw [toNat_vpn, toNat_vpn, toNat_add, toNat_add, toNat_mul,
        toNat_ofNat, toNat_ofNat, toNat_pgRoundDown, show pgSize.toNat = 4096 from rfl]
      omega

theorem rangePages_succ {va currsize : Word} {n : ℕ} {v : Vpn}
    (h : rangePages (va + currsize) (4096 * (n + 1)) v) :
    rangePages (va + currsize) 4096 v ∨ rangePages (va + (currsize + pgSize)) (4096 * n) v := by
  obtain ⟨j, hj, rfl⟩ := h
  by_cases hfirst : j < 4096
  · exact .inl ⟨j, hfirst, rfl⟩
  · obtain ⟨k, rfl⟩ : ∃ k, j = k + 4096 := ⟨j - 4096, by omega⟩
    refine .inr ⟨k, by omega, ?_⟩
    rw [ofNat_add, show 4096#32 = pgSize from rfl, BitVec.add_comm _ pgSize,
      ← BitVec.add_assoc, BitVec.add_assoc va]

end Presence

/-! ## Failure is reported, and success fills in every page -/

section Reports

theorem clean_append {l : List StoreCall} (h : Clean l) (c : StoreCall) :
    Clean (l ++ [c]) ↔ c.ok = true := by
  rw [Clean, List.forall_mem_append, List.forall_mem_singleton]
  exact and_iff_right h

/-- No call has failed, and the pages of `W` are present. -/
def Fine (p : Fin nproc) (d : Word) (W : Vpn → Prop) (x : Machine nproc × List StoreCall) : Prop :=
  Clean x.2 ∧ Holds p d W x.1

/-- The result is `a` if no call has failed, with the pages of `W` present, and `b` otherwise. -/
def Reports {α : Type} (p : Fin nproc) (d : Word) (W : Vpn → Prop) (a b : α) (r : α)
    (x : Machine nproc × List StoreCall) : Prop :=
  Fine p d W x ∧ r = a ∨ ¬ Clean x.2 ∧ r = b

variable {p : Fin nproc} {d : Word} {W : Vpn → Prop} {α : Type}
  {Q : α → Machine nproc × List StoreCall → Prop}

theorem Reports.mono {W' : Vpn → Prop} {a b r : α} {x : Machine nproc × List StoreCall}
    (h : Reports p d W a b r x) (hsub : ∀ v, W' v → W v) : Reports p d W' a b r x :=
  h.imp_left fun h ↦ ⟨⟨h.1.1, h.1.2.mono hsub⟩, h.2⟩

/-- A step that is not recorded. -/
theorem lift_fine {β : Type} {c : Kernel nproc β} {k : β → StoreTraced nproc α}
    (hc : Respects (.ofInvariant (Holds p d W)) c)
    (hk : ∀ a, Triple (Fine p d W) (k a) Q fun _ _ ↦ True) :
    Triple (Fine p d W) (lift c >>= k) Q fun _ _ ↦ True := by
  rintro ⟨s, l⟩ ⟨hclean, hholds⟩
  have hkept := hc s hholds
  rw [bind_apply, lift]
  dsimp only
  rcases hrun : c s with ⟨outcome, t⟩
  rw [hrun] at hkept
  cases outcome with
  | ok a => exact hk a (t, l) ⟨hclean, hkept⟩
  | error e => trivial

/-- `kalloc` fails and the record says so, or it succeeds. -/
theorem kallocTraced_rule {k : Option Word → StoreTraced nproc α}
    (hnone : Triple (fun x ↦ ¬ Clean x.2) (k none) Q fun _ _ ↦ True)
    (hsome : ∀ frame, Triple (Fine p d W) (k (some frame)) Q fun _ _ ↦ True) :
    Triple (Fine p d W) (kallocTraced >>= k) Q fun _ _ ↦ True := by
  rintro ⟨s, l⟩ ⟨hclean, hholds⟩
  rw [kallocTraced, bind_assoc_prog, bind_apply, lift]
  dsimp only
  rw [kalloc]
  cases s.freelist with
  | nil => exact hnone _ (by simp [clean_append hclean, StoreCall.ok])
  | cons frame rest =>
    exact hsome frame _ ⟨(clean_append hclean _).mpr rfl, hholds.dir, hholds.tabled, hholds.pages⟩

theorem mappagesTraced_rule {va pa perm : Word} {k : Bool → StoreTraced nproc α}
    (hfalse : Triple (fun x ↦ ¬ Clean x.2) (k false) Q fun _ _ ↦ True)
    (htrue : Triple (Fine p d fun v ↦ W v ∨ rangePages va 4096 v) (k true) Q fun _ _ ↦ True) :
    Triple (Fine p d W) (mappagesTraced d va pgSize pa perm >>= k) Q fun _ _ ↦ True := by
  rintro ⟨s, l⟩ ⟨hclean, hholds⟩
  have hmapped := mappages_holds va pa perm s hholds
  rw [mappagesTraced, bind_assoc_prog, bind_apply, lift]
  dsimp only
  rcases hrun : mappages d va pgSize pa perm s with ⟨outcome, t⟩
  rw [hrun] at hmapped
  cases outcome with
  | error e => trivial
  | ok mapped =>
    cases mapped with
    | false => exact hfalse _ (by simp [clean_append hclean, StoreCall.ok])
    | true => exact htrue _ ⟨(clean_append hclean _).mpr rfl, hmapped rfl⟩

theorem mapPagecachePageUtilTraced_reports (f mmapaddr protection offset size : Word) :
    Triple (Fine p d W) (mapPagecachePageUtilTraced p f mmapaddr protection offset size)
      (Reports p d (fun v ↦ W v ∨ rangePages mmapaddr 4096 v) size (-1)) fun _ _ ↦ True := by
  refine kallocTraced_rule (.pure fun _ hx ↦ .inr ⟨hx, rfl⟩) fun temp ↦ ?_
  refine lift_fine (respects_memset cacheFrame_holds _ _ _) fun _ ↦ ?_
  refine triple_lift_get_bind fun x hx ↦ ?_
  rw [hx.2.dir]
  refine (lift_fine (respects_fillPage cacheFrame_holds _ _ _ _ _ _) fun _ ↦ ?_).at_state hx
  refine mappagesTraced_rule ?_ ?_
  · exact .pure fun _ hx ↦ .inr ⟨hx, rfl⟩
  · exact .pure fun _ hx ↦ .inl ⟨hx, rfl⟩

theorem mapAnonPageTraced_reports (off protection : Word) :
    Triple (Fine p d W) (mapAnonPageTraced p off protection)
      (Reports p d (fun v ↦ W v ∨ rangePages off 4096 v) 0 (-1)) fun _ _ ↦ True := by
  refine kallocTraced_rule (.pure fun _ hx ↦ .inr ⟨hx, rfl⟩) fun mappedPage ↦ ?_
  refine lift_fine (respects_memset cacheFrame_holds _ _ _) fun _ ↦ ?_
  refine triple_lift_get_bind fun x hx ↦ ?_
  rw [hx.2.dir]
  refine (mappagesTraced_rule ?_ ?_).at_state hx
  · refine triple_lift_bind (L := fun l ↦ ¬ Clean l) fun _ ↦ ?_
    refine triple_lift_bind (L := fun l ↦ ¬ Clean l) fun _ ↦ ?_
    exact .pure fun _ hx ↦ .inr ⟨hx, rfl⟩
  · exact .pure fun _ hx ↦ .inl ⟨hx, rfl⟩

theorem mapAnonPagesTraced_reports (mmapaddr protection : Word) (n : ℕ) (i : Word) :
    Triple (Fine p d W) (mapAnonPagesTraced p mmapaddr protection n i)
      (Reports p d (fun v ↦ W v ∨ rangePages (mmapaddr + i) (4096 * n) v) true false)
      fun _ _ ↦ True := by
  induction n generalizing i W with
  | zero =>
    refine .pure fun x hx ↦ .mono (.inl ⟨hx, rfl⟩) ?_
    simp [rangePages]
  | succ n ih =>
    refine .bind (mapAnonPageTraced_reports _ _) fun r ↦ .of_forall ?_
    rintro x (⟨hfine, rfl⟩ | ⟨hfailed, rfl⟩)
    · rw [if_neg (by decide)]
      refine ((ih _).at_state hfine).post (fun r y hy ↦ hy.mono fun v hv ↦ ?_) fun _ _ ↦ id
      rw [or_assoc]
      exact hv.imp_right rangePages_succ
    · rw [if_pos (by decide)]
      exact .pure fun y hy ↦ .inr ⟨hy ▸ hfailed, rfl⟩

/-- After the loop over a file's pages, what is left of the size. -/
theorem mapFilePagesTraced_reports (f mmapaddr protection offset : Word) (n : ℕ)
    (currsize size : Word) (hsize : (4096 * n : ℤ) < size.toInt + 4096) :
    Triple (Fine p d W) (mapFilePagesTraced p f mmapaddr protection offset n currsize size)
      (Reports p d (fun v ↦ W v ∨ rangePages (mmapaddr + currsize) (4096 * n) v)
        (size - pgSize * BitVec.ofNat 32 n) (-1)) fun _ _ ↦ True := by
  induction n generalizing currsize size W with
  | zero =>
    refine .pure fun x hx ↦ .mono (.inl ⟨hx, by simp⟩) ?_
    simp [rangePages]
  | succ n ih =>
    have hpos : 0 < size.toInt := by omega
    have hbound := size.toInt_lt
    have hmapsize : ¬ (if size.slt pgSize then size else pgSize).slt 0 = true := by
      split
      · rw [BitVec.slt_eq_decide, decide_eq_true_eq]
        exact not_lt.mpr hpos.le
      · decide
    refine .bind (mapPagecachePageUtilTraced_reports _ _ _ _ _) fun r ↦ .of_forall ?_
    rintro x (⟨hfine, rfl⟩ | ⟨hfailed, rfl⟩)
    · rw [if_neg hmapsize]
      have hleft : size - pgSize - pgSize * BitVec.ofNat 32 n =
          size - pgSize * BitVec.ofNat 32 (n + 1) := by
        rw [ofNat_add, BitVec.mul_add, BitVec.mul_one]
        bv_omega
      have hrest : (4096 * n : ℤ) < (size - pgSize).toInt + 4096 := by
        rw [BitVec.toInt_sub, show pgSize.toInt = 4096 from rfl, Int.bmod_eq_of_le_mul_two] <;> omega
      rw [← hleft]
      refine ((ih _ _ hrest).at_state hfine).post (fun r y hy ↦ hy.mono fun v hv ↦ ?_) fun _ _ ↦ id
      rw [or_assoc]
      exact hv.imp_right rangePages_succ
    · rw [if_pos (by decide)]
      exact .pure fun y hy ↦ .inr ⟨hy ▸ hfailed, rfl⟩

/-- What is left of a size after whole pages. -/
theorem left_eq_neg_one {size : Word} (hint : size.toInt = size.toNat) :
    size - pgSize * BitVec.ofNat 32 ((size.toNat + 4095) / 4096) = -1 ↔
      size.toNat % 4096 = 4095 := by
  have hlt := size.toInt_lt
  rw [← BitVec.toNat_inj, toNat_sub, toNat_mul, toNat_ofNat,
    show pgSize.toNat = 4096 from rfl, show (-1 : Word).toNat = 4294967295 from rfl]
  omega

/-- Failure of a call is reported, and so is the last page of a file that lacks one byte. -/
theorem mmapStoreDataTraced_reports (addr flags protection f offset : Word) {size : Word}
    (hsize : 0 < size.toInt) :
    Triple (Fine p d fun _ ↦ False) (mmapStoreDataTraced p addr size flags protection f offset)
      (fun r x ↦ (r = 0 ∧ Holds p d (rangePages addr size.toNat) x.1 ∨ r = -1) ∧
        (r = -1 ↔ ¬ Clean x.2 ∨ flags.has mapAnonymous = false ∧ size.toNat % 4096 = 4095))
      fun _ _ ↦ True := by
  have hint : size.toInt = size.toNat := by
    rw [BitVec.toInt_eq_toNat_cond] at hsize ⊢
    split <;> omega
  have hcover {v : Vpn} (h : rangePages addr size.toNat v) :
      False ∨ rangePages (addr + 0) (4096 * ((size.toNat + 4095) / 4096)) v := by
    obtain ⟨j, hj, rfl⟩ := h
    exact .inr ⟨j, by omega, by simp⟩
  rw [mmapStoreDataTraced, mapAnonMainTraced, Word.count, hint, Int.toNat_natCast]
  split
  · rename_i hanon
    rw [bind_assoc_prog]
    refine .bind (mapAnonPagesTraced_reports _ _ _ _) fun ok ↦ .of_forall ?_
    rintro x (⟨⟨hclean, hholds⟩, rfl⟩ | ⟨hfailed, rfl⟩)
    · have hslt : ¬ size.slt 0 = true := by
        rw [BitVec.slt_eq_decide, decide_eq_true_eq]
        exact not_lt.mpr hsize.le
      change Triple _ (if size.slt 0 = true then pure (-1) else pure 0) _ _
      rw [if_neg hslt]
      refine .pure fun y hy ↦ ?_
      subst hy
      exact ⟨.inl ⟨rfl, hholds.mono fun v ↦ hcover⟩, by simp [hclean, hanon]⟩
    · exact .pure fun y hy ↦ ⟨.inr rfl, by subst hy; simp [hfailed]⟩
  · refine .bind (mapFilePagesTraced_reports _ _ _ _ _ _ _ (by omega)) fun r ↦ .of_forall ?_
    rintro x (⟨⟨hclean, hholds⟩, rfl⟩ | ⟨hfailed, rfl⟩)
    · have hleft := left_eq_neg_one hint
      split
      · exact .pure fun y hy ↦ ⟨.inr rfl, by subst hy; simp_all⟩
      · refine .pure fun y hy ↦ ?_
        subst hy
        exact ⟨.inl ⟨rfl, hholds.mono fun v ↦ hcover⟩, by simp_all⟩
    · exact .pure fun y hy ↦ ⟨.inr rfl, by subst hy; simp [hfailed]⟩

end Reports

end Kernel

open Library Kernel

/-- **Failure is signalled exactly on failure** if, and when no call fails only if, the memory is
anonymous or the last page of the file does not lack exactly one byte. -/
theorem mmapStoreData_signals_iff {nproc : ℕ} (p : Fin nproc) {s t : Machine nproc}
    {addr size flags protection f offset r : Word} (hsize : 0 < size.toInt)
    (htabled : (s.pgdirs (s.procs p).pgdir).Tabled)
    (hrun : mmapStoreData p addr size flags protection f offset s = (.ok r, t)) :
    let failed := ¬ Clean (Traced.events
      (mmapStoreDataTraced p addr size flags protection f offset) s)
    ((r.slt 0 = true ↔ failed) ∧
        (r = 0 → ∀ j < size.toNat, present t p (addr + BitVec.ofNat 32 j) = true)) ↔
      flags.has mapAnonymous = true ∨ size.toNat % 4096 ≠ 4095 ∨ failed := by
  intro failed
  have htraced := (mmapStoreDataTraced_erases p addr size flags protection f offset).eq_ok hrun
  have hreport := mmapStoreDataTraced_reports addr flags protection f offset hsize (s, [])
    ⟨nofun, rfl, htabled, nofun⟩
  rw [htraced] at hreport
  obtain ⟨hvalue, hiff⟩ := hreport
  have hslt : r.slt 0 = true ↔ r = -1 := by
    rcases hvalue with ⟨rfl, _⟩ | rfl <;> decide
  have hpresent (hr : r = 0) : ∀ j < size.toNat, present t p (addr + BitVec.ofNat 32 j) = true := by
    intro j hj
    have hpages := (hvalue.resolve_right (by rw [hr]; decide)).2
    rw [present, hpages.dir]
    exact hpages.pages _ ⟨j, hj, rfl⟩
  rw [hslt, hiff, and_iff_left hpresent]
  cases hanon : flags.has mapAnonymous <;> simp only [failed] <;> tauto

open BootImage

/-- One byte of a file. -/
theorem mmapStoreData_signals_iff_byte :
    let s := withFile 0 10
    let calls := Traced.events (mmapStoreDataTraced 0 mmapBase 1 0 7 0 0) s
    ∃ t, mmapStoreData 0 mmapBase 1 0 7 0 0 s = (.ok 0, t) ∧
      (((0 : Word).slt 0 = true ↔ ¬ Clean calls) ∧
        ((0 : Word) = 0 → ∀ j < (1 : Word).toNat,
          present t 0 (mmapBase + BitVec.ofNat 32 j) = true)) := by
  intro s calls
  have hresult : (mmapStoreData 0 mmapBase 1 0 7 0 0 s).1 = .ok 0 := by decide +kernel
  have hrun : mmapStoreData 0 mmapBase 1 0 7 0 0 s =
      (.ok 0, (mmapStoreData 0 mmapBase 1 0 7 0 0 s).2) := by rw [← hresult]
  refine ⟨_, hrun, ?_⟩
  have htabled : (s.pgdirs (s.procs 0).pgdir).Tabled := (boot (by decide)).tabled _
  exact (mmapStoreData_signals_iff 0 (by decide) htabled hrun).mpr (Or.inr (Or.inl (by decide)))

/-- A page but for its last byte is mapped, no call has failed, and the result is negative. -/
theorem mmapStoreData_signals_success :
    let s := withFile 0 10
    let run := mmapStoreData 0 mmapBase 4095 0 7 0 0 s
    run.1.toOption = some (-1) ∧
      (Traced.events (mmapStoreDataTraced 0 mmapBase 4095 0 7 0 0) s).map StoreCall.ok = [true, true] ∧
      present run.2 0 mmapBase = true := by
  decide +kernel

end Xv6Mmap
