import Xv6Mmap.Machine.Slots
import Xv6Mmap.Machine.Taking

/-!
# Entries made by `fork`

`copyuvm` makes a page directory whose entries in the mapping area are all empty.  A successful `fork`
is then a run of `copy_maps` between two steps that do not touch page tables.
-/

namespace Xv6Mmap

open Function Library Prog List BitVec

variable {N : ℕ}

namespace Kernel

open Machine

variable {s t : Machine N} {d : Word} {n : ℕ} {sz : Word}

/-! ## A new directory -/

/-- Since `s`, only directory `d` has been written, and its mapping area is empty. -/
structure Building (s : Machine N) (d : Word) (t : Machine N) : Prop where
  taking : s.Taking t
  others : ∀ d', d' ≠ d → t.pgdirs d' = s.pgdirs d'
  tabled : (t.pgdirs d).Tabled
  area : ∀ v, mmapVpn ≤ v → (t.pgdirs d).pte v = 0
  rest : t = { s with mem := t.mem, freelist := t.freelist, pgdirs := t.pgdirs }

/-- Since `s`, at most `n` frames have been taken. -/
def Spent (s : Machine N) (n : ℕ) (t : Machine N) : Prop := s.freelist.length ≤ t.freelist.length + n

/-- Since `s`, memory has been written in frames taken from the free list, at most `n` of them. -/
def Spending (s : Machine N) (n : ℕ) (t : Machine N) : Prop := s.Taking t ∧ Spent s n t

/-- A frame is taken and written. -/
theorem Spending.take (h : Spending s n t) {frame : Word} {rest : List Word}
    (hfree : t.freelist = frame :: rest) {u : Machine N} (hrest : u.freelist = rest)
    (hmem : ∀ a, 4096 ≤ (a - frame).toNat → u.mem a = t.mem a)
    (hcache : u.pagecache = t.pagecache) : Spending s (n + 1) u := by
  obtain ⟨htaking, hframe⟩ := h.1.pop hfree
  refine ⟨(htaking.write hframe hmem).congr hrest rfl fun _ ↦ by rw [hcache], ?_⟩
  have hspent := h.2
  rw [Spent, hfree, length_cons] at hspent
  rw [Spent, hrest]
  omega

theorem mapKernel_spending (indices : List (BitVec 10)) :
    Triple (Spending s n) (mapKernel d indices)
      (fun mapped t ↦ mapped = true → Spending s (n + indices.length) t) fun _ _ ↦ True := by
  induction indices generalizing n with
  | nil => exact .pure fun _ ht _ ↦ ht
  | cons i rest ih =>
    intro t ht
    cases hfree : t.freelist with
    | nil =>
      rw [mapKernel, bind_of_ok (kalloc_nil hfree)]
      exact nofun
    | cons pgtab frames =>
      rw [mapKernel, bind_of_ok (kalloc_cons hfree)]
      dsimp only
      rw [bind_of_ok (addPageTable_apply i _), length_cons, Nat.add_comm rest.length,
        ← Nat.add_assoc]
      exact ih _ (ht.take hfree rfl (fun a ha ↦ if_neg (Nat.not_lt.mpr ha)) rfl)

theorem setupkvm_spending (s : Machine N) :
    Triple (· = s) setupkvm (fun r t ↦ r.isSome = true → Spending s 65 t)
      fun _ _ ↦ True := by
  refine kalloc_rule (fun _ _ _ ↦ .pure nofun) ?_
  intro t frame rest ht hfree
  subst ht
  refine .modify_bind fun u hu ↦ .modify_bind fun w hw ↦ ?_
  subst hu hw
  have hstart : Spending t 0 t := ⟨.refl t, le_rfl⟩
  refine .bind ((mapKernel_spending (s := t) kernelPdes (n := 1)).at_state ?_) fun mapped ↦ ?_
  · exact hstart.take hfree rfl (fun a ha ↦ if_neg (Nat.not_lt.mpr ha)) rfl
  · cases mapped with
    | true => exact .pure fun x hx _ ↦ hx rfl
    | false => exact .bind .trivial fun _ ↦ .pure nofun

theorem copyPageTo_spending {pgdir i : Word} (haligned : i.toNat % 4096 = 0) :
    Triple (Spending s n) (copyPageTo pgdir d i) (fun copied t ↦ copied = true → Spending s (n + 2) t)
      fun _ _ ↦ True := by
  refine .bind (Q := fun _ ↦ Spending s n) ?_ fun found ↦ ?_
  · intro t ht
    rw [walkpgdir_false_apply]
    exact ht
  · cases found with
    | none => exact .halt fun _ _ ↦ trivial
    | some v =>
      refine .get_bind fun t ht ↦ ?_
      split
      · refine kalloc_rule (fun u _ _ ↦ .pure nofun) ?_
        intro u frame rest hu hfree
        subst hu
        refine .modify_bind fun w hw ↦ .of_forall fun x hx ↦ ?_
        have htaken : Spending s (n + 1) x := by
          subst hw hx
          exact ht.take hfree rfl (fun a ha ↦ if_neg (Nat.not_lt.mpr ha)) rfl
        rw [mappages_page haligned]
        refine (mapPage_run d i frame _ x).seq (fun _ _ _ ↦ trivial) fun mapped ↦ ?_
        cases mapped with
        | true =>
          refine .pure ?_
          rintro y ⟨z, hwalked, _, rfl⟩ _
          have hgrown := grown_of_walked hwalked
          have hspent := htaken.2
          have hcount := hgrown.count
          rw [Spent] at hspent
          refine ⟨(htaken.1.trans (.of_grown hgrown)).congr rfl rfl fun _ ↦ rfl, ?_⟩
          change s.freelist.length ≤ z.freelist.length + (n + 2)
          omega
        | false =>
          exact .bind .trivial fun _ ↦ .pure nofun
      · exact .halt fun _ _ ↦ trivial

theorem copyFrom_spending (pgdir : Word) (hsz : sz ≤ mmapBase) (fuel : ℕ) {i : Word}
    (haligned : i.toNat % 4096 = 0) :
    Triple (Spending s n) (copyFrom pgdir d sz fuel i)
      (fun copied t ↦ copied = true → Spending s (n + 2 * ((sz.toNat - i.toNat + 4095) / 4096)) t)
      fun _ _ ↦ True := by
  have hdone (i : Word) (t : Machine N) (ht : Spending s n t) :
      Spending s (n + 2 * ((sz.toNat - i.toNat + 4095) / 4096)) t :=
    ⟨ht.1, ht.2.trans (by omega)⟩
  induction fuel generalizing i n with
  | zero =>
    rw [copyFrom]
    split
    · exact .halt fun _ _ ↦ trivial
    · exact .pure fun t ht _ ↦ hdone i t ht
  | succ fuel ih =>
    rw [copyFrom]
    split
    · rename_i hlt
      have hlt' : i.toNat < sz.toNat := hlt
      have hsz' : sz.toNat ≤ 0x60000000 := hsz
      have hnext : (i + pgSize).toNat = i.toNat + 4096 := by
        rw [toNat_add, show pgSize.toNat = 4096 from rfl]
        omega
      refine .bind (copyPageTo_spending haligned) fun copied ↦ ?_
      cases copied with
      | true =>
        refine (ih (aligned_add haligned rfl) (n := n + 2) ?_).weaken (fun t ht ↦ ht rfl) ?_
          fun _ _ ↦ id
        · exact fun j t ht ↦ ⟨ht.1, ht.2.trans (by omega)⟩
        · intro copied t ht hcopied
          obtain ⟨htaking, hspent⟩ := ht hcopied
          rw [hnext] at hspent
          exact ⟨htaking, hspent.trans (by omega)⟩
      | false => exact .pure fun _ _ h ↦ by cases h
    · exact .pure fun t ht _ ↦ hdone i t ht

/-- **The frames that `copyuvm` takes**: the directory, the page tables of the kernel half, and at
most two for each page. -/
theorem copyuvm_spending (hsz : sz ≤ mmapBase) (pgdir : Word) (s : Machine N) :
    Triple (· = s) (copyuvm pgdir sz)
      (fun r t ↦ r.isSome = true → Spending s (65 + 2 * ((sz.toNat + 4095) / 4096)) t)
      fun _ _ ↦ True := by
  refine .bind (setupkvm_spending s) fun r ↦ ?_
  cases r with
  | none => exact .pure nofun
  | some d =>
    have hcopy := copyFrom_spending (s := s) (d := d) pgdir hsz (sz.toNat / 4096 + 1) (i := 0) rfl
      (n := 65)
    refine .bind (hcopy.pre fun t ht ↦ ht rfl) fun copied ↦ ?_
    cases copied with
    | true => exact .pure fun t ht _ ↦ ht rfl
    | false => exact .bind .trivial fun _ ↦ .pure nofun

/-- **`copyuvm` makes a directory with an empty mapping area** and touches no other directory. -/
theorem copyuvm_building (hsz : sz ≤ mmapBase) {pgdir : Word}
    (hrun : copyuvm pgdir sz s = (.ok (some d), t)) :
    d ∈ s.freelist ∧ Building s d t ∧ Spent s (65 + 2 * ((sz.toNat + 4095) / 4096)) t := by
  have hnew := copyuvm_new pgdir hsz s s rfl
  have hspending := copyuvm_spending hsz pgdir s s rfl
  rw [hrun] at hnew hspending
  obtain ⟨hd, hdir⟩ := hnew
  obtain ⟨htaking, hspent⟩ := hspending rfl
  refine ⟨hd, ⟨htaking, hdir.others, hdir.tabled, fun v hv ↦ ?_, hdir.rest⟩, hspent⟩
  have hsz' : sz.toNat ≤ 0x60000000 := hsz
  have hv' : 0x60000 ≤ v.toNat := hv
  refine hdir.entries.2 v (Or.inr ?_)
  unfold pages
  omega

end Kernel

/-! ## The pages of a region -/

namespace Region

/-- The virtual page number of page `k`. -/
def page (r : Region) (k : ℕ) : Vpn := vpn (pageAddr r.virtAddr k)

variable {r : Region} {k : ℕ}

theorem Placed.toNat_page (h : r.Placed) (hk : k < r.pageCount) :
    (r.page k).toNat = r.virtAddr.toNat / 4096 + k := by
  have haligned : r.virtAddr.toNat % 4096 = 0 := h.aligned
  rw [page, toNat_vpn, h.toNat_pageAddr hk]
  omega

theorem Placed.mmapVpn_le_page (h : r.Placed) (hk : k < r.pageCount) : mmapVpn ≤ r.page k := by
  have hbase : 0x60000000 ≤ r.virtAddr.toNat := h.base_le
  have hmmap : mmapVpn.toNat = 0x60000 := rfl
  rw [le_def, h.toNat_page hk]
  omega

end Region

/-- Live regions share no page. -/
theorem RegionTable.WellFormed.page_injective {t : RegionTable} (h : t.WellFormed) {i j k l : ℕ}
    (hi : i < t.total.toNat) (hj : j < t.total.toNat) (hk : k < (t i).region.pageCount)
    (hl : l < (t j).region.pageCount) (hpage : (t i).region.page k = (t j).region.page l) :
    i = j ∧ k = l := by
  have hi' := h.placed_at hi
  have hj' := h.placed_at hj
  have hnat := congrArg BitVec.toNat hpage
  rw [hi'.toNat_page hk, hj'.toNat_page hl] at hnat
  have hiPages := hi'.pages_eq
  have hjPages := hj'.pages_eq
  have hjAligned := hj'.aligned
  rcases Nat.lt_trichotomy i j with hlt | rfl | hlt
  · have hle : (t i).region.hi ≤ (t j).region.virtAddr.toNat := h.hi_le_lo hlt hj
    omega
  · exact ⟨rfl, by omega⟩
  · have hle : (t j).region.hi ≤ (t i).region.virtAddr.toNat := h.hi_le_lo hlt hi
    omega

namespace Kernel

open Machine

/-! ## The parts of a successful `fork` -/

/-- What `fork` has prepared for child `np` when it comes to `copy_maps`. -/
structure ForkReady (s : Machine N) (np : Fin N) (u : Machine N) : Prop where
  slot : findUnused s = some np
  others : ∀ q, q ≠ np → u.procs q = s.procs q
  mmaps : (u.procs np).mmaps = (s.procs np).mmaps.setTotal 0
  fresh : (u.procs np).pgdir ∈ s.freelist
  taking : s.Taking u
  dirs : ∀ d, d ≠ (u.procs np).pgdir → u.pgdirs d = s.pgdirs d
  tabled : (u.pgdirs (u.procs np).pgdir).Tabled
  area : ∀ v, mmapVpn ≤ v → (u.pgdirs (u.procs np).pgdir).pte v = 0
  rest : u = { s with
    mem := u.mem
    freelist := u.freelist
    pgdirs := u.pgdirs
    procs := u.procs
    nextpid := u.nextpid }

/-- What `fork` does after `copy_maps`. -/
structure ForkDone (np : Fin N) (v t : Machine N) : Prop where
  others : ∀ q, q ≠ np → closed (t.procs q) = closed (v.procs q)
  pgdir : (t.procs np).pgdir = (v.procs np).pgdir
  mmaps : (t.procs np).mmaps = (v.procs np).mmaps
  files : ∀ f, uncounted (t.files f) = uncounted (v.files f)
  rest : t = { v with procs := t.procs, files := t.files }

variable {np : Fin N}

theorem ForkReady.of_building {s t u : Machine N} {d : Word} (ht : Claimed s np t)
    (hd : d ∈ t.freelist) (hbuilding : Building t d u) : ForkReady s np
      { u with procs := update u.procs np { u.procs np with pgdir := d } } := by
  have hsame : u.procs = t.procs := by rw [hbuilding.rest]
  have htaking : s.Taking t := by
    rw [ht.rest]
    exact ⟨⟨[_], ht.freelist.symm⟩, fun _ ↦ rfl, fun _ _ _ ↦ rfl⟩
  refine ⟨ht.slot, ?_, ?_, ?_, (htaking.trans hbuilding.taking).congr rfl rfl fun _ ↦ rfl, ?_, ?_,
    ?_, ?_⟩
  · intro q hq
    simp only [update_of_ne hq]
    rw [hsame, ht.others q hq]
  · simp only [update_self]
    rw [hsame, ht.child]
  · simp only [update_self]
    rw [ht.freelist]
    exact mem_cons_of_mem _ hd
  · intro d' hd'
    simp only [update_self] at hd'
    dsimp only
    rw [hbuilding.others d' hd', ht.dirs]
  · simp only [update_self]
    exact hbuilding.tabled
  · simp only [update_self]
    exact hbuilding.area
  · have hpid : u.nextpid = t.nextpid := by rw [hbuilding.rest]
    have hrest := congrArg (fun x : Machine N ↦ { x with
      mem := u.mem
      freelist := u.freelist
      pgdirs := u.pgdirs
      procs := update u.procs np { u.procs np with pgdir := d } }) ht.rest
    have hbuilt := congrArg (fun x : Machine N ↦ { x with
      procs := update u.procs np { u.procs np with pgdir := d } }) hbuilding.rest
    have hall := hbuilt.trans hrest
    dsimp only at hall
    rw [← hpid] at hall
    exact hall

/-- The open files are copied and the child is let run. -/
theorem ForkDone.of_files {s t : Machine N} {proc : Proc N}
    (h : filesFrame.rel { s with procs := update s.procs np proc } t)
    (hpgdir : proc.pgdir = (s.procs np).pgdir) (hmmaps : proc.mmaps = (s.procs np).mmaps) :
    ForkDone np s
      { t with procs := update t.procs np { t.procs np with state := .runnable } } := by
  refine ⟨fun q hq ↦ ?_, ?_, ?_, fun f ↦ congrFun (congrArg Machine.files h) f, ?_⟩
  · have hclosed := closed_of_filesFrame h q
    simp only [update_of_ne hq] at hclosed ⊢
    exact hclosed
  · have hcore := Proc.pgdir_of_core (core_of_filesFrame h np)
    simp only [update_self] at hcore ⊢
    rw [hcore, hpgdir]
  · have htable := mmaps_of_filesFrame h np
    simp only [update_self] at htable ⊢
    rw [htable, hmmaps]
  · exact congrArg (fun m : Machine N ↦ { m with
      procs := update t.procs np { t.procs np with state := .runnable } }) (eq_of_filesFrame h)

/-- **A successful `fork` is a run of `copy_maps`** from a state in which the child has a directory
with an empty mapping area. -/
theorem fork_run {p : Fin N} (hsz : (s.procs p).sz ≤ mmapBase)
    (hp : (s.procs p).state = .runnable) (hrun : fork p s = (.ok (some np), t)) :
    ∃ u v, p ≠ np ∧ ForkReady s np u ∧
      Spent s (66 + 2 * (((s.procs p).sz.toNat + 4095) / 4096)) u ∧
      copyMaps p np u = (.ok true, v) ∧ ForkDone np v t := by
  let Ready (np : Fin N) (u : Machine N) : Prop := p ≠ np ∧ ForkReady s np u ∧
    Spent s (66 + 2 * (((s.procs p).sz.toNat + 4095) / 4096)) u
  have hfork : Triple (· = s) (fork p) (fun r t ↦ ∀ np, r = some np → ∃ u v, Ready np u ∧
      copyMaps p np u = (.ok true, v) ∧ ForkDone np v t) fun _ _ ↦ True := by
    refine fork_rule (C := fun np r u ↦ ∀ d, r = some d → Ready np
        { u with procs := update u.procs np { u.procs np with pgdir := d } })
      (M := fun np copied w ↦ copied = true → ∃ u, Ready np u ∧ copyMaps p np u = (.ok true, w))
      (live_of_runnable hp) (nofun) ?_ (nofun) ?_ ?_ ?_
    · intro np t hne ht
      refine (Triple.ran t).post ?_ fun _ _ _ ↦ trivial
      rintro r u hcopy d rfl
      obtain ⟨hd, hbuilding, hspent⟩ := copyuvm_building hsz hcopy
      refine ⟨hne, .of_building ht hd hbuilding, ?_⟩
      rw [Spent] at hspent ⊢
      rw [ht.freelist, length_cons]
      dsimp only
      omega
    · intro np d u _ hu
      refine (Triple.ran _).post ?_ fun _ _ _ ↦ trivial
      rintro copied w hmaps rfl
      exact ⟨_, hu d rfl, hmaps⟩
    · exact fun np w _ ↦ Triple.trivial.post (nofun) fun _ _ ↦ id
    · intro np w _ hw
      obtain ⟨u, hready, hmaps⟩ := hw rfl
      refine (Triple.of_frame (respects_dupFiles p np _) _).post ?_ fun _ _ _ ↦ trivial
      intro _ x hx np' hnp
      cases hnp
      exact ⟨u, w, hready, hmaps, .of_files hx rfl rfl⟩
  have hdone := hfork s rfl
  rw [hrun] at hdone
  obtain ⟨u, v, ⟨hne, hready, hspent⟩, hmaps, hforked⟩ := hdone np rfl
  exact ⟨u, v, hne, hready, hspent, hmaps, hforked⟩

theorem eq_of_fork_result {p : Fin N} {r : Option (Fin N)}
    (h : ((fork p s).1.toOption == some r) = true) :
    fork p s = (.ok r, (fork p s).2) := by
  rcases hrun : fork p s with ⟨outcome, t⟩
  rw [hrun] at h
  cases outcome with
  | ok a =>
    have hequal : a = r := by simpa [Except.toOption] using h
    rw [hequal]
  | error e => simp [Except.toOption] at h

end Kernel

end Xv6Mmap
