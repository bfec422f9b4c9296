import Xv6Mmap.Machine.RegionRuns
import Xv6Mmap.Region.Checked

/-!
# Index safety of the region table over sequences of calls

The calls on the region table with their accesses checked.  As long as the last entry of the array
is free, `my_munmap` and `delete_mmaps` stay inside the array whatever their arguments are: the left
shift stops at that entry at the latest, and `delete_mmaps` removes at most one entry a round.  What
leaves the array are a null address under `MAP_FIXED` (entry `-1`), any other address on an empty
table (`mmaps[total_mmaps - 1]`), and the left shift of a table without a free entry
(`mmaps[30]`).
-/

namespace Xv6Mmap

open Library RegionTable Function RegionCall Kernel

variable {nproc : ℕ} {α β : Type}

/-- A kernel run that also ends at an access outside the array of regions. -/
abbrev CheckedKernel (nproc : ℕ) (α : Type) := Prog (Halt ⊕ ℤ) (Machine nproc) α

namespace CheckedKernel

open Prog

/-- Code that does not access the array. -/
def lift (c : Kernel nproc α) : CheckedKernel nproc α :=
  fun s ↦ ((c s).1.mapError .inl, (c s).2)

/-- Checked code on the table of process `p`. -/
def onTable (p : Fin nproc) (c : Checked α) : CheckedKernel nproc α :=
  fun s ↦
    match c (s.procs p).mmaps with
    | (r, t) => (r.mapError .inr,
        { s with procs := Function.update s.procs p { s.procs p with mmaps := t } })

def myMmap (p : Fin nproc) (call : Kernel.MmapCall) : CheckedKernel nproc Word := do
  let s ← get
  onTable p (Checked.myMmap (call.args (s.files call.f)))

def myMunmap (p : Fin nproc) (addr size : Word) : CheckedKernel nproc Word := do
  let s ← get
  let unmappingSize := pgRoundUp size
  match ← onTable p (Checked.findEntry (pgRoundUp addr)) with
  | none => return -1
  | some i => do
    let mr ← onTable p (Checked.read i)
    if mr.size = 0 then return -1
    else if ← lift (Kernel.writeBack p mr) then
      lift (Kernel.freeRange (s.procs p).pgdir addr (Kernel.unmapCount mr.size unmappingSize))
      onTable p (Checked.dropEntry i unmappingSize)
      return 0
    else return -1

def deleteFrom (p : Fin nproc) : ℕ → CheckedKernel nproc Unit
  | 0 => return ()
  | n + 1 => do
    let s ← get
    let last ← onTable p (Checked.read ((s.procs p).mmaps.total - 1))
    if last.refCount = 0 then
      let mr ← onTable p (Checked.read n)
      let _ ← myMunmap p mr.virtAddr mr.size
      deleteFrom p n
    else deleteFrom p n

def deleteMmaps (p : Fin nproc) : CheckedKernel nproc Unit := do
  let s ← get
  deleteFrom p (s.procs p).mmaps.total.toNat
  lift (Kernel.setMmaps p fun t ↦ t.setTotal 0)

/-- No access outside the array. -/
def IndexSafe (c : CheckedKernel nproc α) (s : Machine nproc) : Prop :=
  ∀ k, (c s).1 ≠ .error (.inr k)

/-! ## Runs that stay inside the array -/

variable {p : Fin nproc} {s s' : Machine nproc}

/-- Checked code that runs like the unchecked code is index safe. -/
theorem indexSafe_of_eq {c : CheckedKernel nproc α} {d : Kernel nproc α}
    (h : c s = lift d s) : IndexSafe c s := by
  intro k
  rw [h, lift]
  cases (d s).1 with
  | ok v | error e => exact nofun

theorem lift_bind_apply (c : Kernel nproc α) (f : α → Kernel nproc β)
    (g : α → CheckedKernel nproc β) (h : ∀ v s', c s = (.ok v, s') → g v s' = lift (f v) s') :
    (lift c >>= g) s = lift (c >>= f) s := by
  rw [bind_apply, lift, lift, bind_apply]
  rcases hrun : c s with ⟨e | v, s'⟩
  · rfl
  · exact h v s' hrun

theorem onTable_read {c : Checked α} {v : α}
    (h : c (s.procs p).mmaps = (.ok v, (s.procs p).mmaps)) : onTable p c s = (.ok v, s) := by
  rw [onTable, h]
  change (Except.ok v, { s with procs := update s.procs p (s.procs p) }) = _
  rw [update_eq_self]

theorem myMmap_eq {call : MmapCall} (hslack : Checked.Slack (s.procs p).mmaps)
    (h : (call.args (s.files call.f)).valid = true →
      (call.args (s.files call.f)).StaysInArray (s.procs p).mmaps) :
    myMmap p call s = lift (Kernel.myMmap p call) s := by
  rw [myMmap, bind_of_ok (get_apply s), onTable, (Checked.myMmap_apply hslack h).1]
  rfl

theorem slack_congr {t t' : RegionTable} (h : ∀ i : ℤ, (t' i).region = (t i).region)
    (hslack : Checked.Slack t) : Checked.Slack t' ∧ t'.totalMmaps = t.totalMmaps := by
  have hcount : t'.totalMmaps = t.totalMmaps := congrArg Region.virtAddr (h 30)
  refine ⟨⟨?_, ?_, ?_⟩, hcount⟩
  · exact (congrArg Region.virtAddr (h 29)).trans hslack.virtAddr_eq
  · exact (congrArg Region.size (h 29)).trans hslack.size_eq
  · rw [total, hcount]
    exact hslack.total_le

theorem myMunmap_eq (addr size : Word) (hslack : Checked.Slack (s.procs p).mmaps)
    (hcount : (s.procs p).mmaps.totalMmaps ≠ BitVec.intMin 32) :
    myMunmap p addr size s = lift (Kernel.myMunmap p addr size) s := by
  have hframe := pagingFrame_procFrame p
  have hfind := Checked.findEntry_apply (t := (s.procs p).mmaps) (pgRoundUp addr)
  rw [myMunmap, bind_of_ok (get_apply s), bind_of_ok (onTable_read hfind), Kernel.myMunmap, lift,
    bind_of_ok (get_apply s)]
  cases hfound : (s.procs p).mmaps.findEntry (pgRoundUp addr) with
  | none => rfl
  | some i =>
    have hlt := (findEntry_eq_some hfound).1
    have hread : Checked.read i (s.procs p).mmaps = (.ok ((s.procs p).mmaps i), _) :=
      Checked.read_apply (by omega)
    dsimp only
    rw [bind_of_ok (onTable_read hread)]
    by_cases hsize : ((s.procs p).mmaps i).size = 0
    · rw [if_pos hsize, if_pos hsize]
      rfl
    · have hi := hslack.found_lt hfound hsize
      rw [if_neg hsize, if_neg hsize]
      apply lift_bind_apply
      intro written s₁ hwrite
      have hrel := (respects_writeBack ioFrame_procFrame.toOffsetFrame
        (respects_loadKernel hframe) _).of_eq hwrite
      cases written with
      | false => rfl
      | true =>
        apply lift_bind_apply
        intro _ s₂ hfree
        have hrel' := (respects_freeRange hframe _ _ _).of_eq hfree
        obtain ⟨hslack₂, hcount₂⟩ := slack_congr
          (fun k ↦ region_of_procFrame (procFrame.trans hrel hrel') p k) hslack
        have hdrop := (Checked.dropEntry_apply (pgRoundUp size) hi hslack₂ (hcount₂ ▸ hcount)).1
        rw [bind_apply, onTable, hdrop]
        rfl

/-- What an unmapping does to the free last entry and the count. -/
theorem slack_myMunmap {addr size r : Word} (hslack : Checked.Slack (s.procs p).mmaps)
    (hcount : (s.procs p).mmaps.totalMmaps ≠ BitVec.intMin 32)
    (hrun : Kernel.myMunmap p addr size s = (.ok r, s')) :
    Checked.Slack (s'.procs p).mmaps ∧
      (s.procs p).mmaps.total - 1 ≤ (s'.procs p).mmaps.total := by
  rcases Kernel.myMunmap_cases hrun with ⟨_, hrel⟩ | ⟨i, s₁, _, hfound, hsize, hrel, rfl⟩
  · obtain ⟨hslack', hcount'⟩ :=
      slack_congr (fun k ↦ region_of_procFrame hrel p k) hslack
    refine ⟨hslack', ?_⟩
    rw [total, total, hcount']
    exact Int.sub_le_self _ (by decide)
  · obtain ⟨hslack₁, hcount₁⟩ :=
      slack_congr (fun k ↦ region_of_procFrame hrel p k) hslack
    have hdrop := Checked.dropEntry_apply (pgRoundUp size) (hslack.found_lt hfound hsize) hslack₁
      (hcount₁ ▸ hcount)
    have htotal₁ : (s₁.procs p).mmaps.total = (s.procs p).mmaps.total :=
      congrArg BitVec.toInt hcount₁
    simp only [update_self]
    exact ⟨hdrop.2.1, htotal₁ ▸ hdrop.2.2⟩

/-- Each round of `delete_mmaps` takes one off `total_maps` and at most one off `total_mmaps`. -/
theorem deleteFrom_eq (n : ℕ) (hslack : Checked.Slack (s.procs p).mmaps)
    (hn : (n : ℤ) ≤ (s.procs p).mmaps.total) :
    deleteFrom p n s = lift (Kernel.deleteFrom p n) s := by
  induction n generalizing s with
  | zero => rfl
  | succ n ih =>
    have hle := hslack.total_le
    have hlast : Checked.read ((s.procs p).mmaps.total - 1) (s.procs p).mmaps =
        (.ok ((s.procs p).mmaps ((s.procs p).mmaps.total - 1)), _) :=
      Checked.read_apply (by omega)
    have hread : Checked.read n (s.procs p).mmaps = (.ok ((s.procs p).mmaps n), _) :=
      Checked.read_apply (by omega)
    rw [deleteFrom, bind_of_ok (get_apply s), bind_of_ok (onTable_read hlast), Kernel.deleteFrom,
      lift, bind_of_ok (get_apply s)]
    split
    · have hcount : (s.procs p).mmaps.totalMmaps ≠ BitVec.intMin 32 := by
        intro hmin
        rw [total, hmin] at hn
        exact absurd hn (by rw [show (BitVec.intMin 32).toInt = -2147483648 from rfl]; omega)
      rw [bind_of_ok (onTable_read hread), bind_apply, myMunmap_eq _ _ hslack hcount, ← bind_apply]
      apply lift_bind_apply
      intro r s₁ hrun
      obtain ⟨hslack₁, htotal₁⟩ := slack_myMunmap hslack hcount hrun
      exact ih hslack₁ (by omega)
    · exact ih hslack (by omega)

theorem deleteMmaps_eq (hslack : Checked.Slack (s.procs p).mmaps) :
    deleteMmaps p s = lift (Kernel.deleteMmaps p) s := by
  have hdelete : deleteFrom p (s.procs p).mmaps.total.toNat s =
      lift (Kernel.deleteFrom p (s.procs p).mmaps.total.toNat) s := by
    rcases Int.le_total 0 (s.procs p).mmaps.total with hnonneg | hneg
    · exact deleteFrom_eq _ hslack (by omega)
    · rw [Int.toNat_of_nonpos hneg]
      rfl
  rw [deleteMmaps, bind_of_ok (get_apply s), Kernel.deleteMmaps, lift, bind_of_ok (get_apply s),
    bind_apply, hdelete, ← bind_apply]
  apply lift_bind_apply
  intro _ s₁ _
  rfl

end CheckedKernel

/-! ## Runs of calls -/

namespace RegionCall

open CheckedKernel

variable {p : Fin nproc} {x x' : Machine nproc × List Region} {call : RegionCall}

def checked (p : Fin nproc) : RegionCall → CheckedKernel nproc Word
  | mmap call => CheckedKernel.myMmap p call
  | munmap addr size => CheckedKernel.myMunmap p addr size

/-- The condition on the state before a call under which the calls stay inside the array. -/
def StaysInArray (p : Fin nproc) (x : Machine nproc × List Region) : RegionCall → Prop
  | mmap call =>
    let a := call.args (x.1.files call.f)
    a.valid = true → a.StaysInArray (x.1.procs p).mmaps
  | munmap _ _ => (x.1.procs p).mmaps.totalMmaps ≠ BitVec.intMin 32

instance (p : Fin nproc) (x : Machine nproc × List Region) :
    (call : RegionCall) → Decidable (call.StaysInArray p x)
  | mmap _ => inferInstanceAs (Decidable (_ → _))
  | munmap _ _ => inferInstanceAs (Decidable (_ ≠ _))

theorem checked_eq (hslack : Checked.Slack (x.1.procs p).mmaps)
    (hstays : call.StaysInArray p x) : call.checked p x.1 = lift (call.body p) x.1 := by
  cases call with
  | mmap c => exact myMmap_eq hslack hstays
  | munmap addr size => exact myMunmap_eq addr size hslack hstays

theorem slack_step (hslack : Checked.Slack (x.1.procs p).mmaps)
    (hstays : call.StaysInArray p x) (hstep : step p x call = some x') :
    Checked.Slack (x'.1.procs p).mmaps := by
  obtain ⟨r, hrun, _⟩ := step_eq_some hstep
  cases call with
  | mmap c =>
    rw [body, myMmap_apply] at hrun
    rw [← show _ = x'.1 from (Prod.ext_iff.mp hrun).2]
    simp only [update_self]
    exact (Checked.myMmap_apply hslack hstays).2
  | munmap addr size => exact (slack_myMunmap hslack hstays hrun).1

end RegionCall

/-- **Index safety of the region table.** From a blank table, along every sequence of calls that
meet the condition in the state they are made in, no access of such a call is outside the array, and
none of a `delete_mmaps` in a state reached. -/
theorem regionTable_index_safe {p : Fin nproc} {s : Machine nproc}
    (hfresh : (s.procs p).mmaps.Fresh) {x : Machine nproc × List Region}
    (hrun : Runs.Reaches (RegionCall.step p) (RegionCall.StaysInArray p) (s, []) x) :
    (∀ call : RegionCall, call.StaysInArray p x → CheckedKernel.IndexSafe (call.checked p) x.1) ∧
      CheckedKernel.IndexSafe (CheckedKernel.deleteMmaps p) x.1 := by
  have hinit : Checked.Slack (s.procs p).mmaps := by
    have hblank : (s.procs p).mmaps 29 = MmapRegion.blank := hfresh.1 29 (by decide)
    have htotal := hfresh.total_eq_zero
    exact ⟨congrArg MmapRegion.virtAddr hblank, congrArg MmapRegion.size hblank, by omega⟩
  have hslack : Checked.Slack (x.1.procs p).mmaps :=
    hrun.invariant (I := fun x ↦ Checked.Slack (x.1.procs p).mmaps) hinit
      fun _ _ _ hy hstays hstep ↦ slack_step hy hstays hstep
  constructor
  · intro call hstays
    exact CheckedKernel.indexSafe_of_eq (checked_eq hslack hstays)
  · exact CheckedKernel.indexSafe_of_eq (CheckedKernel.deleteMmaps_eq hslack)

open BootImage

/-- Two pages are mapped and the first is unmapped; the process can then be torn down without an access
outside the array. -/
theorem regionTable_index_safe_shifted :
    ∃ x, Runs.Reaches (RegionCall.step 0) (RegionCall.StaysInArray 0) (idle 0 0, []) x ∧
      x.2.map Region.virtAddr = [0x60001000] ∧
      CheckedKernel.IndexSafe (CheckedKernel.deleteMmaps 0) x.1 := by
  obtain ⟨x, hx, hledger⟩ : ∃ x ∈ Runs.runIf (RegionCall.step 0) (RegionCall.StaysInArray 0)
      [.mmap anonymousPage, .mmap anonymousPage, .munmap 0x60000000 pgSize] (idle 0 0, []),
      x.2.map Region.virtAddr = [0x60001000] := by
    decide +kernel
  have hreaches := Runs.reaches_of_runIf hx
  exact ⟨x, hreaches, hledger, (regionTable_index_safe ⟨fun _ _ ↦ rfl, rfl⟩ hreaches).2⟩

/-- The first mapping of a process, with an address hint: `check_mmap_possible` reads
`mmaps[total_mmaps - 1]`, which is entry `-1`. -/
theorem regionTable_index_unsafe_hint :
    ((idle 0 0).procs 0).mmaps.Fresh ∧
      ∃ x, Runs.Reaches (RegionCall.step 0) Runs.unguarded (idle 0 0, []) x ∧
        ∃ call : RegionCall, (call.checked 0 x.1).1 = .error (.inr (-1)) :=
  ⟨⟨fun _ _ ↦ rfl, rfl⟩, _, Relation.ReflTransGen.refl,
    .mmap { anonymousPage with addr := 0x60001000 }, by decide +kernel⟩

end Xv6Mmap
