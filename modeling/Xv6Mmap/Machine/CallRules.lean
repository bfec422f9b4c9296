import Xv6Mmap.Machine.FrameSound

/-!
# Rules for `fork` and `exit`

`fork` takes a slot, copies the address space of its parent and its mappings and, in the end, its
open files.  Its rule takes the call apart once: a property of `fork` has to be proved for a call that
finds no slot, for one that gives its slot back and for the last step of one that succeeds.  The rule
for `exit` leaves two calls to be looked at, `closeFiles` and `delete_mmaps`.
-/

namespace Xv6Mmap

open Function Library Prog

variable {N : ℕ}

namespace Kernel

open Machine

variable {s t : Machine N} {p np : Fin N} {E : Halt → Machine N → Prop}

theorem findUnused_state (h : findUnused s = some np) : (s.procs np).state = .unused := by
  have hfound := List.find?_some h
  exact of_decide_eq_true hfound

/-- `allocproc` has found no slot, or no frame for the kernel stack. -/
structure Unclaimed (s t : Machine N) : Prop where
  procs : t.procs = s.procs ∨ ∃ np pid, (s.procs np).state = .unused ∧
    t.procs = update s.procs np { s.procs np with pid := pid, kstack := 0 }
  rest : t = { s with procs := t.procs, nextpid := t.nextpid }

/-- `allocproc` has taken slot `np`. -/
structure Claimed (s : Machine N) (np : Fin N) (t : Machine N) : Prop where
  slot : findUnused s = some np
  others : ∀ q, q ≠ np → t.procs q = s.procs q
  child : t.procs np = { s.procs np with
    state := .embryo
    pid := (t.procs np).pid
    kstack := (t.procs np).kstack
    mmaps := (s.procs np).mmaps.setTotal 0 }
  freelist : s.freelist = (t.procs np).kstack :: t.freelist
  rest : t = { s with procs := t.procs, freelist := t.freelist, nextpid := t.nextpid }

theorem Claimed.dirs (h : Claimed s np t) : t.pgdirs = s.pgdirs := by rw [h.rest]

theorem Claimed.not_free (h : Claimed s np t) {d : Word} (hd : d ∉ s.freelist) :
    d ∉ t.freelist := by
  rw [h.freelist] at hd
  exact fun hmem ↦ hd (List.mem_cons_of_mem _ hmem)

theorem allocproc_claims (s : Machine N) :
    Triple (· = s) allocproc
      (fun r t ↦ match r with
        | none => Unclaimed s t
        | some np => Claimed s np t) fun _ _ ↦ False := by
  rintro u rfl
  rw [allocproc, bind_of_ok (get_apply u)]
  cases hfind : findUnused u with
  | none => exact ⟨.inl rfl, rfl⟩
  | some np =>
    have hunused := findUnused_state hfind
    dsimp only
    rw [setProc, bind_of_ok (modify_apply _ _), bind_of_ok (modify_apply _ _), bind_apply, kalloc]
    cases hfree : u.freelist with
    | nil =>
      refine ⟨.inr ⟨np, u.nextpid, hunused, ?_⟩, by rw [← hfree]⟩
      simp only [update_self, update_idem, hunused]
    | cons kstack rest =>
      refine ⟨hfind, ?_, ?_, ?_, rfl⟩
      · intro q hq
        simp only [update_of_ne hq]
      · simp only [update_self]
      · simp only [update_self, hfree]

/-- The slot of child `np` has been given back. -/
structure Abandoned (np : Fin N) (s t : Machine N) : Prop where
  others : ∀ q, q ≠ np → t.procs q = s.procs q
  child : t.procs np = { s.procs np with kstack := 0, state := .unused }
  freelist : t.freelist = (s.procs np).kstack :: s.freelist
  rest : t = { s with mem := t.mem, freelist := t.freelist, procs := t.procs }

theorem abandon_gives (np : Fin N) (s : Machine N) :
    Triple (· = s) (abandon np) (fun _ ↦ Abandoned np s) fun e _ ↦ e = .panic := by
  rintro t rfl
  rw [abandon, bind_of_ok (get_apply t), bind_apply, kfree_apply]
  by_cases hbad : ((t.procs np).kstack % pgSize != 0 || (t.procs np).kstack < t.kend ||
      physTop ≤ (t.procs np).kstack) = true
  · rw [if_pos hbad]
  · rw [if_neg hbad]
    refine ⟨fun q hq ↦ ?_, ?_, rfl, rfl⟩
    · simp only [update_of_ne hq]
    · simp only [update_self]

/-- `fork` by `p`.  After `copyuvm` the state meets `C np`, after `copy_maps` it meets `M np`. -/
theorem fork_rule {C : Fin N → Option Word → Machine N → Prop} {M : Fin N → Bool → Machine N → Prop}
    {Q : Option (Fin N) → Machine N → Prop} (hp : (s.procs p).state ≠ .unused)
    (hnone : ∀ t, Unclaimed s t → Q none t) (hspace : ∀ np t, p ≠ np → Claimed s np t →
      Triple (· = t) (copyuvm (s.procs p).pgdir (s.procs p).sz) (C np) E)
    (hlost : ∀ np u, p ≠ np → C np none u → M np false
      { u with procs := update u.procs np { u.procs np with pgdir := 0 } })
    (hmaps : ∀ np d u, p ≠ np → C np (some d) u →
      Triple (fun v ↦ v = { u with
        procs := update u.procs np { u.procs np with pgdir := d } })
        (copyMaps p np) (M np) E)
    (hback : ∀ np w, M np false w → Triple (· = w) (abandon np) (fun _ ↦ Q none) E)
    (hdone : ∀ np w, p ≠ np → M np true w → Triple (fun v ↦ v = { w with
        procs := update w.procs np
          { w.procs np with sz := (s.procs p).sz, parent := some p } })
      (dupFiles p np (List.finRange nOfile))
      (fun _ x ↦ Q (some np) { x with
        procs := update x.procs np { x.procs np with state := .runnable } }) E) :
    Triple (· = s) (fork p) Q E := by
  refine (allocproc_claims s).seq (fun _ _ hfalse ↦ hfalse.elim) fun r ↦ ?_
  cases r with
  | none => exact .pure hnone
  | some np =>
    refine .get_bind fun t ht ↦ ?_
    have hne : p ≠ np := by
      rintro rfl
      exact hp (findUnused_state ht.slot)
    have hgive : Triple (M np false) (do abandon np; return none) Q E :=
      .bind (.of_forall (hback np)) fun _ ↦ .pure fun _ ↦ id
    rw [ht.others p hne]
    refine .bind (hspace np t hne ht) fun r ↦ ?_
    cases r with
    | none =>
      exact .bind (Q := fun _ ↦ M np false) (.modify fun u ↦ hlost np u hne) fun _ ↦ hgive
    | some d =>
      refine .modify_bind fun u hu ↦ .bind (hmaps np d u hne hu) fun copied ↦ ?_
      cases copied with
      | false => exact hgive
      | true =>
        rw [if_pos rfl]
        refine .modify_bind fun w hw ↦ .bind (hdone np w hne hw) fun _ ↦ ?_
        exact .modify_bind fun x hx ↦ .pure fun _ hy ↦ hy ▸ hx

/-! ## `exit` -/

/-- Process `p` has become a zombie and its children have got another parent. -/
structure Ended (p : Fin N) (s t : Machine N) : Prop where
  others : ∀ q, q ≠ p → t.procs q = { s.procs q with parent := (t.procs q).parent }
  self : t.procs p = { s.procs p with parent := (t.procs p).parent, state := .zombie }
  rest : t = { s with procs := t.procs }

theorem reparent_eq (p init : Fin N) (proc : Proc N) :
    reparent p init proc = { proc with parent := (reparent p init proc).parent } := by
  rw [reparent]
  split
  · rfl
  · rfl

theorem exit_rule {V D : Machine N → Prop} {Q : Unit → Machine N → Prop} (hpanic : E .panic s)
    (hclose : Triple (· = s) (closeFiles p (List.finRange nOfile)) (fun _ ↦ V) E)
    (hdelete : ∀ v, V v → Triple (· = v) (deleteMmaps p) (fun _ ↦ D) E)
    (hlast : ∀ w t, D w → Ended p w t → Q () t) : Triple (· = s) (exit p) Q E := by
  refine .get_at ?_
  split
  · refine .halt ?_
    rintro t rfl
    exact hpanic
  · refine .bind hclose fun _ ↦ .bind (.of_forall hdelete) fun _ ↦ .modify_bind fun w hw ↦ ?_
    refine .modify_at ?_
    refine hlast w _ hw ⟨fun q hq ↦ ?_, ?_, rfl⟩
    · simp only [update_of_ne hq]
      exact reparent_eq p w.initproc _
    · simp only [update_self]
      rw [reparent_eq p w.initproc (w.procs p)]

end Kernel

end Xv6Mmap
