import Mathlib.Order.Basic

/-!
# Sequential programs over a state that may halt

A program of type `Prog ε σ α` reads and changes a state `σ` and either returns a value of `α` or
halts with a reason `ε`; the state it leaves behind is known in both cases.  A `Frame` is a preorder
on states, and `Respects F c` says that every run of `c` ends in a state that `F` relates to the one
it started in: keeping an invariant and leaving a component alone are both of this form.  `Triple`
is the general judgment, with a postcondition for runs that return and one for runs that halt.
-/

namespace Xv6Mmap.Library

/-- A program over `σ` that returns an `α` or halts with an `ε`. -/
def Prog (ε σ α : Type) := σ → Except ε α × σ

/-- A preorder on states, as what a program may do to them. -/
structure Frame (σ : Type) where
  rel : σ → σ → Prop
  refl : ∀ s, rel s s
  trans : ∀ {s t u}, rel s t → rel t u → rel s u

namespace Frame

variable {σ τ : Type}

/-- Keeping an invariant. -/
def ofInvariant (I : σ → Prop) : Frame σ where
  rel s t := I s → I t
  refl _ := id
  trans hst htu := htu ∘ hst

/-- Leaving a component alone. -/
def ofEq (component : σ → τ) : Frame σ where
  rel s t := component t = component s
  refl _ := rfl
  trans hst htu := htu.trans hst

end Frame

namespace Prog

variable {ε σ α β : Type} {c : Prog ε σ α} {f : α → Prog ε σ β} {s : σ} {e : ε}

instance : Monad (Prog ε σ) where
  pure a := fun s ↦ (.ok a, s)
  bind c f := fun s ↦
    match c s with
    | (.ok a, s') => f a s'
    | (.error e, s') => (.error e, s')

/-- Read the state. -/
def get : Prog ε σ σ := fun s ↦ (.ok s, s)

def modify (f : σ → σ) : Prog ε σ Unit := fun s ↦ (.ok (), f s)

def halt (e : ε) : Prog ε σ α := fun s ↦ (.error e, s)

@[simp]
theorem pure_apply (a : α) (s : σ) : (pure a : Prog ε σ α) s = (.ok a, s) := rfl

@[simp]
theorem get_apply (s : σ) : (get : Prog ε σ σ) s = (.ok s, s) := rfl

@[simp]
theorem modify_apply (f : σ → σ) (s : σ) : (modify f : Prog ε σ Unit) s = (.ok (), f s) := rfl

theorem bind_apply (c : Prog ε σ α) (f : α → Prog ε σ β) (s : σ) :
    (c >>= f) s = match c s with
      | (.ok a, s') => f a s'
      | (.error e, s') => (.error e, s') := rfl

theorem bind_of_ok {t : σ} {a : α} (h : c s = (.ok a, t)) : (c >>= f) s = f a t := by
  rw [bind_apply, h]

theorem bind_of_eq {c' : Prog ε σ α} (h : c s = c' s) :
    (c >>= f) s = (c' >>= f) s := by
  rw [bind_apply, h, ← bind_apply]

/-- A sequence whose first part halts halts for the same reason. -/
theorem bind_error (h : (c s).1 = .error e) :
    ((c >>= f) s).1 = .error e := by grind [bind_apply]

/-- A run of a sequence that returns splits into a run of its first part that returns and a run of
the rest from there. -/
theorem bind_eq_ok {s' : σ} {b : β}
    (h : (c >>= f) s = (.ok b, s')) : ∃ a t, c s = (.ok a, t) ∧ f a t = (.ok b, s') := by
  rw [bind_apply] at h
  rcases hrun : c s with ⟨outcome, t⟩
  rw [hrun] at h
  cases outcome with
  | ok a => exact ⟨a, t, rfl, h⟩
  | error e => cases h

theorem eq_ok_of_toBool {c : Prog ε σ Unit} (h : (c s).1.toBool = true) :
    c s = (.ok (), (c s).2) := by
  rcases hrun : c s with ⟨outcome, t⟩
  rw [hrun] at h
  cases outcome with
  | ok _ => rfl
  | error _ => cases h

theorem bind_assoc_prog {γ : Type} (c : Prog ε σ α) (f : α → Prog ε σ β) (g : β → Prog ε σ γ) :
    (c >>= f) >>= g = c >>= fun a ↦ f a >>= g := by
  funext s
  rw [bind_apply, bind_apply, bind_apply]
  rcases c s with ⟨outcome, s'⟩
  cases outcome with
  | ok a | error e => rfl

/-! ## Programs that respect a frame -/

/-- Every run of `c`, returning or halting, ends in a state related to the one it started in. -/
def Respects (F : Frame σ) (c : Prog ε σ α) : Prop := ∀ s, F.rel s (c s).2

variable {F : Frame σ}

protected theorem Respects.pure (a : α) : Respects F (pure a : Prog ε σ α) := F.refl

protected theorem Respects.get : Respects F (get : Prog ε σ σ) := F.refl

protected theorem Respects.halt (e : ε) : Respects F (halt e : Prog ε σ α) := F.refl

protected theorem Respects.modify {f : σ → σ} (h : ∀ s, F.rel s (f s)) :
    Respects F (modify f : Prog ε σ Unit) := h

theorem rel_bind (hc : F.rel s (c s).2) (hf : ∀ a, Respects F (f a)) : F.rel s ((c >>= f) s).2 := by
  rw [bind_apply]
  rcases hrun : c s with ⟨outcome, s'⟩
  rw [hrun] at hc
  cases outcome with
  | ok a => exact F.trans hc (hf a s')
  | error e => exact hc

theorem Respects.bind (hc : Respects F c) (hf : ∀ a, Respects F (f a)) : Respects F (c >>= f) :=
  fun s ↦ rel_bind (hc s) hf

theorem Respects.get_bind {f : σ → Prog ε σ α} (hf : ∀ s, Respects F (f s)) :
    Respects F (Prog.get >>= f) := Respects.get.bind hf

theorem Respects.bind_pure (hc : Respects F c) (g : α → β) : Respects F (c >>= fun a ↦ pure (g a)) :=
  hc.bind fun a ↦ .pure (g a)

theorem respects_ite_pure {P : Prop} [Decidable P] {a b : α} :
    Respects F (if P then pure a else pure b : Prog ε σ α) := by
  split
  · exact .pure a
  · exact .pure b

theorem Respects.of_eq (h : Respects F c) {s' : σ} {outcome : Except ε α}
    (hrun : c s = (outcome, s')) : F.rel s s' := by
  have hrel := h s
  rw [hrun] at hrel
  exact hrel

/-! ## Pre- and postconditions -/

/-- From a state that meets `P`, a run that returns `a` ends in a state that meets `Q a`, and one
that halts with `e` in a state that meets `E e`. -/
def Triple (P : σ → Prop) (c : Prog ε σ α) (Q : α → σ → Prop) (E : ε → σ → Prop) : Prop :=
  ∀ s, P s → match c s with
    | (.ok a, s') => Q a s'
    | (.error e, s') => E e s'

/-- Every run of `c` keeps `I`, whether it returns or halts. -/
abbrev Keeps (I : σ → Prop) (c : Prog ε σ α) : Prop := Triple I c (fun _ ↦ I) fun _ ↦ I

namespace Triple

variable {P P' : σ → Prop} {c : Prog ε σ α} {Q Q' : α → σ → Prop} {R : β → σ → Prop}
  {E E' : ε → σ → Prop}

theorem bind (hc : Triple P c Q E) (hf : ∀ a, Triple (Q a) (f a) R E) :
    Triple P (c >>= f) R E := by
  intro s hs
  have hfirst := hc s hs
  rw [bind_apply]
  rcases hrun : c s with ⟨outcome, s'⟩
  rw [hrun] at hfirst
  cases outcome with
  | ok a => exact hf a s' hfirst
  | error e => exact hfirst

theorem pure {a : α} (h : ∀ s, P s → Q a s) : Triple P (Pure.pure a) Q E := h

/-- Returning from a state that is known. -/
theorem pure_at {a : α} (h : Q a s) : Triple (· = s) (Pure.pure a) Q E :=
  pure fun _ ht ↦ ht ▸ h

theorem halt (h : ∀ s, P s → E e s) : Triple P (.halt e) Q E := h

theorem modify {f : σ → σ} {Q : Unit → σ → Prop} (h : ∀ s, P s → Q () (f s)) :
    Triple P (.modify f) Q E := h

theorem modify_at {f : σ → σ} {Q : Unit → σ → Prop} (h : Q () (f s)) :
    Triple (· = s) (.modify f) Q E :=
  modify fun _ ht ↦ ht ▸ h

/-- Reading the state: the rest may use the state that was read. -/
theorem get_bind {f : σ → Prog ε σ β} (h : ∀ s, P s → Triple (· = s) (f s) R E) :
    Triple P (.get >>= f) R E :=
  fun s hs ↦ h s hs s rfl

/-- Reading a state that is known. -/
theorem get_at {f : σ → Prog ε σ β} (h : Triple (· = s) (f s) R E) :
    Triple (· = s) (.get >>= f) R E :=
  get_bind fun _ ht ↦ ht ▸ h

/-- Writing the state: the rest starts in the state that was written. -/
theorem modify_bind {f : σ → σ} {k : Unit → Prog ε σ β}
    (h : ∀ s, P s → Triple (fun t ↦ t = f s) (k ()) R E) : Triple P (.modify f >>= k) R E :=
  fun s hs ↦ h s hs (f s) rfl

theorem of_runs (hQ : ∀ s a t, P s → c s = (.ok a, t) → Q a t)
    (hE : ∀ s e t, P s → c s = (.error e, t) → E e t) : Triple P c Q E := by
  intro s hs
  rcases hc : c s with ⟨outcome, t⟩
  cases outcome with
  | ok a => exact hQ s a t hs hc
  | error e => exact hE s e t hs hc

theorem returned (h : Triple P c Q E) {t : σ} {a : α} (hs : P s) (hrun : c s = (.ok a, t)) :
    Q a t := by
  have hpost := h s hs
  rwa [hrun] at hpost

theorem halted (h : Triple P c Q E) {t : σ} (hs : P s) (hrun : c s = (.error e, t)) :
    E e t := by
  have hpost := h s hs
  rwa [hrun] at hpost

theorem weaken (h : Triple P' c Q' E') (hP : ∀ s, P s → P' s) (hQ : ∀ a s, Q' a s → Q a s)
    (hE : ∀ e s, E' e s → E e s) : Triple P c Q E :=
  of_runs (fun s a t hs hrun ↦ hQ a t (h.returned (hP s hs) hrun))
    fun s e t hs hrun ↦ hE e t (h.halted (hP s hs) hrun)

theorem post (h : Triple P c Q' E') (hQ : ∀ a s, Q' a s → Q a s) (hE : ∀ e s, E' e s → E e s) :
    Triple P c Q E :=
  h.weaken (fun _ ↦ id) hQ hE

/-- A sequence whose first part is known to halt in a narrower way. -/
theorem seq (hc : Triple P c Q E') (hE : ∀ e s, E' e s → E e s)
    (hf : ∀ a, Triple (Q a) (f a) R E) : Triple P (c >>= f) R E :=
  bind (hc.post (fun _ _ ↦ id) hE) hf

/-- A run meets what is known of it. -/
theorem ran (s : σ) :
    Triple (· = s) c (fun a t ↦ c s = (.ok a, t)) fun e t ↦ c s = (.error e, t) :=
  of_runs (fun _ _ _ hs hrun ↦ hs ▸ hrun) fun _ _ _ hs hrun ↦ hs ▸ hrun

/-- Every run meets the trivial postconditions. -/
theorem trivial : Triple P c (fun _ _ ↦ True) fun _ _ ↦ True :=
  of_runs (fun _ _ _ _ _ ↦ .intro) fun _ _ _ _ _ ↦ .intro

/-- A run that is known to halt. -/
theorem of_error (h : (c s).1 = .error e) :
    Triple (· = s) c Q fun e' _ ↦ e' = e := by
  refine (ran s).post (fun a t hrun ↦ ?_) fun e' t hrun ↦ ?_
  · rw [hrun] at h
    cases h
  · rw [hrun] at h
    exact Except.error.inj h

/-- A precondition may be split off as a hypothesis about the starting state. -/
theorem of_forall (h : ∀ s, P s → Triple (· = s) c Q E) : Triple P c Q E :=
  fun s hs ↦ h s hs s rfl

theorem pre (h : Triple P' c Q E) (hP : ∀ s, P s → P' s) : Triple P c Q E :=
  h.weaken hP (fun _ _ ↦ id) fun _ _ ↦ id

/-- The judgment at a state that is known to meet the precondition. -/
theorem at_state (h : Triple P c Q E) (hs : P s) : Triple (· = s) c Q E := by
  rintro t rfl
  exact h t hs

/-- Two judgments about one program hold together. -/
theorem and (h : Triple P c Q E) (h' : Triple P' c Q' E') :
    Triple (fun s ↦ P s ∧ P' s) c (fun a s ↦ Q a s ∧ Q' a s) fun e s ↦ E e s ∧ E' e s :=
  of_runs (fun _ _ _ hs hrun ↦ ⟨h.returned hs.1 hrun, h'.returned hs.2 hrun⟩)
    fun _ _ _ hs hrun ↦ ⟨h.halted hs.1 hrun, h'.halted hs.2 hrun⟩

theorem both (h : Triple P c Q E) (h' : Triple P c Q' E') :
    Triple P c (fun a s ↦ Q a s ∧ Q' a s) fun e s ↦ E e s ∧ E' e s :=
  (h.and h').pre fun _ hs ↦ ⟨hs, hs⟩

/-- A program that respects the frame of an invariant keeps it. -/
theorem of_respects {I : σ → Prop} (h : Respects (.ofInvariant I) c) : Keeps I c :=
  of_runs (fun _ _ _ hs hrun ↦ h.of_eq hrun hs) fun _ _ _ hs hrun ↦ h.of_eq hrun hs

/-- What a program leaves alone may be carried along. -/
theorem carry {C : σ → Prop} (h : Triple P c Q E) (hC : Respects (.ofInvariant C) c) :
    Triple (fun s ↦ P s ∧ C s) c (fun a s ↦ Q a s ∧ C s) fun e s ↦ E e s ∧ C s :=
  h.and (of_respects hC)

/-- A program that respects a frame stays in what is related to an earlier state. -/
theorem since {F : Frame σ} (h : Respects F c) (s : σ) : Keeps (F.rel s) c :=
  of_respects fun t ht ↦ F.trans ht (h t)

/-- From a known state, a program that respects a frame ends in a related one. -/
theorem of_frame {F : Frame σ} (h : Respects F c) (s : σ) :
    Triple (· = s) c (fun _ t ↦ F.rel s t) fun _ t ↦ F.rel s t :=
  (since h s).at_state (F.refl s)

theorem respects {I : σ → Prop} (h : Keeps I c) : Respects (.ofInvariant I) c := by
  intro s hs
  have hrun := h s hs
  rcases hc : c s with ⟨outcome, s'⟩
  rw [hc] at hrun
  cases outcome with
  | ok a | error e => exact hrun

end Triple

end Prog

end Xv6Mmap.Library
