import Mathlib.Logic.Nontrivial.Basic
import Xv6Mmap.Library.Prog

/-!
# The requests of a program

A program that gets its input through a parameter `fetch` is a function of it.  Where it asks for
input number `j` is seen by cutting the parameter short there: it asks for `j` in state `t` if it
halts in `t` for whatever reason the cut gives.  Only requests made in a busy state count.

`Scans` is a judgment on such a program and the state it starts from: it asks for the inputs of a
range, each at most once, and it halts for reason `d` if and only if one of its requests does.
-/

namespace Xv6Mmap.Library.Prog

variable {ε σ α β γ : Type} (busy : σ → Bool)

/-- The parameter `fetch`, except that it halts with `e` at `j` in a busy state. -/
def cut (fetch : ℕ → Prog ε σ γ) (j : ℕ) (e : ε) (k : ℕ) : Prog ε σ γ := do
  let s ← get
  if k = j ∧ busy s = true then halt e else fetch k

/-- Started in `s`, the program asks for `j` in the busy state `t`. -/
def Asks (c : (ℕ → Prog ε σ γ) → Prog ε σ α) (fetch : ℕ → Prog ε σ γ) (j : ℕ) (s t : σ) : Prop :=
  ∀ e, c (cut busy fetch j e) s = (.error e, t)

/-- The program asks for inputs from `lo` on and below `hi`, and halts with `d` if and only if a
request does. -/
structure Scans (fetch : ℕ → Prog ε σ γ) (d : ε) (lo hi : ℕ)
    (c : (ℕ → Prog ε σ γ) → Prog ε σ α) (s : σ) : Prop where
  asks : ∀ j, (lo ≤ j ∧ j < hi ∧ ∃ t, Asks busy c fetch j s t) ∨
    ∀ e, c (cut busy fetch j e) s = c fetch s
  halts : (c fetch s).1 = .error d → ∃ j t, Asks busy c fetch j s t ∧ (fetch j t).1 = .error d
  back : ∀ j t, Asks busy c fetch j s t → (fetch j t).1 = .error d → (c fetch s).1 = .error d

variable {busy} {fetch : ℕ → Prog ε σ γ} {d e : ε} {lo mid hi j k : ℕ} {s t : σ}
  {c c' : (ℕ → Prog ε σ γ) → Prog ε σ α} {f : α → (ℕ → Prog ε σ γ) → Prog ε σ β}

theorem cut_self (h : busy s = true) : cut busy fetch j e j s = (.error e, s) := by
  rw [cut, bind_of_ok (get_apply s), if_pos ⟨rfl, h⟩]
  rfl

theorem cut_of_ne (h : k ≠ j) : cut busy fetch j e k s = fetch k s := by
  rw [cut, bind_of_ok (get_apply s), if_neg fun hboth ↦ h hboth.1]

theorem cut_of_idle (h : busy s = false) : cut busy fetch j e k s = fetch k s := by
  rw [cut, bind_of_ok (get_apply s), if_neg]
  rintro ⟨-, hbusy⟩
  rw [h] at hbusy
  cases hbusy

/-- What fetching an input keeps, the cut parameter keeps too. -/
theorem respects_cut {F : Frame σ} (h : Respects F (fetch k)) (j : ℕ) (e : ε) :
    Respects F (cut busy fetch j e k) := by
  refine .get_bind fun s ↦ ?_
  split
  · exact .halt e
  · exact h

namespace Scans

/-- **A program halts with `d` if and only if one of its requests does.** -/
theorem halts_iff (h : Scans busy fetch d lo hi c s) :
    (c fetch s).1 = .error d ↔ ∃ j t, Asks busy c fetch j s t ∧ (fetch j t).1 = .error d :=
  ⟨h.halts, fun ⟨j, t, hasks, hhalts⟩ ↦ h.back j t hasks hhalts⟩

/-- The judgment is about the runs from one state. -/
theorem congr (h : Scans busy fetch d lo hi c' s) (heq : ∀ f, c f s = c' f s) :
    Scans busy fetch d lo hi c s := by
  have hasks (j : ℕ) (t : σ) : Asks busy c fetch j s t ↔ Asks busy c' fetch j s t :=
    forall_congr' fun _ ↦ by rw [heq]
  refine ⟨fun j ↦ ?_, fun hhalts ↦ ?_, fun j t hj hhalts ↦ ?_⟩
  · simp only [heq, hasks]
    exact h.asks j
  · simp only [hasks]
    exact h.halts (heq fetch ▸ hhalts)
  · rw [heq]
    exact h.back j t ((hasks j t).mp hj) hhalts

theorem mono {lo' hi' : ℕ} (h : Scans busy fetch d lo hi c s) (hlo : lo' ≤ lo) (hhi : hi ≤ hi') :
    Scans busy fetch d lo' hi' c s where
  asks j := (h.asks j).imp_left fun ⟨hfrom, hbelow, hasks⟩ ↦
    ⟨Nat.le_trans hlo hfrom, Nat.lt_of_lt_of_le hbelow hhi, hasks⟩
  halts := h.halts
  back := h.back

/-- A request in a busy state. -/
theorem request (h : busy s = true) : Scans busy fetch d k (k + 1) (fun f ↦ f k) s where
  asks j := by
    by_cases hjk : j = k
    · subst hjk
      exact .inl ⟨Nat.le_refl j, Nat.lt_succ_self j, s, fun _ ↦ cut_self h⟩
    · exact .inr fun _ ↦ cut_of_ne fun hkj ↦ hjk hkj.symm
  halts hhalts := ⟨k, s, fun _ ↦ cut_self h, hhalts⟩
  back j t hasks hhalts := by
    by_cases hjk : j = k
    · subst hjk
      obtain rfl : s = t := congrArg Prod.snd ((cut_self h).symm.trans (hasks d))
      exact hhalts
    · have hsame := (cut_of_ne fun hkj ↦ hjk hkj.symm).symm.trans (hasks d)
      exact congrArg Prod.fst hsame

/-- A request of the first part of a sequence is one of the sequence. -/
theorem asks_bind (h : Asks busy c fetch j s t) :
    Asks busy (fun g ↦ c g >>= fun a ↦ f a g) fetch j s t := by
  intro e
  dsimp only
  rw [bind_apply, h e]

section Nontrivial

variable [Nontrivial ε]

/-- A run that does not depend on the cut is not cut. -/
theorem not_asks (h : ∀ e, c (cut busy fetch j e) s = c fetch s) :
    ¬ Asks busy c fetch j s t := by
  intro hasks
  obtain ⟨e, e', hne⟩ := exists_pair_ne ε
  have hsame := ((hasks e).symm.trans (h e)).trans ((h e').symm.trans (hasks e'))
  exact hne (Except.error.inj (congrArg Prod.fst hsame))

/-- A program without requests that does not halt with `d`. -/
theorem quiet (hsame : ∀ j e, c (cut busy fetch j e) s = c fetch s)
    (hd : (c fetch s).1 ≠ .error d) : Scans busy fetch d lo hi c s where
  asks j := .inr (hsame j)
  halts hhalts := absurd hhalts hd
  back j _ hasks := absurd hasks (not_asks (hsame j))

theorem const {p : Prog ε σ α} (hd : (p s).1 ≠ .error d) :
    Scans busy fetch d lo hi (fun _ ↦ p) s :=
  quiet (fun _ _ ↦ rfl) hd

protected theorem pure (a : α) : Scans busy fetch d lo hi (fun _ ↦ pure a) s := const nofun

/-- A request of a sequence is the one of its first part, if that has one. -/
theorem eq_of_asks_bind {u : σ} (h : Asks busy c fetch j s u)
    (hasks : Asks busy (fun g ↦ c g >>= fun a ↦ f a g) fetch j s t) : u = t := by
  obtain ⟨e, -⟩ := exists_pair_ne ε
  exact congrArg Prod.snd ((asks_bind h e).symm.trans (hasks e))

/-- A sequence whose first part halts. -/
theorem bind_of_halted {u : σ} (hc : Scans busy fetch d lo hi c s) (hrun : c fetch s = (.error e, u)) :
    Scans busy fetch d lo hi (fun g ↦ c g >>= fun a ↦ f a g) s := by
  have hwhole : (c fetch >>= fun a ↦ f a fetch) s = (.error e, u) := by rw [bind_apply, hrun]
  have hsame {j : ℕ} (h : ∀ e, c (cut busy fetch j e) s = c fetch s) (e' : ε) :
      (c (cut busy fetch j e') >>= fun a ↦ f a (cut busy fetch j e')) s =
        (c fetch >>= fun a ↦ f a fetch) s := by
    rw [hwhole, bind_apply, h e', hrun]
  refine ⟨fun j ↦ ?_, fun hhalts ↦ ?_, fun j t hasks hhalts ↦ ?_⟩
  · rcases hc.asks j with ⟨hfrom, hbelow, t, hj⟩ | h
    · exact .inl ⟨hfrom, hbelow, t, asks_bind hj⟩
    · exact .inr (hsame h)
  · rw [hwhole] at hhalts
    obtain rfl : e = d := Except.error.inj hhalts
    obtain ⟨j, t, hj, hdone⟩ := hc.halts (by rw [hrun])
    exact ⟨j, t, asks_bind hj, hdone⟩
  · rcases hc.asks j with ⟨-, -, v, hj⟩ | h
    · obtain rfl := eq_of_asks_bind hj hasks
      have hback := hc.back j v hj hhalts
      rw [hrun] at hback
      rw [hwhole, Except.error.inj hback]
    · exact absurd hasks (not_asks (hsame h))

/-- A sequence whose first part returns. -/
theorem bind_of_returned {a : α} {u : σ} (hc : Scans busy fetch d lo mid c s)
    (hrun : c fetch s = (.ok a, u)) (hrest : Scans busy fetch d mid hi (f a) u)
    (hlo : lo ≤ mid) (hhi : mid ≤ hi) :
    Scans busy fetch d lo hi (fun g ↦ c g >>= fun a ↦ f a g) s := by
  have hwhole : (c fetch >>= fun a ↦ f a fetch) s = f a fetch u := bind_of_ok hrun
  have hcut {j : ℕ} (h : ∀ e, c (cut busy fetch j e) s = c fetch s) (e : ε) :
      (c (cut busy fetch j e) >>= fun a ↦ f a (cut busy fetch j e)) s =
        f a (cut busy fetch j e) u := by
    rw [bind_of_ok ((h e).trans hrun)]
  -- what the second part asks for, the first does not
  have hapart {j : ℕ} {t : σ} (hj : Asks busy (f a) fetch j u t) :
      ∀ e, c (cut busy fetch j e) s = c fetch s := by
    rcases hc.asks j with ⟨-, hbelow, -⟩ | h
    · rcases hrest.asks j with ⟨hfrom, -⟩ | h
      · exact absurd hbelow (Nat.not_lt.mpr hfrom)
      · exact absurd hj (not_asks h)
    · exact h
  refine ⟨fun j ↦ ?_, fun hhalts ↦ ?_, fun j t hasks hhalts ↦ ?_⟩
  · rcases hc.asks j with ⟨hfrom, hbelow, t, hj⟩ | h
    · exact .inl ⟨hfrom, Nat.lt_of_lt_of_le hbelow hhi, t, asks_bind hj⟩
    · rcases hrest.asks j with ⟨hfrom, hbelow, t, hj⟩ | h'
      · exact .inl ⟨Nat.le_trans hlo hfrom, hbelow, t, fun e ↦ (hcut h e).trans (hj e)⟩
      · exact .inr fun e ↦ (hcut h e).trans ((h' e).trans hwhole.symm)
  · rw [hwhole] at hhalts
    obtain ⟨j, t, hj, hdone⟩ := hrest.halts hhalts
    exact ⟨j, t, fun e ↦ (hcut (hapart hj) e).trans (hj e), hdone⟩
  · rw [hwhole]
    rcases hc.asks j with ⟨-, -, v, hj⟩ | h
    · obtain rfl := eq_of_asks_bind hj hasks
      have hback := hc.back j v hj hhalts
      rw [hrun] at hback
      cases hback
    · exact hrest.back j t (fun e ↦ (hcut h e).symm.trans (hasks e)) hhalts

/-- **A sequence**: the second part asks for inputs behind those of the first. -/
theorem bind (hc : Scans busy fetch d lo mid c s)
    (hf : ∀ a t, c fetch s = (.ok a, t) → Scans busy fetch d mid hi (f a) t)
    (hlo : lo ≤ mid) (hhi : mid ≤ hi) :
    Scans busy fetch d lo hi (fun g ↦ c g >>= fun a ↦ f a g) s := by
  rcases hrun : c fetch s with ⟨outcome, u⟩
  cases outcome with
  | ok a => exact hc.bind_of_returned hrun (hf a u hrun) hlo hhi
  | error e => exact (hc.bind_of_halted hrun).mono (Nat.le_refl lo) hhi

/-- A step without requests that returns. -/
theorem step {p : Prog ε σ α} {a : α} (hp : p s = (.ok a, t)) (h : Scans busy fetch d lo hi (f a) t)
    (hle : lo ≤ hi) : Scans busy fetch d lo hi (fun g ↦ p >>= fun a ↦ f a g) s := by
  have hconst : Scans busy fetch d lo lo (fun _ ↦ p) s := .const (by rw [hp]; exact nofun)
  exact hconst.bind_of_returned hp h (Nat.le_refl lo) hle

end Nontrivial

end Scans

end Xv6Mmap.Library.Prog
