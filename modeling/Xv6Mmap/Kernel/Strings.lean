import Xv6Mmap.Kernel.Word

/-!
# `strncmp` and `strncpy`

A C string is given by the bytes from its address on.  Two strings are the same to `strncmp` if and
only if `strncpy` makes the same bytes of them.
-/

namespace Xv6Mmap

/-- The comparison stops at a difference, at the end of `p`, or after `n` bytes. -/
def strncmp (p q : ℕ → Byte) : ℕ → ℤ
  | 0 => 0
  | n + 1 =>
    if p 0 ≠ 0 ∧ p 0 = q 0 then strncmp (fun k ↦ p (k + 1)) (fun k ↦ q (k + 1)) n
    else (p 0).toNat - (q 0).toNat

/-- The bytes that `strncpy` writes: those of the string up to its end, and zeros behind. -/
def strncpy (t : ℕ → Byte) : ℕ → List Byte
  | 0 => []
  | n + 1 => if t 0 = 0 then List.replicate (n + 1) 0 else t 0 :: strncpy (fun k ↦ t (k + 1)) n

variable {p q : ℕ → Byte} {n : ℕ}

/-- Only the first `n` bytes count. -/
theorem strncpy_congr (h : ∀ k < n, p k = q k) : strncpy p n = strncpy q n := by
  induction n generalizing p q with
  | zero => rfl
  | succ n ih =>
    have hrest := ih fun k hk ↦ h (k + 1) (Nat.succ_lt_succ hk)
    unfold strncpy
    rw [h 0 (Nat.succ_pos n), hrest]

/-- The first byte of the copy is that of the string. -/
theorem head_strncpy (t : ℕ → Byte) (n : ℕ) : (strncpy t (n + 1)).head? = some (t 0) := by
  unfold strncpy
  split
  · rename_i hend
    rw [List.replicate_succ, List.head?_cons, hend]
  · rfl

theorem strncmp_eq_zero : strncmp p q n = 0 ↔ strncpy p n = strncpy q n := by
  induction n generalizing p q with
  | zero => exact iff_of_true rfl rfl
  | succ n ih =>
    by_cases hsame : p 0 = q 0
    · unfold strncmp strncpy
      by_cases hend : p 0 = 0
      · rw [if_neg fun hh ↦ hh.1 hend, if_pos hend, if_pos (hsame ▸ hend), hsame]
        exact iff_of_true (Int.sub_self _) rfl
      · rw [if_pos ⟨hend, hsame⟩, if_neg hend, if_neg (hsame ▸ hend), ih, hsame,
          List.cons_inj_right]
    · have hcmp : strncmp p q (n + 1) = (p 0).toNat - (q 0).toNat := if_neg fun hh ↦ hsame hh.2
      have hne : (p 0).toNat ≠ (q 0).toNat := fun heq ↦ hsame (BitVec.eq_of_toNat_eq heq)
      refine iff_of_false ?_ ?_
      · rw [hcmp]
        omega
      · intro heq
        have hhead := congrArg List.head? heq
        rw [head_strncpy, head_strncpy] at hhead
        exact hsame (Option.some.inj hhead)

/-- A copy has the name that was copied. -/
theorem strncpy_getD (t : ℕ → Byte) (n : ℕ) :
    strncpy (fun k ↦ (strncpy t n).getD k 0) n = strncpy t n := by
  induction n generalizing t with
  | zero => rfl
  | succ n ih =>
    by_cases hend : t 0 = 0
    · have hzeros : strncpy t (n + 1) = List.replicate (n + 1) 0 := if_pos hend
      rw [hzeros]
      exact if_pos rfl
    · have hcons : strncpy t (n + 1) = t 0 :: strncpy (fun k ↦ t (k + 1)) n := if_neg hend
      rw [hcons]
      exact (if_neg hend).trans (congrArg _ (ih _))

end Xv6Mmap
