import Mathlib.Data.BitVec

/-!
# Block writes to a memory

A memory is a function on addresses of `w` bits.  `blit` overwrites the `n` cells from an address on,
around the end of the address space if it comes to that.
-/

namespace Xv6Mmap.Library.Memory

open BitVec

variable {w : ℕ} {β : Type*}

def blit (mem : BitVec w → β) (dst : BitVec w) (n : ℕ) (cells : ℕ → β) : BitVec w → β :=
  fun a ↦ if (a - dst).toNat < n then cells (a - dst).toNat else mem a

variable {mem : BitVec w → β} {a dst : BitVec w} {n : ℕ} {cells : ℕ → β}

theorem blit_of_le (h : n ≤ (a - dst).toNat) : blit mem dst n cells a = mem a :=
  if_neg (not_lt.mpr h)

theorem blit_of_lt (h : (a - dst).toNat < n) : blit mem dst n cells a = cells (a - dst).toNat :=
  if_pos h

@[simp]
theorem blit_zero (mem : BitVec w → β) (dst : BitVec w) (cells : ℕ → β) :
    blit mem dst 0 cells = mem := by
  funext a
  exact blit_of_le (Nat.zero_le _)

/-- The distance from `dst` of the address `k` cells behind it. -/
theorem toNat_offset {k : ℕ} (hk : k < 2 ^ w) (dst : BitVec w) :
    (dst + .ofNat w k - dst).toNat = k := by
  rw [BitVec.add_comm, BitVec.add_sub_cancel, toNat_ofNat, Nat.mod_eq_of_lt hk]

theorem blit_offset {k : ℕ} (hk : k < n) (hn : n ≤ 2 ^ w) :
    blit mem dst n cells (dst + .ofNat w k) = cells k := by
  have hoffset := toNat_offset (hk.trans_le hn) dst
  rw [blit_of_lt (hoffset.trans_lt hk), hoffset]

theorem blit_congr {cells' : ℕ → β} (h : ∀ k < n, cells k = cells' k) :
    blit mem dst n cells = blit mem dst n cells' := by grind [blit_of_lt, blit_of_le]

/-- Going on `m` cells further. -/
theorem toNat_sub_offset {m : ℕ} (hm : m < 2 ^ w) (a dst : BitVec w) :
    (a - (dst + .ofNat w m)).toNat =
      if m ≤ (a - dst).toNat then (a - dst).toNat - m else 2 ^ w + (a - dst).toNat - m := by
  have hlt := (a - dst).isLt
  rw [← BitVec.sub_sub, toNat_sub, toNat_ofNat, Nat.mod_eq_of_lt hm]
  split
  · rw [show 2 ^ w - m + (a - dst).toNat = (a - dst).toNat - m + 2 ^ w by omega,
      Nat.add_mod_right, Nat.mod_eq_of_lt (by omega)]
  · rw [Nat.mod_eq_of_lt (by omega)]
    omega

/-- Two block writes, one right behind the other. -/
theorem blit_append {m : ℕ} (hmn : m + n ≤ 2 ^ w) (hm : m < 2 ^ w) (cells' : ℕ → β) :
    blit (blit mem dst m cells) (dst + .ofNat w m) n cells' =
      blit mem dst (m + n) fun k ↦ if k < m then cells k else cells' (k - m) := by
  funext a
  have hsub := toNat_sub_offset hm a dst
  rcases lt_or_ge (a - dst).toNat m with hlt | hge
  · rw [if_neg (not_le.mpr hlt)] at hsub
    rw [blit_of_le (by omega), blit_of_lt hlt, blit_of_lt (by omega), if_pos hlt]
  · grind [blit_of_lt, blit_of_le]

end Xv6Mmap.Library.Memory
