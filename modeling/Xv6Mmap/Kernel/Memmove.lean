import Xv6Mmap.Kernel.Word
import Xv6Mmap.Library.Memory

/-!
# The two `memmove`s (`string.c`, `ulib.c`)

The kernel's `memmove` copies backwards if the destination starts inside the source, and is a block
copy.  The user library's always copies forwards: where the destination starts `k` bytes inside the
source, it repeats the first `k` bytes.
-/

namespace Xv6Mmap

open Function Library.Memory BitVec

/-! ## The model -/

/-- `while(n-- > 0) *d++ = *s++;` -/
def copyForward (d s : Word) : ℕ → (Word → Byte) → Word → Byte
  | 0, mem => mem
  | n + 1, mem => copyForward (d + 1) (s + 1) n (update mem d (mem s))

/-- `while(n-- > 0) *--d = *--s;` -/
def copyBackward (d s : Word) : ℕ → (Word → Byte) → Word → Byte
  | 0, mem => mem
  | n + 1, mem => copyBackward (d - 1) (s - 1) n (update mem (d - 1) (mem (s - 1)))

namespace Kernel

/-- `memmove` of `string.c` -/
def memmoveBytes (dst src n : Word) (mem : Word → Byte) : Word → Byte :=
  if src < dst && dst < src + n then copyBackward (dst + n) (src + n) n.toNat mem
  else copyForward dst src n.toNat mem

end Kernel

namespace User

/-- `memmove` of `ulib.c`; `n` is an `int`. -/
def memmove (dst src n : Word) (mem : Word → Byte) : Word → Byte :=
  copyForward dst src n.count mem

end User

/-! ## The loops as block writes -/

section Loops

variable {mem : Word → Byte} {dst src : Word} {n : ℕ}

theorem add_ofNat_succ (a : Word) (n : ℕ) :
    a + BitVec.ofNat 32 (n + 1) = a + 1 + BitVec.ofNat 32 n := by
  rw [ofNat_add, BitVec.add_assoc, BitVec.add_comm (BitVec.ofNat 32 n)]
  rfl

/-- One more byte behind a block. -/
theorem update_blit (hn : n < 2 ^ 32) (cells : ℕ → Byte) :
    update (blit mem dst n cells) (dst + BitVec.ofNat 32 n) (cells n) =
      blit mem dst (n + 1) cells := by
  funext a
  have hat : a = dst + BitVec.ofNat 32 n ↔ (a - dst).toNat = n := by
    constructor
    · rintro rfl
      exact toNat_offset hn dst
    · intro h
      rw [← h, ofNat_toNat, setWidth_eq, BitVec.add_comm, BitVec.sub_add_cancel]
  rw [update_apply]
  split
  · rename_i heq
    rw [hat] at heq
    rw [blit_of_lt (by omega), heq]
  · rename_i hne
    rw [hat] at hne
    rcases Nat.lt_or_ge (a - dst).toNat n with hin | hout
    · rw [blit_of_lt hin, blit_of_lt (by omega)]
    · rw [blit_of_le hout, blit_of_le (by omega)]

/-- The last byte of a forward copy is read when the others have been written. -/
theorem copyForward_succ (dst src : Word) (n : ℕ) (mem : Word → Byte) :
    copyForward dst src (n + 1) mem =
      update (copyForward dst src n mem) (dst + BitVec.ofNat 32 n)
        (copyForward dst src n mem (src + BitVec.ofNat 32 n)) := by
  induction n generalizing dst src mem with
  | zero => simp [copyForward]
  | succ n ih => rw [copyForward, ih, add_ofNat_succ, add_ofNat_succ, ← copyForward]

/-- A forward copy repeats the bytes between the two addresses; from a higher address it copies. -/
theorem copyForward_eq (hdst : dst.toNat + n ≤ 2 ^ 32) (hsrc : src.toNat + n ≤ 2 ^ 32) :
    copyForward dst src n mem = blit mem dst n
      fun i ↦ mem (src + BitVec.ofNat 32 (i % (dst.toNat - src.toNat))) := by
  induction n with
  | zero => rw [copyForward, blit_zero]
  | succ n ih =>
    have hat : (src + BitVec.ofNat 32 n).toNat = src.toNat + n := by
      rw [toNat_add, toNat_ofNat]
      omega
    have hoff : (src + BitVec.ofNat 32 n - dst).toNat =
        (2 ^ 32 - dst.toNat + (src.toNat + n)) % 2 ^ 32 := by
      rw [toNat_sub, hat]
    rw [copyForward_succ, ih (by omega) (by omega), ← update_blit (by omega)]
    congr 1
    rcases Nat.lt_or_ge (src.toNat + n) dst.toNat with hbelow | habove
    · -- The byte lies below the destination.
      rw [blit_of_le (by omega), Nat.mod_eq_of_lt (by omega)]
    · rcases Nat.lt_or_ge src.toNat dst.toNat with hlt | hge
      · -- The byte has been written: it is the one `dst - src` before.
        have hk : (src + BitVec.ofNat 32 n - dst).toNat = n - (dst.toNat - src.toNat) := by omega
        rw [blit_of_lt (by omega), hk, ← Nat.mod_eq_sub_mod (by omega)]
      · rw [blit_of_le (by omega), Nat.sub_eq_zero_of_le hge, Nat.mod_zero]

/-- A backward copy to a higher address. -/
theorem copyBackward_eq (hlt : src < dst) (hdst : dst.toNat + n ≤ 2 ^ 32) :
    copyBackward (dst + BitVec.ofNat 32 n) (src + BitVec.ofNat 32 n) n mem =
      blit mem dst n fun i ↦ mem (src + BitVec.ofNat 32 i) := by
  induction n generalizing mem with
  | zero => rw [copyBackward, blit_zero]
  | succ n ih =>
    have hpred (a : Word) : a + BitVec.ofNat 32 (n + 1) - 1 = a + BitVec.ofNat 32 n := by
      rw [ofNat_add, ← BitVec.add_assoc]
      exact BitVec.add_sub_cancel _ _
    rw [lt_def] at hlt
    rw [copyBackward, hpred, hpred, ih (by omega), ← update_blit (by omega)]
    funext a
    -- The byte written first is none that is still to be read.
    have hread (i : ℕ) (hi : i < n) : src + BitVec.ofNat 32 i ≠ dst + BitVec.ofNat 32 n := by
      intro heq
      have hnat := congrArg BitVec.toNat heq
      rw [toNat_add, toNat_add, toNat_ofNat, toNat_ofNat] at hnat
      omega
    rcases Nat.lt_or_ge (a - dst).toNat n with hin | hout
    · have hne : a ≠ dst + BitVec.ofNat 32 n := by
        rintro rfl
        rw [toNat_offset (by omega)] at hin
        omega
      rw [update_of_ne hne, blit_of_lt hin, blit_of_lt hin, update_of_ne (hread _ hin)]
    · rw [blit_of_le hout, update_apply, update_apply, blit_of_le hout]

end Loops

/-! ## The result -/

/-- The `n` bytes from `dst` on are those that were at `src`, and no other byte has changed. -/
def Moved (dst src n : Word) (mem mem' : Word → Byte) : Prop :=
  (∀ i < n.toNat, mem' (dst + BitVec.ofNat 32 i) = mem (src + BitVec.ofNat 32 i)) ∧
    ∀ a, n.toNat ≤ (a - dst).toNat → mem' a = mem a

theorem moved_blit {dst src n : Word} {mem : Word → Byte} {m : ℕ} {cells : ℕ → Byte}
    (hm : m = n.toNat) : Moved dst src n mem (blit mem dst m cells) ↔
      ∀ i < n.toNat, cells i = mem (src + BitVec.ofNat 32 i) := by
  subst hm
  have hcell (i : ℕ) (hi : i < n.toNat) : blit mem dst n.toNat cells (dst + BitVec.ofNat 32 i) =
      cells i := blit_offset hi n.isLt.le
  constructor
  · exact fun h i hi ↦ (hcell i hi).symm.trans (h.1 i hi)
  · exact fun h ↦ ⟨fun i hi ↦ (hcell i hi).trans (h i hi), fun a ha ↦ blit_of_le ha⟩

/-- The kernel's `memmove` is the block copy of the machine model. -/
theorem memmoveBytes_eq {dst src n : Word} (hdst : dst.toNat + n.toNat ≤ 2 ^ 32)
    (hsrc : src.toNat + n.toNat ≤ 2 ^ 32) (mem : Word → Byte) :
    Kernel.memmoveBytes dst src n mem =
      blit mem dst n.toNat fun i ↦ mem (src + BitVec.ofNat 32 i) := by
  -- a source that ends with the address space starts no lower than the destination
  have hend (hlt : src.toNat < dst.toNat) : (src + n).toNat = src.toNat + n.toNat := by
    rw [toNat_add, Nat.mod_eq_of_lt (by omega)]
  rw [Kernel.memmoveBytes]
  simp only [Bool.and_eq_true, decide_eq_true_eq]
  split
  · rename_i hover
    rw [← copyBackward_eq hover.1 hdst, ofNat_toNat, setWidth_eq]
  · rename_i hapart
    rw [copyForward_eq hdst hsrc]
    refine blit_congr fun i hi ↦ ?_
    rcases Nat.lt_or_ge src.toNat dst.toNat with hlt | hge
    · rw [lt_def, lt_def, hend hlt] at hapart
      rw [Nat.mod_eq_of_lt (by omega)]
    · rw [Nat.sub_eq_zero_of_le hge, Nat.mod_zero]

/-- The byte that `memmove` of the user library stores at `dst + i` is that of `src + i`: with the
distance of the two ranges as period, if the destination starts inside the source, and in place, if
the length is negative as an `int`. -/
def UserMoves (dst src n : Word) (mem : Word → Byte) : Prop :=
  ∀ i < n.toNat, mem (if n.toNat < 2 ^ 31 then
    src + BitVec.ofNat 32 (i % (dst.toNat - src.toNat)) else dst + BitVec.ofNat 32 i) =
      mem (src + BitVec.ofNat 32 i)

/-- **The two `memmove`s.**  Both move the bytes if and only if the source repeats itself with the
distance of the ranges, which is no condition unless the destination starts inside the source. -/
theorem memmove_moved_iff {dst src n : Word} (hdst : dst.toNat + n.toNat ≤ 2 ^ 32)
    (hsrc : src.toNat + n.toNat ≤ 2 ^ 32) (mem : Word → Byte) :
    Moved dst src n mem (Kernel.memmoveBytes dst src n mem) ∧
        Moved dst src n mem (User.memmove dst src n mem) ↔ UserMoves dst src n mem := by
  have hkernel : Moved dst src n mem (Kernel.memmoveBytes dst src n mem) := by
    rw [memmoveBytes_eq hdst hsrc, moved_blit rfl]
    exact fun _ _ ↦ rfl
  rw [and_iff_right hkernel, User.memmove, Word.count, UserMoves]
  rcases Nat.lt_or_ge n.toNat (2 ^ 31) with hlt | hge
  · have hcount : n.toInt.toNat = n.toNat := by
      rw [toInt_eq_toNat_of_lt (by omega), Int.toNat_natCast]
    rw [hcount, copyForward_eq hdst hsrc, moved_blit rfl]
    simp only [if_pos hlt]
  · have hcount : n.toInt.toNat = 0 := by
      rw [toInt_eq_toNat_cond, if_neg (by omega)]
      omega
    rw [hcount, copyForward, Moved]
    simp only [if_neg (not_lt.mpr hge)]
    exact and_iff_left fun _ _ ↦ trivial

/-- Three bytes are moved down by one. -/
theorem memmove_moved_down :
    Moved 0 1 3 (fun a ↦ a.setWidth 8) (Kernel.memmoveBytes 0 1 3 fun a ↦ a.setWidth 8) ∧
      Moved 0 1 3 (fun a ↦ a.setWidth 8) (User.memmove 0 1 3 fun a ↦ a.setWidth 8) :=
  (memmove_moved_iff (by decide) (by decide) _).mpr (by rw [UserMoves]; decide)

/-- The destination starts one byte inside the source: the first byte is stored twice. -/
theorem memmove_repeats_byte :
    ¬ (Moved 1 0 2 (fun a ↦ a.setWidth 8) (Kernel.memmoveBytes 1 0 2 fun a ↦ a.setWidth 8) ∧
      Moved 1 0 2 (fun a ↦ a.setWidth 8) (User.memmove 1 0 2 fun a ↦ a.setWidth 8)) := by
  intro h
  have hlast := h.2.1 1 (by decide)
  revert hlast
  decide

end Xv6Mmap
