import Mathlib.Data.BitVec

/-!
# Machine words and the constants of the kernel headers

C `int` and `uint` are both 32-bit words here; a signed comparison is one of `BitVec.toInt`, an
unsigned one is the order of `BitVec`.  Arithmetic wraps.  The constants come from `param.h`,
`mmu.h`, `memlayout.h`, `mmap.h`, `fcntl.h`, `fs.h`, `proc.h` and `pagecache.h`.
-/

namespace Xv6Mmap

open BitVec

abbrev Word := BitVec 32
abbrev Byte := BitVec 8

/-- The iterations of `for (i = 0; i < n; i++)` over a signed `n`. -/
def Word.count (n : Word) : ℕ := n.toInt.toNat

def logSize : ℕ := 30
def nBuf : ℕ := 30
def nPageCache : ℕ := 30
def nOfile : ℕ := 16
def nFile : ℕ := 100

instance : NeZero nBuf := ⟨by decide⟩

def pgSize : Word := 4096
def kernBase : Word := 0x80000000
def mmapBase : Word := 0x60000000
def physTop : Word := 0xE000000

def bSize : ℕ := 512
def maxFile : ℕ := 140
def maxOpBlocks : ℕ := 10

/-- The `max` of `filewrite`: the bytes it writes in one transaction. -/
def writeMax : ℕ := (maxOpBlocks - 1 - 1 - 2) / 2 * 512

def pteP : Word := 0x001
def pteW : Word := 0x002
def pteU : Word := 0x004

def mapPrivate : Word := 0x0001
def mapShared : Word := 0x0002
def mapAnonymous : Word := 0x0004
def mapFixed : Word := 0x0008

def protRead : Word := 0x1
def protWrite : Word := 0x2
def protNone : Word := 0x8

def oWronly : Word := 0x001
def oRdwr : Word := 0x002

/-- `enum procstate` -/
inductive ProcState where
  | unused
  | embryo
  | sleeping
  | runnable
  | running
  | zombie
  deriving DecidableEq

/-- A C condition on a flag: `word & flag`. -/
def Word.has (word flag : Word) : Bool := word &&& flag != 0

def pgRoundUp (sz : Word) : Word := (sz + pgSize - 1) &&& ~~~(pgSize - 1)
def pgRoundDown (a : Word) : Word := a &&& ~~~(pgSize - 1)

def pteAddr (pte : Word) : Word := pte &&& ~~~0xFFF
def pteFlags (pte : Word) : Word := pte &&& 0xFFF

/-- The number of a virtual page: the page directory index over the page table index. -/
abbrev Vpn := BitVec 20

def vpn (va : Word) : Vpn := (va >>> 12).setWidth 20

/-- The page directory index of a page. -/
def Vpn.pdx (v : Vpn) : BitVec 10 := (v >>> 10).setWidth 10

/-! ## Counting up and down -/

theorem toInt_add_one {w : Word} (h : w.toInt < 2 ^ 31 - 1) : (w + 1).toInt = w.toInt + 1 := by
  grind

theorem toInt_sub_one {w : Word} (h : w ≠ BitVec.intMin 32) : (w - 1).toInt = w.toInt - 1 := by
  have hlow := w.two_mul_toInt_lt
  have hhigh := w.le_two_mul_toInt
  have hne : w.toInt ≠ -2 ^ 31 := by
    intro heq
    exact h (toInt_inj.mp heq)
  rw [toInt_sub, show (1 : Word).toInt = 1 from rfl]
  exact Int.bmod_eq_of_le_mul_two (by omega) (by omega)

/-! ## Rounding as arithmetic -/

theorem mask_eq_shift (a : Word) : a &&& ~~~(4095 : Word) = (a >>> 12) <<< 12 := by
  have hmask : ∀ i : Fin 32, (~~~(4095 : Word)).getLsbD i = decide (12 ≤ i.val) := by decide
  apply eq_of_getLsbD_eq
  intro i hi
  rw [getLsbD_and, hmask ⟨i, hi⟩, getLsbD_shiftLeft, getLsbD_ushiftRight]
  by_cases hlow : i < 12
  · simp [hlow]
  · grind

theorem toNat_mask (a : Word) : (a &&& ~~~(4095 : Word)).toNat = a.toNat - a.toNat % 4096 := by
  have ha := a.isLt
  rw [mask_eq_shift, toNat_shiftLeft, toNat_ushiftRight, Nat.shiftLeft_eq,
    Nat.shiftRight_eq_div_pow]
  omega

theorem count_eq_toNat {w : Word} (h : w.toNat < 2 ^ 31) : w.count = w.toNat := by
  rw [Word.count, toInt_eq_toNat_of_lt (by omega), Int.toNat_natCast]

theorem slt_of_small {v w : Word} (hv : v.toNat < 2 ^ 31) (hw : w.toNat < 2 ^ 31) :
    v.slt w = decide (v.toNat < w.toNat) := by
  rw [slt_eq_decide, toInt_eq_toNat_of_lt (by omega), toInt_eq_toNat_of_lt (by omega)]
  simp only [Int.ofNat_lt]

theorem sle_of_small {v w : Word} (hv : v.toNat < 2 ^ 31) (hw : w.toNat < 2 ^ 31) :
    v.sle w = decide (v.toNat ≤ w.toNat) := by
  rw [sle_eq_decide, toInt_eq_toNat_of_lt (by omega), toInt_eq_toNat_of_lt (by omega)]
  simp only [Int.ofNat_le]

theorem slt_zero_of_small {w : Word} (h : w.toNat < 2 ^ 31) : w.slt 0 = false := by
  rw [slt_of_small h (by decide)]
  exact decide_eq_false (Nat.not_lt_zero _)

theorem count_le_toNat (w : Word) : w.count ≤ w.toNat := by
  rw [Word.count, toInt_eq_toNat_cond]
  split
  · exact (Int.toNat_natCast _).le
  · omega

theorem toNat_pgRoundDown (a : Word) : (pgRoundDown a).toNat = a.toNat - a.toNat % 4096 :=
  toNat_mask a

theorem toNat_pgRoundUp (a : Word) :
    (pgRoundUp a).toNat = (a.toNat + 4095) % 2 ^ 32 - (a.toNat + 4095) % 2 ^ 32 % 4096 := by
  have hsum : (a + pgSize - 1).toNat = (a.toNat + 4095) % 2 ^ 32 := by
    rw [show a + pgSize - 1 = a + 4095 by unfold pgSize; bv_omega]
    exact toNat_add a 4095
  rw [← hsum]
  exact toNat_mask _

theorem toNat_pteAddr (pte : Word) : (pteAddr pte).toNat = pte.toNat - pte.toNat % 4096 :=
  toNat_mask pte

theorem toNat_vpn (va : Word) : (vpn va).toNat = va.toNat / 4096 := by
  have := va.isLt
  rw [vpn, toNat_setWidth, toNat_ushiftRight, Nat.shiftRight_eq_div_pow]
  omega

/-- Two distinct frames do not overlap. -/
theorem frame_apart {a b : Word} (ha : a.toNat % 4096 = 0) (hb : b.toNat % 4096 = 0) (hne : a ≠ b)
    {k : ℕ} (hk : k < 4096) : 4096 ≤ (b + BitVec.ofNat 32 k - a).toNat := by
  have hdiff : a.toNat ≠ b.toNat := fun h ↦ hne (eq_of_toNat_eq h)
  have ha' := a.isLt
  have hb' := b.isLt
  rw [toNat_sub, toNat_add, toNat_ofNat]
  omega

end Xv6Mmap
