import OperatingSystems.Library.DemandPaging
import Mathlib.Data.Nat.Bitwise
import Mathlib.Tactic.NormNum
import Mathlib.Tactic.Ring

/-!
# The fault handlers

`uffd.c` and both versions of s2dsm have the same handler but for what it copies. It
rounds the faulting address down with `& ~(page_size - 1)`, where `page_size` is an
`int` that is converted to `unsigned long`, and copies one page to it. For a page size
that is a power of two the copy goes to the page that faulted.

A mapping is a page-aligned range of addresses, accessed by offsets from its start.
-/
namespace OperatingSystems.Uffd
open Library

/-- `(unsigned long) address & ~(page_size - 1)` -/
def copyDst (pageSize : BitVec 32) (address : BitVec 64) : BitVec 64 :=
  address &&& (~~~(pageSize - 1)).signExtend 64

/-- The mask has the bits from `k` on. -/
theorem getLsbD_copyMask {k : ℕ} (hk : k < 31) {i : ℕ} (hi : i < 64) :
    ((~~~(BitVec.ofNat 32 (2 ^ k) - 1)).signExtend 64).getLsbD i = decide (k ≤ i) := by
  have hsub : BitVec.ofNat 32 (2 ^ k) - 1 = BitVec.ofNat 32 (2 ^ k - 1) :=
    BitVec.ofNat_sub_ofNat_of_le _ _ (by norm_num) Nat.one_le_two_pow
  have hmsb : (BitVec.ofNat 32 (2 ^ k - 1)).msb = false := by
    rw [BitVec.msb_eq_getLsbD_last, BitVec.getLsbD_ofNat, Nat.testBit_two_pow_sub_one]
    simpa using by omega
  rw [hsub, BitVec.getLsbD_signExtend, BitVec.getLsbD_not, BitVec.msb_not, hmsb,
    BitVec.getLsbD_ofNat, Nat.testBit_two_pow_sub_one]
  by_cases hlow : i < 32
  · by_cases hki : k ≤ i
    · simp [hi, hlow, hki]
    · simp [hlow, hki]
      omega
  · have hki : k ≤ i := by omega
    simp [hi, hlow, hki]

/-- The copy goes to the page of the address. -/
theorem copyDst_page {k : ℕ} (hk : k < 31) (address : BitVec 64) :
    (copyDst (BitVec.ofNat 32 (2 ^ k)) address).toNat / 2 ^ k = address.toNat / 2 ^ k := by
  apply Nat.eq_of_testBit_eq
  intro i
  rw [Nat.testBit_div_two_pow, Nat.testBit_div_two_pow, BitVec.testBit_toNat,
    BitVec.testBit_toNat, copyDst, BitVec.getLsbD_and]
  by_cases hi : i + k < 64
  · rw [getLsbD_copyMask hk hi]
    simp
  · rw [BitVec.getLsbD_of_ge _ _ (by omega), Bool.false_and]

/-- `mmap` refuses length zero and returns the start of a page, and the range is below the
kernel's half. -/
structure FaultRange where
  shift : ℕ
  shift_lt : shift < 31
  addr : BitVec 64
  pages : ℕ
  pages_pos : 0 < pages
  aligned : 2 ^ shift ∣ addr.toNat
  fits : addr.toNat + pages * 2 ^ shift ≤ 2 ^ 63

namespace FaultRange
variable (mp : FaultRange)

abbrev pageSize : ℕ := 2 ^ mp.shift

def len : ℕ := mp.pages * mp.pageSize

/-- `addr + l` -/
def address (l : ℤ) : BitVec 64 := mp.addr + BitVec.ofInt 64 l

/-- A page is named by its number among all pages of the address space. -/
def pager {V : Type*} (fill : ℕ → V) : Pager ℤ ℕ V where
  page l := (mp.address l).toNat / mp.pageSize
  dst l := (copyDst (BitVec.ofNat 32 mp.pageSize) (mp.address l)).toNat / mp.pageSize
  dst_eq l := copyDst_page mp.shift_lt (mp.address l)
  fill := fill

theorem pageSize_pos : 0 < mp.pageSize := Nat.two_pow_pos mp.shift

variable {mp}

/-- Offset `l` is in the page `l / page_size` of the range. -/
theorem page_eq {V : Type*} (fill : ℕ → V) {l : ℕ} (hl : l < mp.len) :
    (mp.pager fill).page l = mp.addr.toNat / mp.pageSize + l / mp.pageSize := by
  have hfits := mp.fits
  have haddress : (mp.address l).toNat = mp.addr.toNat + l := by
    have hlt : mp.addr.toNat + l < 2 ^ 64 := by
      unfold len pageSize at hl
      omega
    rw [address, BitVec.ofInt_natCast, BitVec.toNat_add, BitVec.toNat_ofNat, Nat.add_mod_mod,
      Nat.mod_eq_of_lt hlt]
  obtain ⟨first, hfirst⟩ := mp.aligned
  have hpos := mp.pageSize_pos
  change (mp.address l).toNat / mp.pageSize = _
  rw [haddress, hfirst, Nat.mul_add_div hpos, Nat.mul_div_cancel_left _ hpos]

end FaultRange

/-- Two pages of 4096 bytes. -/
def twoPageRange : FaultRange where
  shift := 12
  shift_lt := by omega
  addr := BitVec.ofNat 64 8192
  pages := 2
  pages_pos := Nat.two_pos
  aligned := ⟨2, rfl⟩
  fits := Nat.le_of_ble_eq_true rfl

end OperatingSystems.Uffd
