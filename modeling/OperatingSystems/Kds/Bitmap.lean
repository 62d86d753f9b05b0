import Mathlib.Data.Finset.Max
import Mathlib.Data.Nat.BitIndices

/-!
# The bitmap of kds

`run_bitmap` sets, for each integer, the bits of its binary representation, in one bitmap
for all of them. The bitmap has a declared size of ten bits and lies in one word on the
stack, whose former content is arbitrary. What is printed is the union of the binary
representations; it is never the set of the integers, as the greatest of them would have
to be a bit number of one that is not greater.
-/
namespace OperatingSystems.Kds

/-- `DECLARE_BITMAP(mybitmap, 10)` -/
def mybitmapSize : ℕ := 10

/-- The word of `mybitmap`, and the bit numbers that `set_bit` was called with. -/
structure BitmapState where
  mybitmap : BitVec 64
  setBits : List ℕ

def BitmapState.setBit (s : BitmapState) (bit : ℕ) : BitmapState :=
  ⟨s.mybitmap ||| BitVec.twoPow 64 bit, s.setBits ++ [bit]⟩

/-- Whole words are cleared. -/
def BitmapState.bitmapZero (s : BitmapState) : BitmapState := { s with mybitmap := 0 }

/-- `for_each_set_bit(bit, mybitmap, 10)` -/
def BitmapState.printed (s : BitmapState) : List ℕ :=
  (List.range mybitmapSize).filter fun bit => s.mybitmap.getLsbD bit

theorem toInt_half {number : Int32} (h : 0 < number) :
    (number / 2).toInt = number.toInt / 2 := by
  have hpos : 0 < number.toInt := Int32.lt_iff_toInt_lt.mp h
  have htwo : (2 : Int32).toInt = 2 := rfl
  rw [Int32.toInt_div_of_ne_right _ _ (by decide), htwo]
  exact Int.tdiv_eq_ediv_of_nonneg hpos.le

theorem mod_two_eq_one_iff {number : Int32} (h : 0 < number) :
    number % 2 = 1 ↔ number.toInt % 2 = 1 := by
  have hpos : 0 < number.toInt := Int32.lt_iff_toInt_lt.mp h
  have htwo : (2 : Int32).toInt = 2 := rfl
  have hone : (1 : Int32).toInt = 1 := rfl
  rw [← Int32.toInt_inj, Int32.toInt_mod, htwo, hone, Int.tmod_eq_emod_of_nonneg hpos.le]

/-- `while (number > 0)`, with the bit number that is next. -/
def insertNumber (number : Int32) (bit : ℕ) (s : BitmapState) : BitmapState :=
  if h : 0 < number then
    insertNumber (number / 2) (bit + 1) (if number % 2 = 1 then s.setBit bit else s)
  else s
termination_by number.toInt.toNat
decreasing_by
  have hpos : 0 < number.toInt := Int32.lt_iff_toInt_lt.mp h
  rw [toInt_half h]
  omega

/-- The bit numbers of a positive integer, its lowest bit apart. -/
theorem bitIndices_toNat {number : Int32} (h : 0 < number) :
    number.toInt.toNat.bitIndices =
      (if number % 2 = 1 then [0] else []) ++
        (number / 2).toInt.toNat.bitIndices.map (· + 1) := by
  have hpos : 0 < number.toInt := Int32.lt_iff_toInt_lt.mp h
  simp only [mod_two_eq_one_iff h, toInt_half h]
  split_ifs with hodd
  · have he : number.toInt.toNat = 2 * (number.toInt / 2).toNat + 1 := by omega
    rw [he, Nat.bitIndices_two_mul_add_one, List.singleton_append]
  · have he : number.toInt.toNat = 2 * (number.toInt / 2).toNat := by omega
    rw [he, Nat.bitIndices_two_mul, List.nil_append]

theorem setBits_insertNumber (number : Int32) (bit : ℕ) (s : BitmapState) :
    (insertNumber number bit s).setBits =
      s.setBits ++ number.toInt.toNat.bitIndices.map (bit + ·) := by
  induction number, bit, s using insertNumber.induct with
  | case1 number bit s h ih =>
      simp only [dite_eq_ite] at ih
      have hshift : ((bit + ·) ∘ (· + 1) : ℕ → ℕ) = (bit + 1 + ·) := by
        funext x
        simp only [Function.comp_apply]
        omega
      rw [insertNumber, dif_pos h, ih, bitIndices_toNat h, List.map_append, List.map_map, hshift]
      split_ifs
      · rw [BitmapState.setBit, List.append_assoc]
        rfl
      · rfl
  | case2 number bit s h =>
      have hnonpos : number.toInt ≤ 0 := not_lt.mp fun hpos => h (Int32.lt_iff_toInt_lt.mpr hpos)
      rw [insertNumber, dif_neg h, Int.toNat_of_nonpos hnonpos, Nat.bitIndices_zero, List.map_nil,
        List.append_nil]

/-- The bits of the word are those that have been set. -/
def BitmapState.Holds (s : BitmapState) : Prop :=
  ∀ bit < 64, s.mybitmap.getLsbD bit = true ↔ bit ∈ s.setBits

theorem BitmapState.Holds.setBit {s : BitmapState} (h : s.Holds) (bit : ℕ) :
    (s.setBit bit).Holds := by
  intro b hb
  have hpow : (BitVec.twoPow 64 bit).getLsbD b = true ↔ b = bit := by
    rw [BitVec.getLsbD_twoPow]
    simp only [Bool.and_eq_true, decide_eq_true_eq]
    omega
  rw [BitmapState.setBit]
  simp only [BitVec.getLsbD_or, Bool.or_eq_true, hpow, h b hb, List.mem_append,
    List.mem_singleton]

theorem BitmapState.Holds.insertNumber {s : BitmapState} (h : s.Holds) (number : Int32)
    (bit : ℕ) : (insertNumber number bit s).Holds := by
  induction number, bit, s using Kds.insertNumber.induct with
  | case1 number bit s hpos ih =>
      simp only [dite_eq_ite] at ih
      rw [Kds.insertNumber, dif_pos hpos]
      apply ih
      split_ifs
      · exact h.setBit bit
      · exact h
  | case2 number bit s hpos =>
      rw [Kds.insertNumber, dif_neg hpos]
      exact h

/-- The outer loop. -/
def insertNumbers (intArray : List Int32) (s : BitmapState) : BitmapState :=
  intArray.foldl (fun s number => insertNumber number 0 s) s

theorem BitmapState.Holds.insertNumbers {s : BitmapState} (h : s.Holds)
    (intArray : List Int32) : (insertNumbers intArray s).Holds := by
  induction intArray generalizing s with
  | nil => exact h
  | cons number intArray ih => exact ih (h.insertNumber number 0)

theorem setBits_insertNumbers (intArray : List Int32) (s : BitmapState) :
    (insertNumbers intArray s).setBits =
      s.setBits ++ intArray.flatMap fun number => number.toInt.toNat.bitIndices := by
  induction intArray generalizing s with
  | nil => exact (List.append_nil _).symm
  | cons number intArray ih =>
      have hzero : ((0 + ·) : ℕ → ℕ) = id := funext Nat.zero_add
      rw [insertNumbers, List.foldl_cons, ← insertNumbers, ih, setBits_insertNumber, hzero,
        List.map_id, List.flatMap_cons, List.append_assoc]

structure BitmapRun where
  setBits : List ℕ
  printed : List ℕ
  final : BitVec 64

/-- The run on a word with the given content. -/
def runBitmap (word : BitVec 64) (intArray : List Int32) : BitmapRun :=
  let inserted := insertNumbers intArray (BitmapState.bitmapZero ⟨word, []⟩)
  ⟨inserted.setBits, inserted.printed, inserted.bitmapZero.mybitmap⟩

section Run
variable (word : BitVec 64) (intArray : List Int32)

theorem setBits_runBitmap :
    (runBitmap word intArray).setBits =
      intArray.flatMap fun number => number.toInt.toNat.bitIndices :=
  setBits_insertNumbers intArray _

/-- What is printed is the union of the binary representations, up to the declared size. -/
theorem mem_printed_iff {bit : ℕ} :
    bit ∈ (runBitmap word intArray).printed ↔
      bit < mybitmapSize ∧ ∃ number ∈ intArray, number.toInt.toNat.testBit bit = true := by
  have hholds : (insertNumbers intArray (BitmapState.bitmapZero ⟨word, []⟩)).Holds := by
    apply BitmapState.Holds.insertNumbers
    intro b _
    simp [BitmapState.bitmapZero]
  have hsize : bit < mybitmapSize → bit < 64 := fun h => h.trans (by decide)
  rw [runBitmap, BitmapState.printed, List.mem_filter, List.mem_range]
  apply and_congr_right
  intro hbit
  rw [hholds bit (hsize hbit), setBits_insertNumbers]
  simp only [BitmapState.bitmapZero, List.nil_append, List.mem_flatMap, Nat.mem_bitIndices]

/-- For integers up to 1000 no bit is set outside the declared size. -/
theorem setBits_lt (h : ∀ number ∈ intArray, number ≤ 1000) :
    ∀ bit ∈ (runBitmap word intArray).setBits, bit < mybitmapSize := by
  intro bit hbit
  rw [setBits_runBitmap] at hbit
  obtain ⟨number, hnumber, hmem⟩ := List.mem_flatMap.mp hbit
  have hle : number.toInt ≤ 1000 := Int32.le_iff_toInt_le.mp (h number hnumber)
  have hpow : 2 ^ bit ≤ number.toInt.toNat := Nat.two_pow_le_of_mem_bitIndices hmem
  have hlt : 2 ^ bit < 2 ^ mybitmapSize := by
    unfold mybitmapSize
    omega
  exact (Nat.pow_lt_pow_iff_right Nat.one_lt_two).mp hlt

theorem pairwise_printed : (runBitmap word intArray).printed.Pairwise (· < ·) := by
  rw [runBitmap, BitmapState.printed]
  exact List.pairwise_lt_range.filter _

/-- The printed bit numbers are the distinct integers of the array in ascending order, no bit
is set outside the bitmap, and none stays set. -/
structure RepresentsSet : Prop where
  ascending : (runBitmap word intArray).printed.Pairwise (· < ·)
  printed : ∀ v : ℤ, v ∈ (runBitmap word intArray).printed.map ((↑) : ℕ → ℤ) ↔
    v ∈ intArray.map Int32.toInt
  within : ∀ bit ∈ (runBitmap word intArray).setBits, bit < mybitmapSize
  cleared : ∀ bit, (runBitmap word intArray).final.getLsbD bit = false

/-- An array with an integer is not represented: the greatest one is no bit number. -/
theorem represents_iff : RepresentsSet word intArray ↔ intArray = [] := by
  constructor
  · intro h
    by_contra hne
    let integers := (intArray.map Int32.toInt).toFinset
    have hnonempty : integers.Nonempty :=
      List.toFinset_nonempty_iff _ |>.mpr (mt List.map_eq_nil_iff.mp hne)
    obtain ⟨greatest, hmem, hgreatest⟩ := integers.exists_max_image id hnonempty
    have hprinted : greatest ∈ (runBitmap word intArray).printed.map ((↑) : ℕ → ℤ) :=
      (h.printed greatest).mpr (List.mem_toFinset.mp hmem)
    obtain ⟨bit, hbit, hcast⟩ := List.mem_map.mp hprinted
    obtain ⟨-, number, hnumber, htest⟩ := (mem_printed_iff word intArray).mp hbit
    have hpow : 2 ^ bit ≤ number.toInt.toNat := Nat.ge_two_pow_of_testBit htest
    have hle : number.toInt ≤ greatest :=
      hgreatest _ (List.mem_toFinset.mpr (List.mem_map_of_mem hnumber))
    have hlt : bit < 2 ^ bit := Nat.lt_two_pow_self
    omega
  · intro hempty
    subst hempty
    have hnone : ∀ bit, bit ∉ (runBitmap word []).printed := by
      intro bit hbit
      obtain ⟨-, number, hnumber, -⟩ := (mem_printed_iff word []).mp hbit
      cases hnumber
    refine ⟨pairwise_printed word [], ?_, ?_, ?_⟩
    · rw [List.eq_nil_iff_forall_not_mem.mpr hnone]
      intro v
      exact Iff.rfl
    · intro bit hbit
      rw [setBits_runBitmap] at hbit
      cases hbit
    · intro bit
      exact BitVec.getLsbD_zero

end Run

/-- Of the array with the integer 3 the bits 0 and 1 are printed. -/
theorem three_not_represented :
    (runBitmap 0 [3]).printed = [0, 1] ∧ ¬ RepresentsSet 0 [3] := by
  have hprinted : (runBitmap 0 [3]).printed = [0, 1] := by decide +kernel
  refine ⟨hprinted, ?_⟩
  intro h
  have hthree : (3 : ℤ) ∈ (runBitmap 0 [3]).printed.map ((↑) : ℕ → ℤ) :=
    (h.printed 3).mpr (by decide)
  rw [hprinted] at hthree
  exact absurd hthree (by decide)

end OperatingSystems.Kds
