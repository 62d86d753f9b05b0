import Mathlib.Algebra.Group.Nat.Defs
import Mathlib.Data.Int.Notation
import Mathlib.Data.List.Basic
import Mathlib.Tactic.SplitIfs

/-!
# Reading the file of s2fs

The file has a fixed text. `s2fs_read_file` cuts the byte count down to the rest of
the text, copies that many bytes to the user and moves the offset of the open file
on by the length of the whole text, not by the count.

A `size_t` is compared with a `loff_t` as an unsigned 64-bit value, and the result
is a signed one. Whether `copy_to_user` fails is a parameter.
-/
namespace OperatingSystems.S2fs

def helloWorld : List UInt8 :=
  ['H', 'e', 'l', 'l', 'o', ' ', 'W', 'o', 'r', 'l', 'd', '!', '\n'].map fun c =>
    UInt8.ofNat c.toNat

structure ReadCall where
  result : ℤ
  copied : List UInt8
  offset : ℤ
deriving DecidableEq

def s2fsReadFile (copyFails : Bool) (count : UInt64) (offset : ℤ) : ReadCall :=
  let len : ℤ := helloWorld.length
  if offset > len then ⟨0, [], offset⟩
  else
    let rest := UInt64.ofInt (len - offset)
    let count := if count > rest then rest else count
    if copyFails then ⟨-14, [], offset⟩
    else ⟨Int.bmod count.toNat (2 ^ 64), (helloWorld.drop offset.toNat).take count.toNat,
      offset + len⟩

/-- An open file, with the bytes that its reads returned so far. -/
structure OpenFile where
  offset : ℤ
  delivered : List UInt8

def OpenFile.read (f : OpenFile) (count : UInt64) : OpenFile :=
  let call := s2fsReadFile false count f.offset
  ⟨call.offset, f.delivered ++ call.copied⟩

/-- The open file before call `n`, where call `i` asks for `counts i` bytes. -/
def reading (counts : ℕ → UInt64) : ℕ → OpenFile
  | 0 => ⟨0, []⟩
  | n + 1 => (reading counts n).read (counts n)

def resultAt (counts : ℕ → UInt64) (n : ℕ) : ℤ :=
  (s2fsReadFile false (counts n) (reading counts n).offset).result

/-- Some call returns 0, and when a call does, the text was delivered exactly. -/
def YieldsContents (counts : ℕ → UInt64) : Prop :=
  (∃ n, resultAt counts n = 0) ∧
    ∀ n, resultAt counts n = 0 → (reading counts n).delivered = helloWorld

theorem length_helloWorld : helloWorld.length = 13 := by
  decide

/-- The first call already moves the offset to the end of the text. -/
theorem read_at_start (count : UInt64) :
    s2fsReadFile false count 0 =
      ⟨min count.toNat 13, helloWorld.take count.toNat, helloWorld.length⟩ := by
  have hrest : (UInt64.ofInt 13).toNat = 13 := by decide
  unfold s2fsReadFile
  simp only [length_helloWorld]
  rw [if_neg (by decide), if_neg (by decide)]
  by_cases hc : count.toNat ≤ 13
  · have hle : ¬ count > UInt64.ofInt 13 := by
      rw [gt_iff_lt, UInt64.lt_iff_toNat_lt]
      omega
    have hmod : Int.bmod count.toNat (2 ^ 64) = count.toNat :=
      Int.bmod_eq_of_le (by omega) (by omega)
    have hmin : min (count.toNat : ℤ) 13 = count.toNat := by omega
    have hlen : ((13 : ℕ) : ℤ) - 0 = 13 := by decide
    simp only [hlen, if_neg hle, hmod, hmin, Int.toNat_zero, List.drop_zero, Int.zero_add]
  · have hgt : count > UInt64.ofInt 13 := by
      rw [gt_iff_lt, UInt64.lt_iff_toNat_lt]
      omega
    have htake : helloWorld.take count.toNat = helloWorld := by
      apply List.take_of_length_le
      rw [length_helloWorld]
      omega
    have hall : helloWorld.take 13 = helloWorld := by decide
    have hmin : min (count.toNat : ℤ) 13 = 13 := by omega
    simp [hgt, hrest, htake, hall, hmin]

theorem read_past_end (count : UInt64) {offset : ℤ} (h : helloWorld.length ≤ offset) :
    (s2fsReadFile false count offset).result = 0 ∧
      (s2fsReadFile false count offset).copied = [] ∧
      helloWorld.length ≤ (s2fsReadFile false count offset).offset := by
  unfold s2fsReadFile
  by_cases hlt : offset > (helloWorld.length : ℤ)
  · simp only [if_pos hlt]
    exact ⟨trivial, trivial, h⟩
  · obtain rfl : offset = helloWorld.length := by omega
    have hzero : (if count > 0 then 0 else count) = 0 := by
      split_ifs with hc
      · rfl
      · rw [gt_iff_lt, UInt64.lt_iff_toNat_lt] at hc
        exact UInt64.toNat_inj.mp (by simpa using hc)
    have hrest : UInt64.ofInt 0 = 0 := rfl
    have hlen : (helloWorld.length : ℤ) ≤ helloWorld.length + helloWorld.length := by omega
    simp [hrest, hzero, hlen]

/-- The calls after the first one deliver nothing. -/
theorem reading_succ (counts : ℕ → UInt64) (n : ℕ) :
    (reading counts (n + 1)).delivered = helloWorld.take (counts 0).toNat ∧
      helloWorld.length ≤ (reading counts (n + 1)).offset := by
  induction n with
  | zero =>
      simp only [reading, OpenFile.read, read_at_start]
      exact ⟨rfl, Int.le_refl _⟩
  | succ n ih =>
      obtain ⟨hdelivered, hoffset⟩ := ih
      obtain ⟨-, hcopied, hnext⟩ := read_past_end (counts (n + 1)) hoffset
      rw [reading, OpenFile.read]
      exact ⟨by rw [hcopied, List.append_nil, hdelivered], hnext⟩

theorem resultAt_zero (counts : ℕ → UInt64) :
    resultAt counts 0 = min ((counts 0).toNat : ℤ) 13 := by
  rw [resultAt, reading, read_at_start]

theorem resultAt_succ (counts : ℕ → UInt64) (n : ℕ) : resultAt counts (n + 1) = 0 :=
  (read_past_end (counts (n + 1)) (reading_succ counts n).2).1

/-- Reads of positive sizes yield the text exactly if the first one takes all of it. -/
theorem yieldsContents_iff (counts : ℕ → UInt64) (hpos : ∀ n, 0 < counts n) :
    YieldsContents counts ↔ helloWorld.length ≤ (counts 0).toNat := by
  have hfirst : 0 < (counts 0).toNat := UInt64.lt_iff_toNat_lt.mp (hpos 0)
  constructor
  · rintro ⟨-, h⟩
    have hall := h 1 (resultAt_succ counts 0)
    rw [(reading_succ counts 0).1] at hall
    rw [← hall, List.length_take]
    omega
  · intro hlen
    refine ⟨⟨1, resultAt_succ counts 0⟩, fun n hn => ?_⟩
    cases n with
    | zero =>
        rw [resultAt_zero] at hn
        omega
    | succ n =>
        rw [(reading_succ counts n).1]
        exact List.take_of_length_le hlen

theorem yieldsContents_page : YieldsContents fun _ => 4096 :=
  (yieldsContents_iff (fun _ => 4096) fun _ => by decide).mpr (by decide)

/-- A reader with a buffer of five bytes gets `Hello` and then the end of the file. -/
theorem smallReads_cut :
    ¬ ∀ counts : ℕ → UInt64, (∀ n, 0 < counts n) → YieldsContents counts := by
  intro h
  have hcut := (h (fun _ => 5) fun _ => by decide).2 1 (by decide)
  exact absurd hcut (by decide)

end OperatingSystems.S2fs
