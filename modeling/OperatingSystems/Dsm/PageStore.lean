import OperatingSystems.Library.CString
import Mathlib.Algebra.Order.Ring.Int
import Mathlib.Tactic.Linarith
import Mathlib.Tactic.NormNum
import Mathlib.Tactic.Positivity

/-!
# The page store of one process

Both versions of s2dsm keep an anonymous mapping of `numPages` pages and address
page `i` by the byte offset `i * page_size`, computed in 32-bit `int` arithmetic.
The definitions here are the single-process program of Part 1-2; Part 3 uses the
same copying and printing code on each of its two regions.

A page number is an `int`: `-1` stands for all pages. Memory is a total function
of the offset from `addr`; a byte that was never touched reads as zero. `toInt`
is the value of an `int` expression. `copyMessage` is the body of the loop of
`updatePageContents`; the loop itself carries no state transition here. `execute`
is one turn of the command loop of Part 1-2 and `transcript` the texts printed by
a sequence of commands.
-/
namespace OperatingSystems.Dsm
open Library

/-- `mmap` refuses length zero, so a mapped region has at least one page. -/
structure Region where
  pageSize : ℕ
  numPages : ℕ
  numPages_pos : 0 < numPages

def toInt (x : ℤ) : ℤ := Int.bmod x (2 ^ 32)

/-- The commands typed at the prompt; `v` reads nothing but the state array. -/
inductive Command where
  | read (requestPage : ℤ)
  | write (requestPage : ℤ) (message : CString)
deriving DecidableEq

def Command.requestPage : Command → ℤ
  | .read p => p
  | .write p _ => p

namespace Region
variable (r : Region)

def len : ℕ := r.numPages * r.pageSize

def pageOffset (j : ℤ) : ℤ := toInt (j * r.pageSize)

/-- Page numbers visited by `for (i = (p == -1) ? 0 : p; i <= ((p == -1) ?
num_pages - 1 : p); ++i)`, in order. -/
def pagesOf (requestPage : ℤ) : List ℤ :=
  if requestPage = -1 then (List.range r.numPages).map (↑) else [requestPage]

/-- `sprintf(page_output, "%s", addr + (j * page_size))`; the mapping ends at `len`. -/
def pageText (mem : ℤ → UInt8) (j : ℤ) : CString :=
  readString mem (r.pageOffset j) (r.len - r.pageOffset j).toNat

/-- `madvise(addr + j * page_size, page_size, MADV_DONTNEED)`: the page is dropped
and the next fault fills it with zeros. -/
def dontNeed (mem : ℤ → UInt8) (j : ℤ) : ℤ → UInt8 :=
  zeroFill mem (r.pageOffset j) r.pageSize

def copyMessage (message : CString) (mem : ℤ → UInt8) (i : ℤ) : ℤ → UInt8 :=
  writeString mem (r.pageOffset i) message

def updatePageContents (mem : ℤ → UInt8) (requestPage : ℤ) (message : CString) : ℤ → UInt8 :=
  (r.pagesOf requestPage).foldl (r.copyMessage message) mem

/-- `printPageContents` of Part 1-2: the page numbers and texts it prints. -/
def printPageContents (mem : ℤ → UInt8) (requestPage : ℤ) : List (ℤ × CString) :=
  (r.pagesOf requestPage).map fun i => (i, r.pageText mem i)

def execute (mem : ℤ → UInt8) : Command → (ℤ → UInt8) × List (ℤ × CString)
  | .read p => (mem, r.printPageContents mem p)
  | .write p message =>
      let mem := r.updatePageContents mem p message
      (mem, r.printPageContents mem p)

def transcript (mem : ℤ → UInt8) : List Command → List (List (ℤ × CString))
  | [] => []
  | c :: cs => (r.execute mem c).2 :: transcript (r.execute mem c).1 cs

def IsPage (j : ℤ) : Prop := 0 ≤ j ∧ j < r.numPages

instance (j : ℤ) : Decidable (r.IsPage j) := inferInstanceAs (Decidable (_ ∧ _))

/-- Page numbers a command may ask for: a page of the region, or all pages. -/
def IsRequest (j : ℤ) : Prop := j = -1 ∨ r.IsPage j

instance (j : ℤ) : Decidable (r.IsRequest j) := inferInstanceAs (Decidable (_ ∨ _))

def IsMessage (message : CString) : Prop :=
  message ≠ CString.empty ∧ message.strlen < r.pageSize

instance (m : CString) : Decidable (r.IsMessage m) := inferInstanceAs (Decidable (_ ∧ _))

def IsCommand : Command → Prop
  | .read p => r.IsRequest p
  | .write p message => r.IsRequest p ∧ r.IsMessage message

instance : DecidablePred r.IsCommand
  | .read p => inferInstanceAs (Decidable (r.IsRequest p))
  | .write p m => inferInstanceAs (Decidable (r.IsRequest p ∧ r.IsMessage m))

theorem IsCommand.isRequest {r : Region} {c : Command} (h : r.IsCommand c) :
    r.IsRequest c.requestPage := by
  cases c with
  | read p => exact h
  | write p m => exact h.1

/-- Page `j` of the memory is one string with its terminator. -/
def Holds (mem : ℤ → UInt8) (j : ℤ) (t : CString) : Prop :=
  t.strlen < r.pageSize ∧ StringAt mem (r.pageOffset j) t

def Blank (mem : ℤ → UInt8) (j : ℤ) : Prop :=
  ∀ k < r.pageSize, mem (r.pageOffset j + k) = 0

def SamePage (mem mem' : ℤ → UInt8) (j : ℤ) : Prop :=
  ∀ k < r.pageSize, mem' (r.pageOffset j + k) = mem (r.pageOffset j + k)

variable {r}

theorem mem_pagesOf {p j : ℤ} (hp : r.IsRequest p) :
    j ∈ r.pagesOf p ↔ r.IsPage j ∧ (p = -1 ∨ j = p) := by
  unfold pagesOf IsRequest IsPage at *
  split_ifs with h
  · simp only [List.mem_map, List.mem_range]
    constructor
    · rintro ⟨k, hk, rfl⟩
      omega
    · intro hj
      exact ⟨j.toNat, by omega, by omega⟩
  · rw [List.mem_singleton]
    omega

theorem isPage_of_mem_pagesOf {p j : ℤ} (hp : r.IsRequest p) (h : j ∈ r.pagesOf p) :
    r.IsPage j := ((mem_pagesOf hp).mp h).1

theorem pagesOf_of_isPage {j : ℤ} (hj : r.IsPage j) : r.pagesOf j = [j] :=
  if_neg (by have := hj.1; omega)

theorem updatePageContents_of_isPage {j : ℤ} (hj : r.IsPage j) (mem : ℤ → UInt8)
    (message : CString) : r.updatePageContents mem j message = r.copyMessage message mem j := by
  rw [updatePageContents, pagesOf_of_isPage hj]
  rfl

theorem Holds.congr {mem mem' : ℤ → UInt8} {j : ℤ} {t : CString} (h : r.Holds mem j t)
    (hs : r.SamePage mem mem' j) : r.Holds mem' j t :=
  ⟨h.1, h.2.congr fun k hk => hs k (by have := h.1; omega)⟩

theorem Blank.congr {mem mem' : ℤ → UInt8} {j : ℤ} (h : r.Blank mem j)
    (hs : r.SamePage mem mem' j) : r.Blank mem' j := fun k hk => (hs k hk).trans (h k hk)

theorem Blank.holds {mem : ℤ → UInt8} {j : ℤ} (h : r.Blank mem j) (hr : 0 < r.pageSize) :
    r.Holds mem j CString.empty :=
  ⟨hr, stringAt_empty (by simpa using h 0 hr)⟩

theorem blank_dontNeed (mem : ℤ → UInt8) (j : ℤ) : r.Blank (r.dontNeed mem j) j := by
  intro k hk
  rw [dontNeed, zeroFill, if_pos (by omega)]

theorem holds_copyMessage {message : CString} (hm : message.strlen < r.pageSize)
    (mem : ℤ → UInt8) (j : ℤ) : r.Holds (r.copyMessage message mem j) j message :=
  ⟨hm, stringAt_writeString mem _ message⟩

theorem page_end_le {j : ℤ} (hj : r.IsPage j) :
    0 ≤ j * r.pageSize ∧ j * r.pageSize + r.pageSize ≤ r.len := by
  obtain ⟨h0, hlt⟩ := hj
  refine ⟨by positivity, ?_⟩
  have h : (j + 1) * (r.pageSize : ℤ) ≤ r.numPages * r.pageSize :=
    mul_le_mul_of_nonneg_right (by omega) (by positivity)
  rw [Region.len]
  push_cast
  linarith

theorem pages_apart {i j : ℤ} (hne : i ≠ j) :
    i * r.pageSize + r.pageSize ≤ j * r.pageSize ∨
      j * r.pageSize + r.pageSize ≤ i * r.pageSize := by
  rcases lt_or_gt_of_ne hne with h | h
  · left
    have := mul_le_mul_of_nonneg_right (show i + 1 ≤ j by omega) (Int.natCast_nonneg r.pageSize)
    linarith
  · right
    have := mul_le_mul_of_nonneg_right (show j + 1 ≤ i by omega) (Int.natCast_nonneg r.pageSize)
    linarith

/-- The offset of every byte of the region is an `int`. -/
structure Addressable (r : Region) : Prop where
  pageSize_pos : 0 < r.pageSize
  len_le : r.len ≤ 2 ^ 31

section Addressable
variable (ha : r.Addressable) {i j : ℤ} (hi : r.IsPage i) (hj : r.IsPage j)
include ha hj

/-- No offset of a page of the region overflows an `int`. -/
theorem pageOffset_eq : r.pageOffset j = j * r.pageSize := by
  obtain ⟨h0, hend⟩ := page_end_le hj
  have hlen : (r.len : ℤ) ≤ 2 ^ 31 := by exact_mod_cast ha.len_le
  have hpos := ha.pageSize_pos
  exact Int.bmod_eq_of_le (by norm_num; omega) (by norm_num; omega)

theorem pageText_eq {mem : ℤ → UInt8} {t : CString} (h : r.Holds mem j t) :
    r.pageText mem j = t := by
  have hend := page_end_le hj
  have hoff := pageOffset_eq ha hj
  have hlt := h.1
  exact readString_of_stringAt h.2 (by omega)

include hi

theorem page_disjoint (hne : i ≠ j) :
    r.pageOffset i + r.pageSize ≤ r.pageOffset j ∨
      r.pageOffset j + r.pageSize ≤ r.pageOffset i := by
  rw [pageOffset_eq ha hi, pageOffset_eq ha hj]
  exact pages_apart hne

/-- Frame: storing a message that fits leaves every other page alone. -/
theorem samePage_copyMessage (hne : i ≠ j) {message : CString}
    (hm : message.strlen < r.pageSize) (mem : ℤ → UInt8) :
    r.SamePage mem (r.copyMessage message mem i) j := by
  intro k hk
  have hd := page_disjoint ha hi hj hne
  rw [Region.copyMessage, writeString_apply, if_neg (by omega)]

theorem samePage_dontNeed (hne : i ≠ j) (mem : ℤ → UInt8) :
    r.SamePage mem (r.dontNeed mem i) j := by
  intro k hk
  have hd := page_disjoint ha hi hj hne
  rw [Region.dontNeed, zeroFill, if_neg (by omega)]

end Addressable

end Region

/-- A region whose offsets are all representable and whose pages have room for
the texts of the protocol. -/
structure SharedRegion extends Region where
  pageSize_ge : 8 ≤ pageSize
  len_le : numPages * pageSize ≤ 2 ^ 31

/-- Fewer than 100 pages (the size of `msi_array`) of any usual size; the page
size of the platform is 4096. -/
def SharedRegion.ofNumPages (pageSize numPages : ℕ) (h8 : 8 ≤ pageSize)
    (hmax : pageSize ≤ 2 ^ 24) (hpos : 0 < numPages) (hlt : numPages < 100) : SharedRegion where
  pageSize := pageSize
  numPages := numPages
  numPages_pos := hpos
  pageSize_ge := h8
  len_le := (Nat.mul_le_mul hlt.le hmax).trans (by norm_num)

/-- The messages `a` and `b`. -/
def textA : CString := ⟨[97], by decide⟩

def textB : CString := ⟨[98], by decide⟩

/-- Two pages of 4096 bytes. -/
def twoPages : SharedRegion := .ofNumPages 4096 2 (by decide) (by decide) (by decide) (by decide)

namespace SharedRegion
variable {r : SharedRegion}

theorem addressable (r : SharedRegion) : r.Addressable where
  pageSize_pos := by have := r.pageSize_ge; omega
  len_le := r.len_le

/-- Frame: storing a message that fits leaves every other page alone. -/
theorem samePage_copyMessage {i j : ℤ} (hi : r.IsPage i) (hj : r.IsPage j) (hne : i ≠ j)
    {message : CString} (hm : message.strlen < r.pageSize) (mem : ℤ → UInt8) :
    r.SamePage mem (r.copyMessage message mem i) j :=
  Region.samePage_copyMessage r.addressable hi hj hne hm mem

theorem samePage_dontNeed {i j : ℤ} (hi : r.IsPage i) (hj : r.IsPage j) (hne : i ≠ j)
    (mem : ℤ → UInt8) : r.SamePage mem (r.dontNeed mem i) j :=
  Region.samePage_dontNeed r.addressable hi hj hne mem

theorem pageText_eq {mem : ℤ → UInt8} {j : ℤ} {t : CString} (hj : r.IsPage j)
    (h : r.Holds mem j t) : r.pageText mem j = t :=
  Region.pageText_eq r.addressable hj h

theorem pageText_of_blank {mem : ℤ → UInt8} {j : ℤ} (hj : r.IsPage j) (h : r.Blank mem j) :
    r.pageText mem j = CString.empty :=
  pageText_eq hj (h.holds r.addressable.pageSize_pos)

end SharedRegion

end OperatingSystems.Dsm
