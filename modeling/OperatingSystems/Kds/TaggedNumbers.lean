import OperatingSystems.Kds.Nodes
import OperatingSystems.Library.SparseArray
import Mathlib.Algebra.Ring.Int.Parity
import Mathlib.Data.Finset.Card

/-!
# Tagged numbers in a radix tree and in an XArray

Both runs store a node for each element of the array at the index that is the element
itself, tag the odd ones and report what is tagged. An element that was there before is
refused by the radix tree, whose result is ignored, and replaced in the XArray. The
report of the radix tree goes through an array of ten pointers, into which the gang
lookup may store a hundred; what was stored is then read back. The run of the radix tree
is written down to its end, but behind a gang lookup that has left its array the code
may do anything: `InBounds` tells the runs that have an end.

An index is an `unsigned long`, so that a negative element is converted to one of the
greatest indices.
-/
namespace OperatingSystems.Kds
open Library

/-- `unsigned long number = int_array[i]` -/
def index (v : Int32) : ℕ := (UInt64.ofInt v.toInt).toNat

def Node.index (n : Node) : ℕ := Kds.index n.value

/-- What `lookup_tagged_tree` does: the entries stored into `results`, and the values printed. -/
structure TaggedReport where
  count : ℕ
  values : List Int32
deriving DecidableEq

/-- The capacity of `results`. -/
def resultsSize : ℕ := 10

/-- The limit that is given to the gang lookup. -/
def maxItems : ℕ := 100

section Runs
variable {σ : Type*} (A : SparseArray σ ℕ Node)

/-- For each element the value that is found at its index. -/
def lookupLoop (s : σ) (intArray : List Int32) : List (Option Int32) :=
  intArray.map fun v => (A.load s (index v)).map Node.value

def lookupRadixTree (s : σ) (intArray : List Int32) : List (Option Int32) :=
  lookupLoop A s intArray

def lookupXarray (s : σ) (intArray : List Int32) : List (Option Int32) := lookupLoop A s intArray

/-- `if (number % 2 == 1)`, for each element. -/
def tagLoop (s : σ) (intArray : List Int32) : σ :=
  intArray.foldl (fun s v => if index v % 2 = 1 then A.mark s (index v) else s) s

def tagRadixTree (s : σ) (intArray : List Int32) : σ := tagLoop A s intArray

def tagXarray (s : σ) (intArray : List Int32) : σ := tagLoop A s intArray

def lookupTaggedTree (s : σ) : TaggedReport :=
  let results := (A.markedEntries s).take maxItems
  ⟨results.length, results.map Node.value⟩

def lookupTagged (s : σ) : List Int32 := (A.markedEntries s).map Node.value

/-- The nodes that were found are freed. -/
def removeLoop (s : σ) (intArray : List Int32) : σ × List Node :=
  A.removeAll s (intArray.map index)

def removeRadixTree (s : σ) (intArray : List Int32) : σ × List Node := removeLoop A s intArray

def removeXarray (s : σ) (intArray : List Int32) : σ × List Node := removeLoop A s intArray

structure RadixRun where
  found : List (Option Int32)
  tagged : TaggedReport
  freed : List Node
  foundAgain : List (Option Int32)

/-- The gang lookup has stored its entries within `results`. -/
def RadixRun.InBounds (run : RadixRun) : Prop := run.tagged.count ≤ resultsSize

def runRadixTree (intArray : List Int32) : RadixRun :=
  let myRadix := A.insertAll Node.index (newNodes intArray)
  let found := lookupRadixTree A myRadix intArray
  let myRadix := tagRadixTree A myRadix intArray
  let tagged := lookupTaggedTree A myRadix
  let (myRadix, freed) := removeRadixTree A myRadix intArray
  ⟨found, tagged, freed, lookupRadixTree A myRadix intArray⟩

structure XarrayRun where
  found : List (Option Int32)
  tagged : List Int32
  freed : List Node

def runXarray (intArray : List Int32) : XarrayRun :=
  let myXarray := A.storeAll Node.index (newNodes intArray)
  let found := lookupXarray A myXarray intArray
  let myXarray := tagXarray A myXarray intArray
  ⟨found, lookupTagged A myXarray, (removeXarray A myXarray intArray).2⟩

end Runs

/-- The distinct odd elements in ascending order of their indices. -/
structure ListsOdd (intArray reported : List Int32) : Prop where
  ascending : reported.Pairwise fun v w => index v < index w
  mem_iff : ∀ v, v ∈ reported ↔ v ∈ intArray ∧ Odd v.toInt

/-- Both runs report the distinct odd elements, and the gang lookup stays in its array. -/
structure SameReports {σ τ : Type*} (A : SparseArray σ ℕ Node) (X : SparseArray τ ℕ Node)
    (intArray : List Int32) : Prop where
  equal : (runRadixTree A intArray).tagged.values = (runXarray X intArray).tagged
  odd : ListsOdd intArray (runXarray X intArray).tagged
  fits : (runRadixTree A intArray).tagged.count ≤ resultsSize

def oddElements (intArray : List Int32) : Finset Int32 := {v ∈ intArray.toFinset | Odd v.toInt}

theorem index_eq (v : Int32) : (index v : ℤ) = v.toInt % 2 ^ 64 := by
  have hnonneg : 0 ≤ v.toInt % 2 ^ 64 := Int.emod_nonneg _ (by decide)
  have hlt : v.toInt % 2 ^ 64 < 2 ^ 64 := Int.emod_lt_of_pos _ (by decide)
  rw [index, UInt64.ofInt, UInt64.toNat_ofNat']
  omega

theorem index_injective : Function.Injective index := by
  intro v w h
  have hv := index_eq v
  have hw := index_eq w
  have hvlt := v.toInt_lt
  have hvle := v.le_toInt
  have hwlt := w.toInt_lt
  have hwle := w.le_toInt
  apply Int32.toInt_inj.mp
  omega

theorem index_odd_iff (v : Int32) : index v % 2 = 1 ↔ Odd v.toInt := by
  have hv := index_eq v
  rw [Int.odd_iff]
  omega

section Filled
variable {σ : Type*} {A : SparseArray σ ℕ Node} {s : σ} {values : List Int32}

/-- The array has a node for each element, at its own index, and no tags. -/
structure Filled (A : SparseArray σ ℕ Node) (values : List Int32) (s : σ) : Prop where
  own : ∀ i n, A.load s i = some n → n.index = i
  allocated : ∀ i n, A.load s i = some n → n ∈ newNodes values
  all : ∀ v ∈ values, (A.load s (index v)).isSome = true
  untagged : ∀ i, A.marked s i = false

theorem exists_index {v : Int32} (h : v ∈ values) : ∃ n ∈ newNodes values, n.index = index v := by
  obtain ⟨n, hn, rfl⟩ := mem_newNodes_value.mpr h
  exact ⟨n, hn, rfl⟩

theorem filled_insertAll (values : List Int32) :
    Filled A values (A.insertAll Node.index (newNodes values)) where
  own i n hn := by
    rw [A.load_insertAll] at hn
    simpa using List.find?_some hn
  allocated i n hn := by
    rw [A.load_insertAll] at hn
    exact List.mem_of_find?_eq_some hn
  all v hv := by
    rw [A.load_insertAll, List.find?_isSome]
    simpa using exists_index hv
  untagged := A.marked_insertAll (newNodes values)

theorem filled_storeAll (values : List Int32) :
    Filled A values (A.storeAll Node.index (newNodes values)) where
  own i n hn := by
    rw [A.load_storeAll] at hn
    simpa using List.find?_some hn
  allocated i n hn := by
    rw [A.load_storeAll] at hn
    exact List.mem_reverse.mp (List.mem_of_find?_eq_some hn)
  all v hv := by
    rw [A.load_storeAll, List.find?_isSome]
    simpa using exists_index hv
  untagged := A.marked_storeAll (newNodes values)

theorem tagLoop_eq (s : σ) (values : List Int32) :
    tagLoop A s values = A.markAll s ((values.map index).filter fun i => i % 2 = 1) := by
  induction values generalizing s with
  | nil => rfl
  | cons v values ih =>
      have hcons : tagLoop A s (v :: values) =
          tagLoop A (if index v % 2 = 1 then A.mark s (index v) else s) values := rfl
      rw [hcons, ih, List.map_cons, List.filter_cons]
      simp only [decide_eq_true_eq]
      split_ifs with hodd
      · rfl
      · rfl

/-- The tags are on the odd elements. -/
theorem Filled.mem_markedIndices (h : Filled A values s) (v : Int32) :
    index v ∈ A.markedIndices (tagLoop A s values) ↔ v ∈ values ∧ Odd v.toInt := by
  rw [tagLoop_eq, A.mem_markedIndices, A.load_markAll, A.marked_markAll, h.untagged,
    List.mem_filter, List.mem_map_of_injective index_injective, decide_eq_true_iff,
    index_odd_iff]
  constructor
  · rintro ⟨-, hfalse | ⟨hodd, -⟩⟩
    · cases hfalse
    · exact hodd
  · intro hodd
    exact ⟨h.all v hodd.1, .inr ⟨hodd, h.all v hodd.1⟩⟩

/-- The tagged entries are the odd elements. -/
theorem Filled.listsOdd (h : Filled A values s) :
    ListsOdd values ((A.markedEntries (tagLoop A s values)).map Node.value) := by
  have hown : ∀ i n, A.load (tagLoop A s values) i = some n → n.index = i := by
    intro i n hn
    rw [tagLoop_eq, A.load_markAll] at hn
    exact h.own i n hn
  have hindices : ((A.markedEntries (tagLoop A s values)).map Node.value).map index =
      A.markedIndices (tagLoop A s values) := by
    rw [List.map_map]
    exact A.map_markedEntries hown
  constructor
  · rw [← List.pairwise_map, hindices]
    exact A.markedIndices_ascending _
  · intro v
    rw [← h.mem_markedIndices, ← hindices, List.mem_map_of_injective index_injective]

end Filled

theorem ListsOdd.unique {values l l' : List Int32} (h : ListsOdd values l)
    (h' : ListsOdd values l') : l = l' := by
  have hirrefl : Std.Irrefl fun v w : Int32 => index v < index w := ⟨fun v => lt_irrefl _⟩
  have hasymm : Std.Antisymm fun v w : Int32 => index v < index w :=
    ⟨fun v w hvw hwv => absurd hvw (lt_asymm hwv)⟩
  exact h.ascending.eq_of_mem_iff h'.ascending fun {v} => by rw [h.mem_iff, h'.mem_iff]

theorem ListsOdd.length_eq {values l : List Int32} (h : ListsOdd values l) :
    l.length = (oddElements values).card := by
  have hnodup : l.Nodup := h.ascending.imp fun hlt he => absurd hlt (by rw [he]; exact lt_irrefl _)
  rw [← List.toFinset_card_of_nodup hnodup]
  congr 1
  ext v
  rw [List.mem_toFinset, h.mem_iff, oddElements, Finset.mem_filter, List.mem_toFinset]

section Reports
variable {σ τ : Type*} {A : SparseArray σ ℕ Node} {X : SparseArray τ ℕ Node}
  {intArray : List Int32}

/-- The gang lookup stores the odd elements up to its limit. -/
theorem exists_tagged (A : SparseArray σ ℕ Node) (intArray : List Int32) :
    ∃ l, ListsOdd intArray l ∧
      (runRadixTree A intArray).tagged = ⟨min maxItems l.length, l.take maxItems⟩ := by
  refine ⟨_, (filled_insertAll (A := A) intArray).listsOdd, ?_⟩
  rw [List.length_map, ← List.map_take, ← List.length_take]
  rfl

theorem listsOdd_runXarray (X : SparseArray τ ℕ Node) (intArray : List Int32) :
    ListsOdd intArray (runXarray X intArray).tagged :=
  (filled_storeAll (A := X) intArray).listsOdd

theorem count_tagged (A : SparseArray σ ℕ Node) (intArray : List Int32) :
    (runRadixTree A intArray).tagged.count = min maxItems (oddElements intArray).card := by
  obtain ⟨l, hl, htagged⟩ := exists_tagged A intArray
  rw [htagged, hl.length_eq]

theorem inBounds_iff (A : SparseArray σ ℕ Node) (intArray : List Int32) :
    (runRadixTree A intArray).InBounds ↔ (oddElements intArray).card ≤ resultsSize := by
  rw [RadixRun.InBounds, count_tagged]
  unfold resultsSize maxItems
  omega

theorem same_reports_iff (A : SparseArray σ ℕ Node) (X : SparseArray τ ℕ Node)
    (intArray : List Int32) :
    SameReports A X intArray ↔ (oddElements intArray).card ≤ resultsSize := by
  constructor
  · intro h
    exact (inBounds_iff A intArray).mp h.fits
  · intro hcard
    refine ⟨?_, listsOdd_runXarray X intArray, (inBounds_iff A intArray).mpr hcard⟩
    obtain ⟨l, hl, htagged⟩ := exists_tagged A intArray
    have hlength := hl.length_eq
    rw [htagged, (listsOdd_runXarray X intArray).unique hl]
    apply List.take_of_length_le
    unfold resultsSize maxItems at *
    omega

end Reports

/-- Eleven odd numbers, one more than the array of results has room for. -/
def elevenOdd : List Int32 := [1, 3, 5, 7, 9, 11, 13, 15, 17, 19, 21]

theorem elevenOdd_overflow :
    (runRadixTree finsetArray elevenOdd).tagged.count = 11 ∧
      ¬ SameReports finsetArray finsetArray elevenOdd := by
  have hcard : (oddElements elevenOdd).card = 11 := by decide +kernel
  have hcount : (runRadixTree finsetArray elevenOdd).tagged.count = 11 := by
    rw [count_tagged, hcard]
    rfl
  refine ⟨hcount, ?_⟩
  intro h
  exact absurd h.fits (by rw [hcount]; decide)

end OperatingSystems.Kds
