import Mathlib.Data.Finset.Sort
import Mathlib.Data.List.Induction
import Mathlib.Tactic.SplitIfs

/-!
# Sparse arrays with marks

Entries at the indices of a linear order, most of which are empty. An entry can be
stored at an index, whether that is occupied or not, and taken away; an occupied index
can be marked, and loses its mark with its entry. A walk visits the occupied indices
in ascending order. How an array is laid out is left open: `SparseArray` says what a
load sees after each operation, and `finsetArray` is one layout.

An insertion that refuses an occupied index keeps the first entry of each index, and
one that replaces keeps the last.
-/
namespace OperatingSystems.Library

variable {σ ι α : Type*} [LinearOrder ι]

structure SparseArray (σ ι α : Type*) [LinearOrder ι] where
  empty : σ
  load : σ → ι → Option α
  marked : σ → ι → Bool
  put : σ → ι → Option α → σ
  mark : σ → ι → σ
  walk : σ → List ι
  load_empty : ∀ i, load empty i = none
  marked_empty : ∀ i, marked empty i = false
  load_put : ∀ s i e j, load (put s i e) j = if j = i then e else load s j
  marked_put : ∀ s i e j, marked (put s i e) j = if j = i ∧ e.isNone then false else marked s j
  load_mark : ∀ s i j, load (mark s i) j = load s j
  marked_mark : ∀ s i j,
    marked (mark s i) j = if j = i ∧ (load s i).isSome then true else marked s j
  walk_ascending : ∀ s, (walk s).Pairwise (· < ·)
  mem_walk : ∀ s i, i ∈ walk s ↔ (load s i).isSome

namespace SparseArray
variable (A : SparseArray σ ι α)

/-- An occupied index is left as it is; the result says whether the entry was stored. -/
def insertNew (s : σ) (i : ι) (x : α) : σ × Bool :=
  if (A.load s i).isSome then (s, false) else (A.put s i (some x), true)

/-- The entry of an index is taken away and returned. -/
def remove (s : σ) (i : ι) : σ × Option α := (A.put s i none, A.load s i)

def markedIndices (s : σ) : List ι := (A.walk s).filter (A.marked s)

def markedEntries (s : σ) : List α := (A.markedIndices s).filterMap (A.load s)

variable {A} {s : σ} {i j : ι} {x : α}

theorem load_insertNew : A.load (A.insertNew s i x).1 j =
    if j = i ∧ (A.load s i).isNone then some x else A.load s j := by
  unfold insertNew
  cases hl : A.load s i with
  | none =>
      rw [Option.isSome_none, if_neg Bool.false_ne_true]
      dsimp only
      rw [A.load_put]
      simp only [Option.isNone_none, and_true]
  | some y =>
      rw [Option.isSome_some, if_pos rfl]
      simp only [Option.isNone_some, Bool.false_eq_true, and_false, if_false]

theorem marked_put_some : A.marked (A.put s i (some x)) j = A.marked s j := by
  rw [A.marked_put]
  simp only [Option.isNone_some, Bool.false_eq_true, and_false, if_false]

theorem marked_insertNew : A.marked (A.insertNew s i x).1 j = A.marked s j := by
  unfold insertNew
  split_ifs with hl
  · rfl
  · exact marked_put_some

variable (A) (index : α → ι)

/-- Every entry is inserted at its own index, unless that is occupied. -/
def insertAll (xs : List α) : σ :=
  xs.foldl (fun s x => (A.insertNew s (index x) x).1) A.empty

/-- Every entry is stored at its own index. -/
def storeAll (xs : List α) : σ := xs.foldl (fun s x => A.put s (index x) (some x)) A.empty

variable {A} {index}

theorem insertAll_concat (xs : List α) (x : α) :
    A.insertAll index (xs ++ [x]) = (A.insertNew (A.insertAll index xs) (index x) x).1 := by
  rw [insertAll, List.foldl_append]
  rfl

theorem storeAll_concat (xs : List α) (x : α) :
    A.storeAll index (xs ++ [x]) = A.put (A.storeAll index xs) (index x) (some x) := by
  rw [storeAll, List.foldl_append]
  rfl

theorem load_insertAll (xs : List α) (i : ι) :
    A.load (A.insertAll index xs) i = xs.find? fun x => index x = i := by
  induction xs using List.reverseRecOn with
  | nil => exact A.load_empty i
  | append_singleton xs x ih =>
      rw [insertAll_concat, load_insertNew, List.find?_append, ← ih]
      by_cases hi : i = index x
      · subst hi
        cases A.load (A.insertAll index xs) (index x) with
        | none => simp
        | some y => simp
      · rw [if_neg fun h => hi h.1]
        simp [Ne.symm hi]

theorem load_storeAll (xs : List α) (i : ι) :
    A.load (A.storeAll index xs) i = xs.reverse.find? fun x => index x = i := by
  induction xs using List.reverseRecOn with
  | nil => exact A.load_empty i
  | append_singleton xs x ih =>
      rw [storeAll_concat, A.load_put, List.reverse_append, List.reverse_singleton,
        List.singleton_append, List.find?_cons, ih]
      by_cases hi : i = index x
      · simp [hi]
      · simp [hi, Ne.symm hi]

theorem marked_insertAll (xs : List α) (i : ι) : A.marked (A.insertAll index xs) i = false := by
  induction xs using List.reverseRecOn with
  | nil => exact A.marked_empty i
  | append_singleton xs x ih => rw [insertAll_concat, marked_insertNew, ih]

theorem marked_storeAll (xs : List α) (i : ι) : A.marked (A.storeAll index xs) i = false := by
  induction xs using List.reverseRecOn with
  | nil => exact A.marked_empty i
  | append_singleton xs x ih => rw [storeAll_concat, marked_put_some, ih]

variable (A) in
def markAll (s : σ) (is : List ι) : σ := is.foldl A.mark s

theorem load_markAll (s : σ) (is : List ι) : A.load (A.markAll s is) j = A.load s j := by
  induction is generalizing s with
  | nil => rfl
  | cons i is ih => exact (ih (A.mark s i)).trans (A.load_mark s i j)

theorem marked_markAll (s : σ) (is : List ι) :
    A.marked (A.markAll s is) j = true ↔
      A.marked s j = true ∨ j ∈ is ∧ (A.load s j).isSome = true := by
  induction is generalizing s with
  | nil => simp [markAll]
  | cons i is ih =>
      have hcons : A.markAll s (i :: is) = A.markAll (A.mark s i) is := rfl
      rw [hcons, ih, A.marked_mark, A.load_mark, List.mem_cons]
      by_cases hi : j = i
      · subst hi
        by_cases hl : (A.load s j).isSome = true
        · simp [hl]
        · simp [hl]
      · simp [hi]

theorem mem_markedIndices :
    i ∈ A.markedIndices s ↔ (A.load s i).isSome = true ∧ A.marked s i = true := by
  rw [markedIndices, List.mem_filter, A.mem_walk]

theorem markedIndices_ascending (s : σ) : (A.markedIndices s).Pairwise (· < ·) :=
  (A.walk_ascending s).sublist List.filter_sublist

/-- Entries that know their index are reported in the order of the walk. -/
theorem map_markedEntries {index : α → ι} (h : ∀ i x, A.load s i = some x → index x = i) :
    (A.markedEntries s).map index = A.markedIndices s := by
  have hsome : ∀ i ∈ A.markedIndices s, (A.load s i).isSome = true := fun i hi =>
    (mem_markedIndices.mp hi).1
  unfold markedEntries
  generalize A.markedIndices s = is at hsome ⊢
  induction is with
  | nil => rfl
  | cons i is ih =>
      obtain ⟨x, hx⟩ := Option.isSome_iff_exists.mp (hsome i List.mem_cons_self)
      rw [List.filterMap_cons_some hx, List.map_cons, h i x hx,
        ih fun j hj => hsome j (List.mem_cons_of_mem i hj)]

/-- Takes the entries of the given indices away, one after the other, and returns them. -/
def removeAll (A : SparseArray σ ι α) : σ → List ι → σ × List α
  | s, [] => (s, [])
  | s, i :: is =>
      let (s, x) := A.remove s i
      let (s, xs) := A.removeAll s is
      (s, x.toList ++ xs)

theorem mem_removeAll {is : List ι} :
    x ∈ (A.removeAll s is).2 ↔ ∃ i ∈ is, A.load s i = some x := by
  induction is generalizing s with
  | nil => simp [removeAll]
  | cons i is ih =>
      have hcons : (A.removeAll s (i :: is)).2 =
          (A.load s i).toList ++ (A.removeAll (A.put s i none) is).2 := rfl
      rw [hcons, List.mem_append, Option.mem_toList, ih]
      constructor
      · rintro (hx | ⟨k, hk, hx⟩)
        · exact ⟨i, List.mem_cons_self, hx⟩
        · rw [A.load_put] at hx
          split_ifs at hx with hki
          exact ⟨k, List.mem_cons_of_mem i hk, hx⟩
      · rintro ⟨k, hk, hx⟩
        by_cases hki : k = i
        · subst hki
          exact .inl hx
        · right
          refine ⟨k, (List.mem_cons.mp hk).resolve_left hki, ?_⟩
          rwa [A.load_put, if_neg hki]

/-- An index gives up one entry at most. -/
theorem removeAll_nodup {index : α → ι} (h : ∀ i x, A.load s i = some x → index x = i)
    (is : List ι) : ((A.removeAll s is).2.map index).Nodup := by
  induction is generalizing s with
  | nil => exact List.nodup_nil
  | cons i is ih =>
      have hcons : (A.removeAll s (i :: is)).2 =
          (A.load s i).toList ++ (A.removeAll (A.put s i none) is).2 := rfl
      have hput : ∀ j x, A.load (A.put s i none) j = some x → j ≠ i ∧ A.load s j = some x := by
        intro j x hx
        rw [A.load_put] at hx
        split_ifs at hx with hj
        exact ⟨hj, hx⟩
      have hrest := ih fun j x hx => h j x (hput j x hx).2
      rw [hcons]
      cases hl : A.load s i with
      | none => exact hrest
      | some y =>
          rw [Option.toList_some, List.singleton_append, List.map_cons, List.nodup_cons]
          refine ⟨?_, hrest⟩
          intro hmem
          obtain ⟨z, hz, he⟩ := List.mem_map.mp hmem
          obtain ⟨j, -, hj⟩ := mem_removeAll.mp hz
          obtain ⟨hne, hload⟩ := hput j z hj
          apply hne
          rw [← h j z hload, he, h i y hl]

end SparseArray

/-- The occupied indices, the entries and the marks. -/
structure FinsetArray (ι α : Type*) where
  keys : Finset ι
  entry : ι → Option α
  marks : ι → Bool
  mem_keys : ∀ i, i ∈ keys ↔ (entry i).isSome

def FinsetArray.put (s : FinsetArray ι α) (i : ι) (e : Option α) : FinsetArray ι α where
  keys := if e.isSome then insert i s.keys else s.keys.erase i
  entry := Function.update s.entry i e
  marks j := if j = i ∧ e.isNone then false else s.marks j
  mem_keys := by
    intro j
    rw [Function.update_apply]
    cases e with
    | none =>
        by_cases hj : j = i
        · simp [hj]
        · simp [hj, s.mem_keys]
    | some x =>
        by_cases hj : j = i
        · simp [hj]
        · simp [hj, s.mem_keys]

def finsetArray : SparseArray (FinsetArray ι α) ι α where
  empty := ⟨∅, fun _ => none, fun _ => false, by simp⟩
  load s := s.entry
  marked s := s.marks
  put s := s.put
  mark s i := { s with marks := fun j => if j = i ∧ (s.entry i).isSome then true else s.marks j }
  walk s := s.keys.sort
  load_empty _ := rfl
  marked_empty _ := rfl
  load_put s i e j := Function.update_apply s.entry i e j
  marked_put _ _ _ _ := rfl
  load_mark _ _ _ := rfl
  marked_mark _ _ _ := rfl
  walk_ascending s := (s.keys.sortedLT_sort).pairwise
  mem_walk s i := by rw [Finset.mem_sort, s.mem_keys]

end OperatingSystems.Library
