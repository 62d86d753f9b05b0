import OperatingSystems.Kds.HashTable
import OperatingSystems.Kds.RedBlackTree
import OperatingSystems.Kds.TaggedNumbers

/-!
# Which nodes are freed

The list and the hash table keep a node for each element of the array, and free all of
them. The tree and the radix tree refuse a second node for a value, the XArray gives up
the first one: these runs ignore the results that say so, and free one node for each
value. The run of the radix tree frees nothing for certain once its gang lookup has left
the array of results.

`Primitives` are the containers of the kernel as far as these runs depend on them. In the
removal of the tree `rb_next` of an erased first node is the next one in order.
-/
namespace OperatingSystems.Kds
open Library

structure Primitives (σ τ : Type*) where
  hash : Int32 → Bucket
  hashWalk : Walk Node
  rb : RbOps Node
  treeWalk : Walk Node
  treeGoesOn : ∀ x xs, (∀ y ∈ xs, Node.key x < Node.key y) → treeWalk.resume x xs = xs
  radix : SparseArray σ ℕ Node
  xarray : SparseArray τ ℕ Node

/-- Every run comes to its end, and each node that it has allocated has been freed exactly
once there. -/
structure AllFreedOnce {σ τ : Type*} (k : Primitives σ τ) (intArray : List Int32) : Prop where
  linkedList : FreedOnce intArray (runLinkedList intArray).removal.deleted
  hashTable : FreedOnce intArray (runHashTable k.hash k.hashWalk intArray).final.freed
  redblackTrees : FreedOnce intArray (runRedblackTrees k.rb k.treeWalk intArray).freed
  radixTree : (runRadixTree k.radix intArray).InBounds ∧
    FreedOnce intArray (runRadixTree k.radix intArray).freed
  xarray : FreedOnce intArray (runXarray k.xarray intArray).freed

section Arrays
variable {σ : Type*} {A : SparseArray σ ℕ Node} {s : σ} {values : List Int32}

theorem Filled.tagLoop (h : Filled A values s) :
    (∀ i n, A.load (tagLoop A s values) i = some n → n.index = i ∧ n ∈ newNodes values) ∧
      ∀ v ∈ values, (A.load (tagLoop A s values) (index v)).isSome = true := by
  rw [tagLoop_eq]
  simp only [A.load_markAll]
  exact ⟨fun i n hn => ⟨h.own i n hn, h.allocated i n hn⟩, h.all⟩

/-- The removal loop frees one node for each value. -/
theorem Filled.onePerValue (h : Filled A values s) :
    OnePerValue values (removeLoop A (Kds.tagLoop A s values) values).2 := by
  obtain ⟨hown, hall⟩ := h.tagLoop
  refine ⟨?_, ?_, ?_⟩
  · intro n hn
    obtain ⟨i, -, hi⟩ := A.mem_removeAll.mp hn
    exact (hown i n hi).2
  · have hnodup := A.removeAll_nodup (fun i n hn => (hown i n hn).1) (values.map index)
    apply List.Nodup.of_map index
    rw [List.map_map]
    exact hnodup
  · intro v hv
    obtain ⟨n, hn⟩ := Option.isSome_iff_exists.mp (hall v hv)
    refine ⟨n, A.mem_removeAll.mpr ⟨index v, List.mem_map_of_mem hv, hn⟩, ?_⟩
    exact index_injective (hown _ n hn).1

end Arrays

section Runs
variable {σ τ : Type*} (k : Primitives σ τ) (intArray : List Int32)

theorem onePerValue_runRadixTree : OnePerValue intArray (runRadixTree k.radix intArray).freed :=
  (filled_insertAll intArray).onePerValue

theorem onePerValue_runXarray : OnePerValue intArray (runXarray k.xarray intArray).freed :=
  (filled_storeAll intArray).onePerValue

theorem onePerValue_runRedblackTrees :
    OnePerValue intArray (runRedblackTrees k.rb k.treeWalk intArray).freed := by
  have h := represents_insertedTree k.rb intArray
  have hempty : inorder (removeRbTree k.rb k.treeWalk (insertedTree k.rb intArray)).1 = [] :=
    Container.eraseWalk_all (C := k.rb.container) k.treeGoesOn h.sorted
  have hperm := Container.eraseWalk_perm (C := k.rb.container) (w := k.treeWalk) (fun _ => true)
    (insertedTree k.rb intArray)
  have hfreed : (removeRbTree k.rb k.treeWalk (insertedTree k.rb intArray)).2.Perm
      (inorder (insertedTree k.rb intArray)) := by
    have hleft : k.rb.container.nodes (k.rb.container.eraseWalk k.treeWalk (fun _ => true)
        (insertedTree k.rb intArray)).1 = [] := hempty
    rw [hleft, List.append_nil] at hperm
    exact hperm.symm
  rw [freed_runRedblackTrees]
  refine ⟨?_, ?_, ?_⟩
  · intro n hn
    exact h.allocated n (hfreed.mem_iff.mp hn)
  · have hnodup : (printRbTree (insertedTree k.rb intArray)).Nodup :=
      (pairwise_printRbTree h.sorted).imp Int32.ne_of_lt
    exact (hfreed.map Node.value).nodup_iff.mpr hnodup
  · intro v hv
    obtain ⟨n, hn, he⟩ := List.mem_map.mp ((h.mem_iff v).mpr hv)
    exact ⟨n, hfreed.mem_iff.mpr hn, he⟩

/-- Every node is freed once exactly if no value occurs twice and the odd ones fit into the
array of results. -/
theorem all_freed_once_iff :
    AllFreedOnce k intArray ↔ intArray.Nodup ∧ (oddElements intArray).card ≤ resultsSize := by
  constructor
  · intro h
    constructor
    · exact (onePerValue_runRedblackTrees k intArray).freedOnce_iff.mp h.redblackTrees
    · exact (inBounds_iff k.radix intArray).mp h.radixTree.1
  · rintro ⟨hnodup, hodd⟩
    exact {
      linkedList := freedOnce_of_perm (deleted_runLinkedList intArray)
      hashTable := freedOnce_of_perm (freed_runHashTable k.hash k.hashWalk intArray)
      redblackTrees := (onePerValue_runRedblackTrees k intArray).freedOnce_iff.mpr hnodup
      radixTree := ⟨(inBounds_iff k.radix intArray).mpr hodd,
        (onePerValue_runRadixTree k intArray).freedOnce_iff.mpr hnodup⟩
      xarray := (onePerValue_runXarray k intArray).freedOnce_iff.mpr hnodup }

end Runs

/-- One bucket, no balancing and walks that go on behind an erased node. -/
def plainPrimitives : Primitives (FinsetArray ℕ Node) (FinsetArray ℕ Node) where
  hash _ := ⟨0, hashSize_pos⟩
  hashWalk := .through
  rb := .unbalanced
  treeWalk := .through
  treeGoesOn _ _ _ := rfl
  radix := finsetArray
  xarray := finsetArray

/-- Of two nodes for the value 1 one is freed, by the tree, the radix tree and the XArray,
and eleven odd values are too many for the radix tree. -/
theorem duplicate_leaked :
    (runRedblackTrees plainPrimitives.rb plainPrimitives.treeWalk [1, 1]).freed = [⟨0, 1⟩] ∧
      (runRadixTree plainPrimitives.radix [1, 1]).freed = [⟨0, 1⟩] ∧
      (runXarray plainPrimitives.xarray [1, 1]).freed = [⟨1, 1⟩] ∧
      ¬ AllFreedOnce plainPrimitives [1, 1] ∧ ¬ AllFreedOnce plainPrimitives elevenOdd := by
  have htree : (runRedblackTrees plainPrimitives.rb plainPrimitives.treeWalk [1, 1]).freed =
      [⟨0, 1⟩] := by decide +kernel
  refine ⟨htree, by decide +kernel, by decide +kernel, ?_, ?_⟩
  · intro h
    have hsecond := h.redblackTrees ⟨1, 1⟩ (by decide)
    rw [htree] at hsecond
    exact absurd hsecond (by decide)
  · intro h
    have hodd := (inBounds_iff plainPrimitives.radix elevenOdd).mp h.radixTree.1
    exact absurd hodd (by decide +kernel)

end OperatingSystems.Kds
