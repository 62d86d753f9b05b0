import OperatingSystems.Library.DeletionLoop
import Mathlib.Data.List.Count
import Mathlib.Data.List.Nodup
import Mathlib.Data.List.Perm.Basic

/-!
# The nodes and the linked list of kds

`myrbtree`, `mylinkedlist`, `myhashnode` and `mydatanode` hold one value beside their
links. Every run allocates a node for each element of the array, in its order; `addr`
numbers them, so that two nodes with one value are told apart. `kmalloc` is taken to
succeed.

`run_linked_list` adds a node for each element at the head of a list, prints it and
deletes it with `list_for_each_entry_safe`, which has saved the next node before the body
of the loop frees the current one.
-/
namespace OperatingSystems.Kds
open Library

structure Node where
  addr : ℕ
  value : Int32
deriving DecidableEq

/-- The nodes made by `kmalloc` and the assignment of `int_array[i++]`. -/
def newNodes (intArray : List Int32) : List Node := intArray.zipIdx.map fun (v, i) => ⟨i, v⟩

/-- Every allocated node has been freed exactly once. -/
def FreedOnce (intArray : List Int32) (freed : List Node) : Prop :=
  ∀ n ∈ newNodes intArray, freed.count n = 1

theorem newNodes_concat (values : List Int32) (v : Int32) :
    newNodes (values ++ [v]) = newNodes values ++ [⟨values.length, v⟩] := by
  simp [newNodes, List.zipIdx_append]

theorem map_value_newNodes (values : List Int32) : (newNodes values).map Node.value = values := by
  unfold newNodes
  rw [List.map_map]
  exact List.zipIdx_map_fst 0 values

theorem map_addr_newNodes (values : List Int32) :
    (newNodes values).map Node.addr = List.range values.length := by
  unfold newNodes
  rw [List.map_map, List.range_eq_range']
  exact List.zipIdx_map_snd 0 values

theorem newNodes_nodup (values : List Int32) : (newNodes values).Nodup := by
  apply List.Nodup.of_map Node.addr
  rw [map_addr_newNodes]
  exact List.nodup_range

theorem mem_newNodes_value {values : List Int32} {v : Int32} :
    (∃ n ∈ newNodes values, n.value = v) ↔ v ∈ values := by
  rw [← List.mem_map, map_value_newNodes]

section Freed
variable {values : List Int32} {freed : List Node}

theorem freedOnce_of_perm (h : freed.Perm (newNodes values)) : FreedOnce values freed := by
  intro n hn
  rw [h.count_eq]
  exact List.count_eq_one_of_mem (newNodes_nodup values) hn

/-- One of the nodes of each value has been freed. -/
structure OnePerValue (values : List Int32) (freed : List Node) : Prop where
  allocated : ∀ n ∈ freed, n ∈ newNodes values
  nodup : (freed.map Node.value).Nodup
  all : ∀ v ∈ values, ∃ n ∈ freed, n.value = v

/-- Then all nodes have been freed exactly if no value has two. -/
theorem OnePerValue.freedOnce_iff (h : OnePerValue values freed) :
    FreedOnce values freed ↔ values.Nodup := by
  constructor
  · intro hfreed
    have hperm : freed.Perm (newNodes values) := by
      rw [List.perm_ext_iff_of_nodup h.nodup.of_map (newNodes_nodup values)]
      intro n
      constructor
      · exact h.allocated n
      · intro hn
        exact List.count_pos_iff.mp (by rw [hfreed n hn]; exact Nat.one_pos)
    rw [← map_value_newNodes values]
    exact (hperm.map Node.value).nodup_iff.mp h.nodup
  · intro hvalues
    rw [← map_value_newNodes values] at hvalues
    intro n hn
    obtain ⟨m, hm, he⟩ := h.all n.value (mem_newNodes_value.mp ⟨n, hn, rfl⟩)
    have hmn : m = n := List.inj_on_of_nodup_map hvalues (h.allocated m hm) hn he
    rw [hmn] at hm
    exact List.count_eq_one_of_mem h.nodup.of_map hm

end Freed

def listAdd (head : List Node) (mynode : Node) : List Node := mynode :: head

def printLinkedList (head : List Node) : List Int32 := head.map Node.value

/-- The list after the insertion loop. -/
def insertedList (intArray : List Int32) : List Node := (newNodes intArray).foldl listAdd []

def removeLinkedList (head : List Node) : LoopRun (List Node) Node :=
  Container.chain.deleteLoopSafe head head

/-- `printed` and `printedAgain` are the outputs before and after the removal. -/
structure ListRun where
  printed : List Int32
  removal : LoopRun (List Node) Node
  printedAgain : List Int32

def runLinkedList (intArray : List Int32) : ListRun :=
  let myList := insertedList intArray
  let removal := removeLinkedList myList
  ⟨printLinkedList myList, removal, printLinkedList removal.container⟩

theorem insertedList_eq (intArray : List Int32) :
    insertedList intArray = (newNodes intArray).reverse := by
  have hfold : ∀ nodes head : List Node, nodes.foldl listAdd head = nodes.reverse ++ head := by
    intro nodes
    induction nodes with
    | nil => exact fun head => rfl
    | cons n nodes ih =>
        intro head
        rw [List.foldl_cons, ih, List.reverse_cons, List.append_assoc]
        rfl
  rw [insertedList, hfold, List.append_nil]

theorem deleted_runLinkedList (intArray : List Int32) :
    (runLinkedList intArray).removal.deleted.Perm (newNodes intArray) := by
  have hdeleted : (runLinkedList intArray).removal.deleted = insertedList intArray :=
    Container.deleted_deleteLoopSafe
  rw [hdeleted, insertedList_eq]
  exact List.reverse_perm _

end OperatingSystems.Kds
