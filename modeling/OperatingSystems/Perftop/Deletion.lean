import OperatingSystems.Kds.HashTable
import OperatingSystems.Kds.RedBlackTree
import OperatingSystems.Perftop.Lifecycle

/-!
# Deleting while iterating

The deletion loops of perftop turn by turn, and those of kds beside them. All but the one
of `run_linked_list` free the node they stand on and then ask it for the next one, so
that they are right only if they find nothing to delete. The loop that is to empty the
hash table of perftop moreover looks into one bucket only.
-/
namespace OperatingSystems.Perftop
open Library

section Loops
variable {β : Type*} (k : Kernel β)

def removeHashTableLoop (s : State β) (number : ℤ) (fuel : ℕ) :
    LoopRun (List HashNode) HashNode :=
  Container.chain.deleteLoop k.hashWalk (fun curr : HashNode => curr.value = number) fuel
    (s.myhashtable (k.hash number)) (s.myhashtable (k.hash number))

def removeHashTableAllLoop (s : State β) (fuel : ℕ) : LoopRun (List HashNode) HashNode :=
  Container.chain.deleteLoop k.hashWalk (fun _ : HashNode => true) fuel
    (s.myhashtable (k.hash 0)) (s.myhashtable (k.hash 0))

def removeRbTreeAllLoop (s : State β) (fuel : ℕ) : LoopRun (BinaryTree RbNode) RbNode :=
  k.rb.container.deleteLoop k.treeWalk (fun _ : RbNode => true) fuel s.myroot (inorder s.myroot)

def removeRbTreeLoop (s : State β) (pid : ℤ) (fuel : ℕ) : LoopRun (BinaryTree RbNode) RbNode :=
  k.rb.container.deleteLoop k.treeWalk (fun temp : RbNode => temp.value = pid) fuel s.myroot
    (inorder s.myroot)

theorem removeHashTable_eq_loop [DecidableEq β] (s : State β) (number : ℤ) :
    ∃ fuel, (removeHashTableLoop k s number fuel).ended = true ∧
      removeHashTable k s number = { s with
        myhashtable := Function.update s.myhashtable (k.hash number)
          (removeHashTableLoop k s number fuel).container
        freed := s.freed ++ (removeHashTableLoop k s number fuel).deleted.map HashNode.addr } := by
  obtain ⟨fuel, hended, he⟩ := Container.exists_eraseWalk Container.chain k.hashWalk
    (fun curr : HashNode => curr.value = number) (s.myhashtable (k.hash number))
  refine ⟨fuel, hended, ?_⟩
  unfold removeHashTable
  rw [← he]
  rfl

theorem removeHashTableAll_eq_loop [DecidableEq β] (s : State β) :
    ∃ fuel, (removeHashTableAllLoop k s fuel).ended = true ∧
      removeHashTableAll k s = { s with
        myhashtable := Function.update s.myhashtable (k.hash 0)
          (removeHashTableAllLoop k s fuel).container
        freed := s.freed ++ (removeHashTableAllLoop k s fuel).deleted.map HashNode.addr } := by
  obtain ⟨fuel, hended, he⟩ := Container.exists_eraseWalk Container.chain k.hashWalk
    (fun _ : HashNode => true) (s.myhashtable (k.hash 0))
  refine ⟨fuel, hended, ?_⟩
  unfold removeHashTableAll
  rw [← he]
  rfl

theorem removeRbTreeAll_eq_loop (s : State β) :
    ∃ fuel, (removeRbTreeAllLoop k s fuel).ended = true ∧
      removeRbTreeAll k s = { s with
        myroot := (removeRbTreeAllLoop k s fuel).container
        freed := s.freed ++ (removeRbTreeAllLoop k s fuel).deleted.map RbNode.addr } := by
  obtain ⟨fuel, hended, he⟩ := Container.exists_eraseWalk k.rb.container k.treeWalk
    (fun _ : RbNode => true) s.myroot
  refine ⟨fuel, hended, ?_⟩
  unfold removeRbTreeAll
  rw [← he]
  rfl

theorem removeRbTree_eq_loop (s : State β) (pid : ℤ) :
    ∃ fuel, (removeRbTreeLoop k s pid fuel).ended = true ∧
      removeRbTree k s pid = { s with
        myroot := (removeRbTreeLoop k s pid fuel).container
        freed := s.freed ++ (removeRbTreeLoop k s pid fuel).deleted.map RbNode.addr } := by
  obtain ⟨fuel, hended, he⟩ := Container.exists_eraseWalk k.rb.container k.treeWalk
    (fun temp : RbNode => temp.value = pid) s.myroot
  refine ⟨fuel, hended, ?_⟩
  unfold removeRbTree
  rw [← he]
  rfl

end Loops

/-- The primitives of both programs. -/
structure Primitives (β : Type*) where
  hash : Int32 → Kds.Bucket
  hashWalk : Walk Kds.Node
  rb : RbOps Kds.Node
  treeWalk : Walk Kds.Node
  perftop : Kernel β

/-- A loop with the contents of its container and the value it is to delete. -/
inductive DeletionLoop (β : Type*) where
  | kdsRemoveRbTree (mytree : BinaryTree Kds.Node)
  | kdsRemoveHashTable (myhashtable : Kds.Bucket → List Kds.Node) (number : Int32)
  | kdsRunLinkedList (intArray : List Int32)
  | removeHashTable (s : State β) (number : ℤ)
  | removeHashTableAll (s : State β)
  | removeRbTreeAll (s : State β)
  | removeRbTree (s : State β) (pid : ℤ)

namespace DeletionLoop
variable {β : Type*}

/-- The loop asks no deleted node, and deletes the nodes of its container that it selects. -/
def Proper (k : Primitives β) : DeletionLoop β → Prop
  | kdsRemoveRbTree mytree =>
      Deletes (Kds.removeRbTreeLoop k.rb k.treeWalk mytree) fun n => n ∈ inorder mytree
  | kdsRemoveHashTable myhashtable number =>
      Deletes (Kds.removeHashTableLoop k.hash k.hashWalk myhashtable number) fun n =>
        n.value = number ∧ ∃ b, n ∈ myhashtable b
  | kdsRunLinkedList intArray =>
      Deletes (fun _ => Kds.removeLinkedList (Kds.insertedList intArray)) fun n =>
        n ∈ Kds.insertedList intArray
  | removeHashTable s number =>
      Deletes (removeHashTableLoop k.perftop s number) fun n =>
        n.value = number ∧ ∃ b, n ∈ s.myhashtable b
  | removeHashTableAll s =>
      Deletes (removeHashTableAllLoop k.perftop s) fun n => ∃ b, n ∈ s.myhashtable b
  | removeRbTreeAll s =>
      Deletes (removeRbTreeAllLoop k.perftop s) fun n => n ∈ inorder s.myroot
  | removeRbTree s pid =>
      Deletes (removeRbTreeLoop k.perftop s pid) fun n => n.value = pid ∧ n ∈ inorder s.myroot

/-- The loop saves the next node before its body. -/
def SavesNext : DeletionLoop β → Prop
  | kdsRunLinkedList _ => True
  | _ => False

/-- The container has no node that the loop is to delete. -/
def NothingToDelete : DeletionLoop β → Prop
  | kdsRemoveRbTree mytree => ∀ n, n ∉ inorder mytree
  | kdsRemoveHashTable myhashtable number => ∀ b, ∀ n ∈ myhashtable b, n.value ≠ number
  | kdsRunLinkedList intArray => intArray = []
  | removeHashTable s number => ∀ b, ∀ n ∈ s.myhashtable b, n.value ≠ number
  | removeHashTableAll s => ∀ b, ∀ n, n ∉ s.myhashtable b
  | removeRbTreeAll s => ∀ n, n ∉ inorder s.myroot
  | removeRbTree s pid => ∀ n ∈ inorder s.myroot, n.value ≠ pid

theorem insertedList_nodup (intArray : List Int32) : (Kds.insertedList intArray).Nodup := by
  rw [Kds.insertedList_eq]
  exact List.nodup_reverse.mpr (Kds.newNodes_nodup intArray)

theorem none_iff {ν α : Type*} {value : α → ν} {number : ν} {γ : Type*} {table : γ → List α} :
    (∀ n, ¬ (value n = number ∧ ∃ b, n ∈ table b)) ↔ ∀ b, ∀ n ∈ table b, value n ≠ number := by
  constructor
  · intro h b n hn he
    exact h n ⟨he, b, hn⟩
  · rintro h n ⟨he, b, hn⟩
    exact h b n hn he

/-- A loop is right exactly if it saves the next node or has nothing to delete. -/
theorem proper_iff (k : Primitives β) (loop : DeletionLoop β) :
    loop.Proper k ↔ loop.SavesNext ∨ loop.NothingToDelete := by
  cases loop with
  | kdsRemoveRbTree mytree =>
      simp only [SavesNext, false_or]
      exact Container.deletes_iff (C := k.rb.container) fun n hn _ => hn
  | kdsRemoveHashTable myhashtable number =>
      simp only [SavesNext, false_or]
      rw [NothingToDelete, ← none_iff]
      exact Container.deletes_iff (C := Container.chain) fun n hn hsel =>
        ⟨of_decide_eq_true hsel, _, hn⟩
  | kdsRunLinkedList intArray =>
      have hproper : Deletes (fun _ => Kds.removeLinkedList (Kds.insertedList intArray)) fun n =>
          n ∈ Kds.insertedList intArray :=
        Container.deletes_deleteLoopSafe (C := Container.chain) (insertedList_nodup intArray)
      exact iff_of_true hproper (.inl trivial)
  | removeHashTable s number =>
      simp only [SavesNext, false_or]
      rw [NothingToDelete, ← none_iff]
      exact Container.deletes_iff (C := Container.chain) fun n hn hsel =>
        ⟨of_decide_eq_true hsel, _, hn⟩
  | removeHashTableAll s =>
      have hnone : (∀ n, ¬ ∃ b, n ∈ s.myhashtable b) ↔ ∀ b, ∀ n, n ∉ s.myhashtable b := by
        simp only [not_exists]
        exact forall_comm
      simp only [SavesNext, false_or]
      rw [NothingToDelete, ← hnone]
      exact Container.deletes_iff (C := Container.chain) fun n hn _ => ⟨_, hn⟩
  | removeRbTreeAll s =>
      simp only [SavesNext, false_or]
      exact Container.deletes_iff (C := k.perftop.rb.container) fun n hn _ => hn
  | removeRbTree s pid =>
      have hnone : (∀ n, ¬ (n.value = pid ∧ n ∈ inorder s.myroot)) ↔
          ∀ n ∈ inorder s.myroot, n.value ≠ pid := by
        simp only [not_and]
        exact forall_congr' fun n => imp_not_comm
      simp only [SavesNext, false_or]
      rw [NothingToDelete, ← hnone]
      exact Container.deletes_iff (C := k.perftop.rb.container) fun n hn hsel =>
        ⟨of_decide_eq_true hsel, hn⟩

/-- A single bucket, an unbalanced tree, and walks that find nothing after a deletion. -/
def stoppingPrimitives : Primitives Unit where
  hash _ := ⟨0, Kds.hashSize_pos⟩
  hashWalk := .stop
  rb := .unbalanced
  treeWalk := .stop
  perftop := Perftop.singleBucket

/-- The only node of a tree is freed and then asked for the next one. -/
theorem kdsRemoveRbTree_single :
    let tree : BinaryTree Kds.Node := .node ⟨0, 7⟩ .nil .nil
    (Kds.removeRbTreeLoop .unbalanced .stop tree 1).events =
        [.erase ⟨0, 7⟩, .successor ⟨0, 7⟩] ∧
      ¬ (kdsRemoveRbTree tree).Proper stoppingPrimitives := by
  intro tree
  have hevents : (Kds.removeRbTreeLoop .unbalanced .stop tree 1).events =
      [.erase ⟨0, 7⟩, .successor ⟨0, 7⟩] := rfl
  refine ⟨hevents, ?_⟩
  intro hproper
  have hsafe : Safe ∅ (Kds.removeRbTreeLoop .unbalanced .stop tree 1).events := hproper.safe 1
  rw [hevents] at hsafe
  exact hsafe.1 (Set.mem_insert _ ∅)

end DeletionLoop

end OperatingSystems.Perftop
