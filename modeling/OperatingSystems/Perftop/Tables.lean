import OperatingSystems.Library.SearchTree
import Mathlib.Data.Int.Notation
import Mathlib.Data.Nat.Basic
import Mathlib.Logic.Function.Basic

/-!
# The tables of perftop

Part 2 of the profiler keeps the time a task was put on the CPU in a hash table
and the accumulated time of each task in a red-black tree. The tree is ordered by
that time but searched by pid.

A bucket is a list of nodes with the newest first. The bucket function, the tree
primitives of the kernel and the way a walk goes on from a node that it has just
freed are parameters: `hash`, `rb`, `hashWalk` and `treeWalk`. An address is used
once, so that a walk may answer differently each time. `kmalloc` is taken to
succeed, and a counter of type `atomic_t` wraps like an `int`.
-/
namespace OperatingSystems.Perftop
open Library

structure HashNode where
  addr : ℕ
  value : ℤ
  tsc : UInt64
deriving DecidableEq

structure RbNode where
  addr : ℕ
  value : ℤ
  tsc : UInt64
deriving DecidableEq

/-- The comparison of two `unsigned long long` is that of their values. -/
def RbNode.key (n : RbNode) : ℕ := n.tsc.toNat

structure Kernel (β : Type*) where
  hash : ℤ → β
  rb : RbOps RbNode
  hashWalk : Walk HashNode
  treeWalk : Walk RbNode

/-- `allocated` nodes were allocated, with the addresses below it. -/
structure State (β : Type*) where
  myhashtable : β → List HashNode
  myroot : BinaryTree RbNode
  preCount : BitVec 32
  postCount : BitVec 32
  contextSwitchCount : BitVec 32
  allocated : ℕ
  freed : List ℕ

variable {β : Type*} [DecidableEq β] {Task : Type*} [DecidableEq Task]

def State.init : State β := ⟨fun _ => [], .nil, 0, 0, 0, 0, []⟩

section Operations
variable (k : Kernel β)

def lookupHashTable (s : State β) (number : ℤ) : UInt64 :=
  match (s.myhashtable (k.hash number)).find? fun curr => curr.value = number with
  | some curr => curr.tsc
  | none => 0

def removeHashTable (s : State β) (number : ℤ) : State β :=
  let (bucket, erased) := Container.chain.eraseWalk k.hashWalk
    (fun curr : HashNode => curr.value = number) (s.myhashtable (k.hash number))
  { s with
    myhashtable := Function.update s.myhashtable (k.hash number) bucket
    freed := s.freed ++ erased.map HashNode.addr }

def insertHashTable (s : State β) (pid : ℤ) (inputTsc : UInt64) : State β :=
  let s := removeHashTable k s pid
  { s with
    myhashtable := Function.update s.myhashtable (k.hash pid)
      (⟨s.allocated, pid, inputTsc⟩ :: s.myhashtable (k.hash pid))
    allocated := s.allocated + 1 }

/-- The new root, and 1 if the node was linked. -/
def insertRbTree (root : BinaryTree RbNode) (newNode : RbNode) : BinaryTree RbNode × ℤ :=
  match link RbNode.key newNode root with
  | some root => (k.rb.insertColor root newNode, 1)
  | none => (root, 0)

def removeRbTree (s : State β) (pid : ℤ) : State β :=
  let (root, erased) := k.rb.container.eraseWalk k.treeWalk
    (fun temp : RbNode => temp.value = pid) s.myroot
  { s with
    myroot := root
    freed := s.freed ++ erased.map RbNode.addr }

/-- The result of `insert_rb_tree` is ignored, so a rejected node is in no table. -/
def insertRedblackTrees (s : State β) (pid : ℤ) (tsc : UInt64) : State β :=
  { s with
    myroot := (insertRbTree k s.myroot ⟨s.allocated, pid, tsc⟩).1
    allocated := s.allocated + 1 }

def lookupRbTree (s : State β) (pid : ℤ) : UInt64 :=
  match (inorder s.myroot).find? fun temp => temp.value = pid with
  | some temp => temp.tsc
  | none => 0

/-- `none` stands for the result 1, after which the return handler is not run;
otherwise the private data of the probed call. -/
def entryPickNextFair (currentMm : Bool) (prev data : Option Task) (s : State β) :
    Option (Option Task) × State β :=
  if currentMm then (some (prev.or data), { s with preCount := s.preCount + 1 })
  else (none, s)

/-- The part of the return handler under `if (old != 0)`. -/
def closeTurn (s : State β) (prev : ℤ) (curr old : UInt64) : State β :=
  let s := removeHashTable k s prev
  let sum := lookupRbTree s prev
  let sum := sum + curr - old
  let s := removeRbTree k s prev
  insertRedblackTrees k s prev sum

/-- The part for `prev != next`; `curr` is the result of `rdtsc`. -/
def switchTables (s : State β) (prev next : ℤ) (curr : UInt64) : State β :=
  let old := lookupHashTable k s prev
  let s := if old ≠ 0 then closeTurn k s prev curr old else s
  let s := insertHashTable k s next curr
  { s with contextSwitchCount := s.contextSwitchCount + 1 }

def retPickNextFair (pid : Task → ℤ) (dataPrev next : Option Task) (curr : UInt64)
    (s : State β) : State β :=
  let s := { s with postCount := s.postCount + 1 }
  match dataPrev, next with
  | some prev, some next => if prev ≠ next then switchTables k s (pid prev) (pid next) curr else s
  | _, _ => s

/-- A completed event of the return probe. -/
structure Event (Task : Type*) where
  prev : Option Task
  next : Option Task
  curr : UInt64

def Event.handle (pid : Task → ℤ) (s : State β) (e : Event Task) : State β :=
  retPickNextFair k pid e.prev e.next e.curr s

/-- The tables after the events, from the empty ones. -/
def runEvents (pid : Task → ℤ) (evs : List (Event Task)) : State β :=
  evs.foldl (Event.handle k pid) State.init

theorem runEvents_concat (pid : Task → ℤ) (evs : List (Event Task)) (e : Event Task) :
    runEvents k pid (evs ++ [e]) = Event.handle k pid (runEvents k pid evs) e := by
  rw [runEvents, List.foldl_append]
  rfl

end Operations

/-- One bucket, no balancing, and walks that end at an erased node. -/
def singleBucket : Kernel Unit := ⟨fun _ => (), .unbalanced, .stop, .stop⟩

end OperatingSystems.Perftop
