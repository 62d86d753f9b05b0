import OperatingSystems.Kds.Nodes
import OperatingSystems.Library.DeletionLoop
import OperatingSystems.Library.SearchTree
import Mathlib.Data.List.Induction

/-!
# The red-black tree of kds

`insert_rb_tree` goes left for a smaller and right for a greater value and hangs the new
node where the descent ends. A value that is there already is refused with 0, which
`run_redblack_trees` ignores. `lookup_rb_tree` returns the number that it has found or
-1, and its caller takes every negative result for a number that is not there: this is
wrong for the negative numbers of the tree.

The rotations and the answer of `rb_next` for an erased node are parameters.
-/
namespace OperatingSystems.Kds
open Library

/-- The comparison of two `int` values is that of the integers. -/
def Node.key (n : Node) : ℤ := n.value.toInt

def lookupRbTree : BinaryTree Node → Int32 → Int32
  | .nil, _ => -1
  | .node this left right, number =>
      if number < this.value then lookupRbTree left number
      else if number > this.value then lookupRbTree right number
      else number

/-- The values printed, from `rb_first` on. -/
def printRbTree (mytree : BinaryTree Node) : List Int32 := (inorder mytree).map Node.value

/-- How `run_redblack_trees` reads a result of the lookup. -/
def Found (root : BinaryTree Node) (number : Int32) : Prop := ¬ lookupRbTree root number < 0

/-- The outputs of the printing, the numbers reported as not found and the freed nodes. -/
structure RbRun where
  myroot : BinaryTree Node
  printed : List (List Int32)
  notFound : List Int32
  freed : List Node

def RbRun.lookup (s : RbRun) (number : Int32) : RbRun :=
  if lookupRbTree s.myroot number < 0 then { s with notFound := s.notFound ++ [number] } else s

section Operations
variable (rb : RbOps Node)

/-- The new root, and 1 if the node was linked. -/
def insertRbTree (root : BinaryTree Node) (newNode : Node) : BinaryTree Node × ℤ :=
  match link Node.key newNode root with
  | some root => (rb.insertColor root newNode, 1)
  | none => (root, 0)

/-- The emptied tree and the freed nodes; `w` answers for an erased node. -/
def removeRbTree (w : Walk Node) (mytree : BinaryTree Node) : BinaryTree Node × List Node :=
  rb.container.eraseWalk w (fun _ => true) mytree

/-- The removal turn by turn: `for (node = rb_first(mytree); node; node = rb_next(node))`, erasing
and freeing each. -/
def removeRbTreeLoop (w : Walk Node) (mytree : BinaryTree Node) (fuel : ℕ) :
    LoopRun (BinaryTree Node) Node :=
  rb.container.deleteLoop w (fun _ => true) fuel mytree (inorder mytree)

theorem removeRbTree_eq_loop (w : Walk Node) (mytree : BinaryTree Node) :
    ∃ fuel, (removeRbTreeLoop rb w mytree fuel).ended = true ∧
      removeRbTree rb w mytree = ((removeRbTreeLoop rb w mytree fuel).container,
        (removeRbTreeLoop rb w mytree fuel).deleted) := by
  obtain ⟨fuel, hended, he⟩ := Container.exists_eraseWalk rb.container w (fun _ => true) mytree
  exact ⟨fuel, hended, he.symm⟩

def RbRun.insert (s : RbRun) (mynode : Node) : RbRun :=
  let root := (insertRbTree rb s.myroot mynode).1
  { s with myroot := root, printed := s.printed ++ [printRbTree root] }

def runRedblackTrees (w : Walk Node) (intArray : List Int32) : RbRun :=
  let s : RbRun := ⟨.nil, [printRbTree .nil], [], []⟩
  let s := (newNodes intArray).foldl (RbRun.insert rb) s
  let s := intArray.foldl RbRun.lookup s
  let (myroot, freed) := removeRbTree rb w s.myroot
  ⟨myroot, s.printed ++ [printRbTree myroot], s.notFound, freed⟩

/-- The tree after the insertion loop. -/
def insertedTree (intArray : List Int32) : BinaryTree Node :=
  (newNodes intArray).foldl (fun root n => (insertRbTree rb root n).1) .nil

theorem insertedTree_concat (values : List Int32) (v : Int32) :
    insertedTree rb (values ++ [v]) =
      (insertRbTree rb (insertedTree rb values) ⟨values.length, v⟩).1 := by
  rw [insertedTree, newNodes_concat, List.foldl_append]
  rfl

theorem myroot_foldl_insert (nodes : List Node) (s : RbRun) :
    (nodes.foldl (RbRun.insert rb) s).myroot =
      nodes.foldl (fun root n => (insertRbTree rb root n).1) s.myroot := by
  induction nodes generalizing s with
  | nil => rfl
  | cons n nodes ih => exact ih (s.insert rb n)

end Operations

theorem mem_printRbTree {t : BinaryTree Node} {v : Int32} :
    v ∈ printRbTree t ↔ ∃ n ∈ inorder t, n.key = v.toInt := by
  rw [printRbTree, List.mem_map]
  simp only [Node.key, Int32.toInt_inj]

theorem pairwise_printRbTree {t : BinaryTree Node} (hs : Sorted Node.key t) :
    (printRbTree t).Pairwise (· < ·) := by
  rw [printRbTree, List.pairwise_map]
  apply hs.imp
  intro m n hlt
  exact Int32.lt_iff_toInt_lt.mpr hlt

/-- The descent finds the number exactly if the tree has it. -/
theorem lookupRbTree_eq {t : BinaryTree Node} (hs : Sorted Node.key t) (number : Int32) :
    lookupRbTree t number = if number ∈ printRbTree t then number else -1 := by
  induction t with
  | nil => rfl
  | node this left right ihl ihr =>
      obtain ⟨hl, hr, -, -⟩ := hs.node
      have hiff : ∀ sub, ((∃ n ∈ inorder (.node this left right), n.key = number.toInt) ↔
          ∃ n ∈ inorder sub, n.key = number.toInt) →
          (number ∈ printRbTree (.node this left right) ↔ number ∈ printRbTree sub) := by
        intro sub h
        rw [mem_printRbTree, mem_printRbTree, h]
      rw [lookupRbTree]
      by_cases hlt : number < this.value
      · have hleft := hiff left (hs.exists_left (Int32.lt_iff_toInt_lt.mp hlt))
        rw [if_pos hlt, ihl hl]
        simp only [hleft]
      · rw [if_neg hlt]
        by_cases hgt : number > this.value
        · have hright := hiff right (hs.exists_right (Int32.lt_iff_toInt_lt.mp hgt))
          rw [if_pos hgt, ihr hr]
          simp only [hright]
        · have he : this.value = number := by
            rw [gt_iff_lt, Int32.lt_iff_toInt_lt] at hgt
            rw [Int32.lt_iff_toInt_lt] at hlt
            exact Int32.toInt_inj.mp (by omega)
          have hmem : number ∈ printRbTree (.node this left right) :=
            mem_printRbTree.mpr ⟨this, by simp, congrArg Int32.toInt he⟩
          rw [if_neg hgt, if_pos hmem]

section Insertion
variable {rb : RbOps Node} {root : BinaryTree Node} {n : Node}

theorem insertRbTree_present (hs : Sorted Node.key root) (hn : n.value ∈ printRbTree root) :
    insertRbTree rb root n = (root, 0) := by
  have hnone : link Node.key n root = none := (link_eq_none_iff hs).mpr (mem_printRbTree.mp hn)
  rw [insertRbTree, hnone]

theorem insertRbTree_new (rb : RbOps Node) (hs : Sorted Node.key root)
    (hn : n.value ∉ printRbTree root) :
    ∃ root', insertRbTree rb root n = (root', 1) ∧ Sorted Node.key root' ∧
      (inorder root').Perm (n :: inorder root) := by
  cases hl : link Node.key n root with
  | none => exact absurd (mem_printRbTree.mpr ((link_eq_none_iff hs).mp hl)) hn
  | some root' =>
      refine ⟨rb.insertColor root' n, ?_, rb.sorted_insertColor (hs.link hl) n, ?_⟩
      · rw [insertRbTree, hl]
      · rw [rb.inorder_insertColor]
        exact perm_of_link hs hl

/-- The tree after the insertion of `values`. -/
structure Represents (values : List Int32) (root : BinaryTree Node) : Prop where
  sorted : Sorted Node.key root
  allocated : ∀ n ∈ inorder root, n ∈ newNodes values
  mem_iff : ∀ v, v ∈ printRbTree root ↔ v ∈ values

theorem represents_nil : Represents [] .nil where
  sorted := List.Pairwise.nil
  allocated _ hn := absurd hn List.not_mem_nil
  mem_iff _ := Iff.rfl

theorem Represents.insert {values : List Int32} (h : Represents values root) (v : Int32) :
    Represents (values ++ [v]) (insertRbTree rb root ⟨values.length, v⟩).1 := by
  by_cases hv : v ∈ values
  · have hpresent : insertRbTree rb root ⟨values.length, v⟩ = (root, 0) :=
      insertRbTree_present h.sorted ((h.mem_iff v).mpr hv)
    rw [hpresent]
    refine ⟨h.sorted, ?_, ?_⟩
    · intro n hn
      rw [newNodes_concat]
      exact List.mem_append_left _ (h.allocated n hn)
    · intro u
      rw [h.mem_iff, List.mem_append, List.mem_singleton]
      constructor
      · exact .inl
      · rintro (hu | rfl)
        · exact hu
        · exact hv
  · have hnew : (⟨values.length, v⟩ : Node).value ∉ printRbTree root := fun hmem =>
      hv ((h.mem_iff v).mp hmem)
    obtain ⟨root', he, hsorted, hperm⟩ := insertRbTree_new rb h.sorted hnew
    rw [he]
    refine ⟨hsorted, ?_, ?_⟩
    · intro n hn
      rw [newNodes_concat]
      rcases List.mem_cons.mp (hperm.mem_iff.mp hn) with rfl | hold
      · exact List.mem_append_right _ (List.mem_singleton_self _)
      · exact List.mem_append_left _ (h.allocated n hold)
    · intro u
      rw [printRbTree, (hperm.map Node.value).mem_iff, List.map_cons, List.mem_cons,
        List.mem_append, List.mem_singleton, or_comm]
      exact or_congr_left (h.mem_iff u)

theorem represents_insertedTree (rb : RbOps Node) (values : List Int32) :
    Represents values (insertedTree rb values) := by
  induction values using List.reverseRecOn with
  | nil => exact represents_nil
  | append_singleton values v ih =>
      rw [insertedTree_concat]
      exact ih.insert v

/-- The tree is the sorted set of the inserted values, and an insertion says whether it has
added one. -/
theorem insertion_is_sorted_set (rb : RbOps Node) (values : List Int32) (newNode : Node) :
    let root := insertedTree rb values
    let inserted := insertRbTree rb root newNode
    (printRbTree root).Pairwise (· < ·) ∧ (∀ v, v ∈ printRbTree root ↔ v ∈ values) ∧
      (newNode.value ∉ values →
        inserted.2 = 1 ∧ (inorder inserted.1).Perm (newNode :: inorder root)) ∧
      (newNode.value ∈ values → inserted.2 = 0 ∧ inserted.1 = root) := by
  intro root inserted
  have h : Represents values root := represents_insertedTree rb values
  refine ⟨pairwise_printRbTree h.sorted, h.mem_iff, ?_, ?_⟩
  · intro hn
    have hnew : newNode.value ∉ printRbTree root := fun hmem => hn ((h.mem_iff _).mp hmem)
    obtain ⟨root', he, -, hperm⟩ := insertRbTree_new rb h.sorted hnew
    have hinserted : inserted = (root', 1) := he
    rw [hinserted]
    exact ⟨rfl, hperm⟩
  · intro hn
    have hinserted : inserted = (root, 0) :=
      insertRbTree_present h.sorted ((h.mem_iff _).mpr hn)
    rw [hinserted]
    exact ⟨rfl, rfl⟩

end Insertion

section Lookup
variable (rb : RbOps Node) (values : List Int32) (number : Int32)

theorem lookup_insertedTree :
    lookupRbTree (insertedTree rb values) number = if number ∈ values then number else -1 := by
  have h := represents_insertedTree rb values
  rw [lookupRbTree_eq h.sorted]
  simp only [h.mem_iff]

/-- What is found are the inserted numbers that are not negative. -/
theorem found_iff : Found (insertedTree rb values) number ↔ number ∈ values ∧ 0 ≤ number := by
  rw [Found, lookup_insertedTree, Int32.not_lt]
  split_ifs with hn
  · exact (and_iff_right hn).symm
  · exact iff_of_false (by decide) fun h => hn h.1

/-- The caller reads the result rightly exactly for a number that is not negative or has
not been inserted. -/
theorem found_iff_inserted_iff :
    (Found (insertedTree rb values) number ↔ number ∈ values) ↔ 0 ≤ number ∨ number ∉ values := by
  rw [found_iff]
  constructor
  · intro h
    by_cases hn : number ∈ values
    · exact .inl (h.mpr hn).2
    · exact .inr hn
  · rintro (hnonneg | hn)
    · exact and_iff_left hnonneg
    · exact iff_of_false (fun h => hn h.1) hn

end Lookup

/-- The number -5 is inserted and reported as not found. -/
theorem negative_not_found :
    lookupRbTree (insertedTree .unbalanced [-5]) (-5) = -5 ∧
      ¬ (Found (insertedTree .unbalanced [-5]) (-5) ↔ (-5 : Int32) ∈ [(-5 : Int32)]) := by
  have hlookup : lookupRbTree (insertedTree .unbalanced [-5]) (-5) = -5 := by decide +kernel
  refine ⟨hlookup, ?_⟩
  intro h
  have hfound := h.mpr (List.mem_singleton_self _)
  rw [Found, hlookup] at hfound
  exact hfound (by decide)

section Run
variable (rb : RbOps Node) (w : Walk Node) (intArray : List Int32)

theorem foldl_lookup (numbers : List Int32) (s : RbRun) :
    numbers.foldl RbRun.lookup s = { s with
      notFound := s.notFound ++
        numbers.filter fun number => lookupRbTree s.myroot number < 0 } := by
  induction numbers generalizing s with
  | nil => simp
  | cons number numbers ih =>
      rw [List.foldl_cons, ih, RbRun.lookup]
      split_ifs with hneg
      · simp [hneg]
      · simp [hneg]

theorem myroot_inserted (s : RbRun) (hs : s.myroot = .nil) :
    ((newNodes intArray).foldl (RbRun.insert rb) s).myroot = insertedTree rb intArray := by
  rw [myroot_foldl_insert, hs]
  rfl

theorem freed_runRedblackTrees :
    (runRedblackTrees rb w intArray).freed = (removeRbTree rb w (insertedTree rb intArray)).2 := by
  unfold runRedblackTrees
  dsimp only
  rw [foldl_lookup, myroot_inserted rb intArray _ rfl]

end Run

end OperatingSystems.Kds
