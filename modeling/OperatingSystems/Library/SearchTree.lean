import OperatingSystems.Library.EraseWalk
import Mathlib.Data.List.Nodup
import Mathlib.Data.Tree.Basic
import Mathlib.Order.Lattice
import Mathlib.Tactic.SplitIfs

/-!
# Insertion by descent

A binary tree whose nodes are ordered by a key that the node carries. `link` goes
left for a smaller key and right for a greater one and hangs the new node where
the descent ends; a node with an equal key on the path rejects it.

`RbOps` are the primitives of a balanced tree as far as its contents go: the
rotations after an insertion and the shape after an erase are left open.
-/
namespace OperatingSystems.Library

variable {α κ : Type*}

def inorder : BinaryTree α → List α
  | .nil => []
  | .node x l r => inorder l ++ x :: inorder r

@[simp] theorem inorder_nil : inorder (.nil : BinaryTree α) = [] := rfl

@[simp] theorem inorder_node (x : α) (l r : BinaryTree α) :
    inorder (.node x l r) = inorder l ++ x :: inorder r := rfl

section Link
variable [LinearOrder κ] (key : α → κ) (x : α)

def link : BinaryTree α → Option (BinaryTree α)
  | .nil => some (.node x .nil .nil)
  | .node y l r =>
      if key x < key y then (link l).map fun l' => .node y l' r
      else if key y < key x then (link r).map fun r' => .node y l r'
      else none

/-- The keys in order are strictly increasing. -/
def Sorted (t : BinaryTree α) : Prop := (inorder t).Pairwise fun y z => key y < key z

variable {key x}

theorem Sorted.node {y : α} {l r : BinaryTree α} (h : Sorted key (.node y l r)) :
    Sorted key l ∧ Sorted key r ∧ (∀ z ∈ inorder l, key z < key y) ∧
      ∀ z ∈ inorder r, key y < key z := by
  obtain ⟨hl, hr, hlr⟩ := List.pairwise_append.mp h
  obtain ⟨hy, hr⟩ := List.pairwise_cons.mp hr
  exact ⟨hl, hr, fun z hz => hlr z hz y (by simp), hy⟩

theorem Sorted.eq_of_key {t : BinaryTree α} (hs : Sorted key t) {y z : α} (hy : y ∈ inorder t)
    (hz : z ∈ inorder t) (h : key y = key z) : y = z := by
  have hnodup : ((inorder t).map key).Nodup := List.pairwise_map.mpr (hs.imp ne_of_lt)
  exact List.inj_on_of_nodup_map hnodup hy hz h

/-- The new node stands between the smaller and the greater ones. -/
theorem link_split {t t' : BinaryTree α} (hs : Sorted key t) (h : link key x t = some t') :
    ∃ as bs, inorder t = as ++ bs ∧ inorder t' = as ++ x :: bs ∧
      (∀ y ∈ as, key y < key x) ∧ ∀ y ∈ bs, key x < key y := by
  induction t generalizing t' with
  | nil =>
      obtain rfl := Option.some.inj h
      exact ⟨[], [], by simp⟩
  | node y l r ihl ihr =>
      obtain ⟨hl, hr, hly, hyr⟩ := hs.node
      unfold link at h
      split_ifs at h with hlt hgt
      · obtain ⟨l', hl', rfl⟩ := Option.map_eq_some_iff.mp h
        obtain ⟨as, bs, he, he', has, hbs⟩ := ihl hl hl'
        refine ⟨as, bs ++ y :: inorder r, by simp [he], by simp [he'], has, fun z hz => ?_⟩
        rcases List.mem_append.mp hz with hz | hz
        · exact hbs z hz
        · rcases List.mem_cons.mp hz with rfl | hz
          · exact hlt
          · exact lt_trans hlt (hyr z hz)
      · obtain ⟨r', hr', rfl⟩ := Option.map_eq_some_iff.mp h
        obtain ⟨as, bs, he, he', has, hbs⟩ := ihr hr hr'
        refine ⟨inorder l ++ y :: as, bs, by simp [he], by simp [he'], fun z hz => ?_, hbs⟩
        rcases List.mem_append.mp hz with hz | hz
        · exact lt_trans (hly z hz) hgt
        · rcases List.mem_cons.mp hz with rfl | hz
          · exact hgt
          · exact has z hz

theorem Sorted.link {t t' : BinaryTree α} (hs : Sorted key t) (h : link key x t = some t') :
    Sorted key t' := by
  obtain ⟨as, bs, he, he', has, hbs⟩ := link_split hs h
  unfold Sorted at hs ⊢
  rw [he] at hs
  rw [he']
  obtain ⟨ha, hb, hab⟩ := List.pairwise_append.mp hs
  refine List.pairwise_append.mpr ⟨ha, List.pairwise_cons.mpr ⟨hbs, hb⟩, fun y hy z hz => ?_⟩
  rcases List.mem_cons.mp hz with rfl | hz
  · exact has y hy
  · exact hab y hy z hz

theorem perm_of_link {t t' : BinaryTree α} (hs : Sorted key t) (h : link key x t = some t') :
    (inorder t').Perm (x :: inorder t) := by
  obtain ⟨as, bs, he, he', -⟩ := link_split hs h
  rw [he, he']
  exact List.perm_middle

/-- A key below that of the root is one of the left subtree, if it is there. -/
theorem Sorted.exists_left {y : α} {l r : BinaryTree α} (hs : Sorted key (.node y l r)) {k : κ}
    (hk : k < key y) :
    (∃ z ∈ inorder (.node y l r), key z = k) ↔ ∃ z ∈ inorder l, key z = k := by
  obtain ⟨-, -, -, hyr⟩ := hs.node
  constructor
  · rintro ⟨z, hz, rfl⟩
    rcases List.mem_append.mp hz with hz | hz
    · exact ⟨z, hz, rfl⟩
    · rcases List.mem_cons.mp hz with rfl | hz
      · exact absurd hk (lt_irrefl _)
      · exact absurd hk (hyr z hz).not_gt
  · rintro ⟨z, hz, he⟩
    exact ⟨z, List.mem_append_left _ hz, he⟩

/-- A key above that of the root is one of the right subtree, if it is there. -/
theorem Sorted.exists_right {y : α} {l r : BinaryTree α} (hs : Sorted key (.node y l r)) {k : κ}
    (hk : key y < k) :
    (∃ z ∈ inorder (.node y l r), key z = k) ↔ ∃ z ∈ inorder r, key z = k := by
  obtain ⟨-, -, hly, -⟩ := hs.node
  constructor
  · rintro ⟨z, hz, rfl⟩
    rcases List.mem_append.mp hz with hz | hz
    · exact absurd hk (hly z hz).not_gt
    · rcases List.mem_cons.mp hz with rfl | hz
      · exact absurd hk (lt_irrefl _)
      · exact ⟨z, hz, rfl⟩
  · rintro ⟨z, hz, he⟩
    exact ⟨z, List.mem_append_right _ (List.mem_cons_of_mem y hz), he⟩

/-- A node is rejected exactly for a key that the tree already has. -/
theorem link_eq_none_iff {t : BinaryTree α} (hs : Sorted key t) :
    Library.link key x t = none ↔ ∃ y ∈ inorder t, key y = key x := by
  induction t with
  | nil => simp [Library.link]
  | node y l r ihl ihr =>
      obtain ⟨hl, hr, -, -⟩ := hs.node
      unfold Library.link
      split_ifs with hlt hgt
      · rw [Option.map_eq_none_iff, ihl hl, hs.exists_left hlt]
      · rw [Option.map_eq_none_iff, ihr hr, hs.exists_right hgt]
      · have he : key y = key x := le_antisymm (not_lt.mp hlt) (not_lt.mp hgt)
        exact iff_of_true rfl ⟨y, by simp, he⟩

end Link

section Last
variable [LinearOrder κ] {key : α → κ} {t : BinaryTree α}

theorem Sorted.reverse (hs : Sorted key t) :
    (inorder t).reverse.Pairwise fun y z => key z < key y :=
  List.pairwise_reverse.mpr hs

/-- The first nodes of the walk have greater keys than the nodes that it has not reached. -/
theorem Sorted.lt_of_not_mem_take (hs : Sorted key t) {n : ℕ} {y z : α}
    (hy : y ∈ (inorder t).reverse.take n) (hz : z ∈ inorder t)
    (hnot : z ∉ (inorder t).reverse.take n) : key z < key y := by
  have hsplit := hs.reverse
  rw [← List.take_append_drop n (inorder t).reverse] at hsplit
  have hdrop : z ∈ (inorder t).reverse.drop n := by
    have hmem : z ∈ (inorder t).reverse.take n ++ (inorder t).reverse.drop n := by
      rw [List.take_append_drop]
      exact List.mem_reverse.mpr hz
    exact (List.mem_append.mp hmem).resolve_left hnot
  exact (List.pairwise_append.mp hsplit).2.2 y hy z hdrop

end Last

/-- The tree without left children. -/
def spine : List α → BinaryTree α
  | [] => .nil
  | x :: xs => .node x .nil (spine xs)

theorem inorder_spine (xs : List α) : inorder (spine xs) = xs := by
  induction xs with
  | nil => rfl
  | cons x xs ih => simp [spine, ih]

structure RbOps (α : Type*) [DecidableEq α] where
  insertColor : BinaryTree α → α → BinaryTree α
  inorder_insertColor : ∀ t x, inorder (insertColor t x) = inorder t
  erase : BinaryTree α → α → BinaryTree α
  inorder_erase : ∀ t x, inorder (erase t x) = (inorder t).erase x

namespace RbOps
variable [DecidableEq α]

/-- The walk by `rb_first` and `rb_next`. -/
def container (rb : RbOps α) : Container (BinaryTree α) α := ⟨inorder, rb.erase, rb.inorder_erase⟩

theorem sorted_insertColor [LinearOrder κ] {key : α → κ} (rb : RbOps α) {t : BinaryTree α}
    (hs : Sorted key t) (x : α) : Sorted key (rb.insertColor t x) := by
  unfold Sorted
  rw [rb.inorder_insertColor]
  exact hs

/-- Primitives without any balancing. -/
def unbalanced : RbOps α where
  insertColor t _ := t
  inorder_insertColor _ _ := rfl
  erase t x := spine ((inorder t).erase x)
  inorder_erase _ _ := inorder_spine _

end RbOps

end OperatingSystems.Library
