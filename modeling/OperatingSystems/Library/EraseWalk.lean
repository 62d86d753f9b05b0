import Mathlib.Data.List.Basic

/-!
# Erasing while walking

A loop over a container that erases the nodes it selects and asks the erased node
for its successor. What that answers depends on memory that was given back: the
walk may end, or go on at any node that is left. It then sees a suffix of the
remaining nodes, so nodes may be visited twice or skipped.

A loop that selects by a key held by at most one node is not affected: it erases
that node and nothing else, wherever it goes afterwards.
-/
namespace OperatingSystems.Library

variable {α κ β : Type*} [DecidableEq α]

/-- A container seen through the list of its nodes in walk order. -/
structure Container (κ α : Type*) [DecidableEq α] where
  nodes : κ → List α
  erase : κ → α → κ
  nodes_erase : ∀ c x, nodes (erase c x) = (nodes c).erase x

/-- The nodes still visited after the walk has erased the node it stands on. -/
structure Walk (α : Type*) where
  resume : α → List α → List α
  resume_suffix : ∀ x xs, resume x xs <:+ xs

/-- The erased node has no successor any more. -/
def Walk.stop : Walk α := ⟨fun _ _ => [], fun _ _ => List.nil_suffix⟩

/-- Every remaining node is visited, as after the first node of a walk in order. -/
def Walk.through : Walk α := ⟨fun _ xs => xs, fun _ _ => List.suffix_refl _⟩

/-- A chain of nodes, walked from its head. -/
def Container.chain : Container (List α) α := ⟨id, List.erase, fun _ _ => rfl⟩

namespace Container
variable (C : Container κ α) (w : Walk α)

/-- `visits` are the nodes ahead of the walk; each turn goes to the next selected one.
The container and the erased nodes are returned. -/
def eraseFrom (sel : α → Bool) : ℕ → κ → List α → κ × List α
  | 0, c, _ => (c, [])
  | fuel + 1, c, visits =>
      match visits.find? sel with
      | none => (c, [])
      | some x =>
          let c' := C.erase c x
          let (c'', erased) := eraseFrom sel fuel c' (w.resume x (C.nodes c'))
          (c'', x :: erased)

/-- Every turn erases a node, so there are at most as many turns as nodes. -/
def eraseWalk (sel : α → Bool) (c : κ) : κ × List α :=
  C.eraseFrom w sel (C.nodes c).length c (C.nodes c)

variable {C w}

theorem eraseFrom_of_none {sel : α → Bool} {visits : List α} (h : ∀ x ∈ visits, ¬ sel x)
    (fuel : ℕ) (c : κ) : C.eraseFrom w sel fuel c visits = (c, []) := by
  cases fuel with
  | zero => rfl
  | succ fuel => simp [eraseFrom, List.find?_eq_none.mpr h]

theorem eraseFrom_cons_of_pos {sel : α → Bool} {x : α} (hx : sel x = true) (fuel : ℕ) (c : κ)
    (visits : List α) : C.eraseFrom w sel (fuel + 1) c (x :: visits) =
      ((C.eraseFrom w sel fuel (C.erase c x) (w.resume x (C.nodes (C.erase c x)))).1,
        x :: (C.eraseFrom w sel fuel (C.erase c x) (w.resume x (C.nodes (C.erase c x)))).2) := by
  rw [eraseFrom, List.find?_cons_of_pos hx]

theorem eraseFrom_cons_of_neg {sel : α → Bool} {x : α} (hx : ¬ sel x = true) (fuel : ℕ) (c : κ)
    (visits : List α) : C.eraseFrom w sel (fuel + 1) c (x :: visits) =
      C.eraseFrom w sel (fuel + 1) c visits := by
  rw [eraseFrom, eraseFrom, List.find?_cons_of_neg hx]

/-- The walk takes selected nodes out of the container, and nothing else. -/
theorem eraseFrom_perm {sel : α → Bool} (fuel : ℕ) {c : κ} {visits : List α}
    (hv : visits ⊆ C.nodes c) :
    (C.nodes c).Perm ((C.eraseFrom w sel fuel c visits).2 ++
      C.nodes (C.eraseFrom w sel fuel c visits).1) ∧
      ∀ x ∈ (C.eraseFrom w sel fuel c visits).2, sel x = true := by
  induction fuel generalizing c visits with
  | zero => exact ⟨List.Perm.refl _, fun x hx => absurd hx List.not_mem_nil⟩
  | succ fuel ih =>
      rw [eraseFrom]
      cases hfind : visits.find? sel with
      | none => exact ⟨List.Perm.refl _, fun x hx => absurd hx List.not_mem_nil⟩
      | some x =>
          have hx : x ∈ C.nodes c := hv (List.mem_of_find?_eq_some hfind)
          have hsuffix := (w.resume_suffix x (C.nodes (C.erase c x))).subset
          obtain ⟨hperm, hsel⟩ := ih hsuffix
          constructor
          · have hfirst : (C.nodes c).Perm (x :: C.nodes (C.erase c x)) := by
              rw [C.nodes_erase]
              exact List.perm_cons_erase hx
            exact hfirst.trans (hperm.cons x)
          · intro y hy
            rcases List.mem_cons.mp hy with rfl | hy
            · exact List.find?_some hfind
            · exact hsel y hy

theorem eraseWalk_perm (sel : α → Bool) (c : κ) :
    (C.nodes c).Perm ((C.eraseWalk w sel c).2 ++ C.nodes (C.eraseWalk w sel c).1) :=
  (eraseFrom_perm _ (List.Subset.refl _)).1

theorem sel_of_mem_eraseWalk (sel : α → Bool) (c : κ) {x : α}
    (hx : x ∈ (C.eraseWalk w sel c).2) : sel x = true :=
  (eraseFrom_perm _ (List.Subset.refl _)).2 x hx

/-- The first selected node is erased, wherever the walk goes on. -/
theorem eraseWalk_ne_nil (sel : α → Bool) {c : κ} {x : α} (hx : x ∈ C.nodes c)
    (hsel : sel x = true) : (C.eraseWalk w sel c).2 ≠ [] := by
  obtain ⟨fuel, hfuel⟩ := Nat.exists_eq_succ_of_ne_zero (Nat.ne_of_gt (List.length_pos_of_mem hx))
  unfold eraseWalk
  rw [hfuel, eraseFrom]
  cases hfind : (C.nodes c).find? sel with
  | none => exact absurd hsel (List.find?_eq_none.mp hfind x hx)
  | some y => exact List.cons_ne_nil _ _

/-- A key that no other node has selects exactly its node. -/
theorem filter_key_eq [DecidableEq β] {key : α → β} {x : α} {xs : List α}
    (h : (xs.map key).Nodup) (hx : x ∈ xs) :
    xs.filter (fun y => key y = key x) = [x] ∧
      xs.filter (fun y => key y ≠ key x) = xs.erase x := by
  induction xs with
  | nil => simp at hx
  | cons y ys ih =>
      obtain ⟨hy, hys⟩ := List.nodup_cons.mp h
      have hnot : ∀ z ∈ ys, key z ≠ key y := fun z hz he =>
        hy (List.mem_map.mpr ⟨z, hz, he⟩)
      rcases List.mem_cons.mp hx with rfl | hx
      · simp only [List.filter_cons, decide_true, if_true, ne_eq, not_true_eq_false,
          decide_false, if_false, Bool.false_eq_true, List.erase_cons_head]
        exact ⟨by rw [List.filter_eq_nil_iff.mpr (by simpa using hnot)],
          List.filter_eq_self.mpr (by simpa using hnot)⟩
      · have hne : key y ≠ key x := (hnot x hx).symm
        have hyx : y ≠ x := fun he => hne (by rw [he])
        obtain ⟨h₁, h₂⟩ := ih hys hx
        exact ⟨by simpa [List.filter_cons, hne] using h₁,
          by simpa [List.filter_cons, hne, List.erase_cons_tail, hyx] using h₂⟩

/-- A walk that erases by a key held by one node at most. -/
theorem eraseWalk_key [DecidableEq β] {key : α → β} {c : κ}
    (h : ((C.nodes c).map key).Nodup) (k : β) :
    C.nodes (C.eraseWalk w (fun x => key x = k) c).1 =
        (C.nodes c).filter (fun x => key x ≠ k) ∧
      (C.eraseWalk w (fun x => key x = k) c).2 = (C.nodes c).filter (fun x => key x = k) := by
  by_cases hk : ∃ x ∈ C.nodes c, key x = k
  · obtain ⟨x, hx, rfl⟩ := hk
    obtain ⟨hsel, herase⟩ := filter_key_eq h hx
    have hfind : (C.nodes c).find? (fun y => key y = key x) = some x := by
      rw [← List.head?_filter, hsel]
      rfl
    obtain ⟨fuel, hfuel⟩ := Nat.exists_eq_succ_of_ne_zero (Nat.ne_of_gt (List.length_pos_of_mem hx))
    -- Nothing is selected any more, wherever the walk goes on.
    have hrest : ∀ y ∈ w.resume x (C.nodes (C.erase c x)), ¬ decide (key y = key x) := by
      intro y hy
      have hmem := (w.resume_suffix _ _).subset hy
      rw [C.nodes_erase, ← herase] at hmem
      simpa using (List.mem_filter.mp hmem).2
    unfold eraseWalk
    rw [hfuel, eraseFrom, hfind]
    simp only [eraseFrom_of_none hrest]
    exact ⟨by rw [C.nodes_erase, ← herase], hsel.symm⟩
  · have hnone : ∀ x ∈ C.nodes c, ¬ key x = k := fun x hx he => hk ⟨x, hx, he⟩
    unfold eraseWalk
    rw [eraseFrom_of_none (by simpa using hnone)]
    exact ⟨(List.filter_eq_self.mpr (by simpa using hnone)).symm,
      (List.filter_eq_nil_iff.mpr (by simpa using hnone)).symm⟩

/-- A walk that ends at an erased node erases the first node only. -/
theorem eraseWalk_first (hw : ∀ x xs, w.resume x xs = []) (c : κ) :
    C.nodes (C.eraseWalk w (fun _ => true) c).1 = (C.nodes c).tail := by
  unfold eraseWalk
  cases hc : C.nodes c with
  | nil => exact hc
  | cons x xs =>
      rw [List.length_cons, eraseFrom]
      simp only [List.find?_cons, hw]
      rw [eraseFrom_of_none (by simp), C.nodes_erase, hc, List.erase_cons_head, List.tail_cons]

/-- A walk in order that goes on behind the erased first node erases every node. -/
theorem eraseWalk_all {R : α → α → Prop} (hw : ∀ x xs, (∀ y ∈ xs, R x y) → w.resume x xs = xs)
    {c : κ} (hc : (C.nodes c).Pairwise R) :
    C.nodes (C.eraseWalk w (fun _ => true) c).1 = [] := by
  unfold eraseWalk
  generalize hxs : C.nodes c = xs
  rw [hxs] at hc
  induction xs generalizing c with
  | nil => exact hxs
  | cons x xs ih =>
      obtain ⟨hx, hrest⟩ := List.pairwise_cons.mp hc
      have herased : C.nodes (C.erase c x) = xs := by
        rw [C.nodes_erase, hxs, List.erase_cons_head]
      rw [List.length_cons, eraseFrom]
      simp only [List.find?_cons, herased, hw x xs hx]
      exact ih hrest herased

end Container

end OperatingSystems.Library
