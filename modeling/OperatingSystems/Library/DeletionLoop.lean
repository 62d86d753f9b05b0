import OperatingSystems.Library.EraseWalk
import Mathlib.Data.Set.Insert

/-!
# Deletion inside a loop

A loop over the nodes of a container that deletes those it selects. The plain loop
deletes in its body and then asks the node it stands on for the next one, which a
deleted node can only answer from memory that was given back. The safe loop has saved
the next node before its body runs.

A run leaves the trace of its deletions and of its questions, and `Safe` reads the
trace with the set of the nodes deleted so far. The plain loop is safe only if it
deletes nothing; what it leaves in the container is that of `Container.eraseWalk`.
-/
namespace OperatingSystems.Library

variable {α κ : Type*} [DecidableEq α]

inductive LoopEvent (α : Type*) where
  | successor (x : α)
  | erase (x : α)
deriving DecidableEq

/-- No node of `erased` is asked for its successor. -/
def Safe : Set α → List (LoopEvent α) → Prop
  | _, [] => True
  | erased, .successor x :: events => x ∉ erased ∧ Safe erased events
  | erased, .erase x :: events => Safe (insert x erased) events

def LoopEvent.deleted : LoopEvent α → Option α
  | .successor _ => none
  | .erase x => some x

structure LoopRun (κ α : Type*) where
  container : κ
  events : List (LoopEvent α)
  ended : Bool

/-- The nodes that the run deletes, in this order. -/
def LoopRun.deleted (run : LoopRun κ α) : List α := run.events.filterMap LoopEvent.deleted

/-- The run that begins with the given events. -/
def LoopRun.after (events : List (LoopEvent α)) (run : LoopRun κ α) : LoopRun κ α :=
  { run with events := events ++ run.events }

/-- The loop never asks a deleted node, it ends, and it has then deleted exactly the nodes
that it is meant to delete. -/
structure Deletes (loop : ℕ → LoopRun κ α) (meant : α → Prop) : Prop where
  safe : ∀ fuel, Safe ∅ (loop fuel).events
  ends : ∃ fuel, (loop fuel).ended = true
  exact : ∀ fuel, (loop fuel).ended = true → ∀ x, x ∈ (loop fuel).deleted ↔ meant x

namespace Container
variable (C : Container κ α)

/-- The plain loop, from the nodes ahead of it. -/
def deleteLoop (w : Walk α) (sel : α → Bool) : ℕ → κ → List α → LoopRun κ α
  | _, c, [] => ⟨c, [], true⟩
  | 0, c, _ :: _ => ⟨c, [], false⟩
  | fuel + 1, c, x :: visits =>
      if sel x then
        let c' := C.erase c x
        (deleteLoop w sel fuel c' (w.resume x (C.nodes c'))).after [.erase x, .successor x]
      else (deleteLoop w sel fuel c visits).after [.successor x]

/-- The loop that saves the next node, and deletes every node. -/
def deleteLoopSafe : κ → List α → LoopRun κ α
  | c, [] => ⟨c, [], true⟩
  | c, x :: visits => (deleteLoopSafe (C.erase c x) visits).after [.successor x, .erase x]

variable {C} {w : Walk α} {sel : α → Bool} {c : κ} {visits : List α}

theorem deleteLoop_of_none (h : ∀ x ∈ visits, sel x = false) (fuel : ℕ) :
    (C.deleteLoop w sel fuel c visits).events = (visits.take fuel).map .successor ∧
      ((C.deleteLoop w sel fuel c visits).ended = true ↔ visits.length ≤ fuel) := by
  induction visits generalizing fuel with
  | nil =>
      rw [deleteLoop, List.take_nil]
      exact ⟨rfl, iff_of_true rfl (Nat.zero_le fuel)⟩
  | cons x visits ih =>
      cases fuel with
      | zero =>
          rw [deleteLoop, List.take_zero]
          exact ⟨rfl, iff_of_false Bool.false_ne_true (by simp)⟩
      | succ fuel =>
          have hrest := ih (fun y hy => h y (List.mem_cons_of_mem x hy)) fuel
          rw [deleteLoop, if_neg (by rw [h x List.mem_cons_self]; exact Bool.false_ne_true)]
          refine ⟨?_, ?_⟩
          · rw [LoopRun.after, hrest.1]
            rfl
          · rw [LoopRun.after, hrest.2, List.length_cons]
            exact Nat.succ_le_succ_iff.symm

omit [DecidableEq α] in
theorem safe_successors (xs : List α) : Safe (∅ : Set α) (xs.map .successor) := by
  induction xs with
  | nil => trivial
  | cons x xs ih => exact ⟨Set.notMem_empty x, ih⟩

theorem deleted_of_none (h : ∀ x ∈ visits, sel x = false) (fuel : ℕ) :
    (C.deleteLoop w sel fuel c visits).deleted = [] := by
  rw [LoopRun.deleted, (deleteLoop_of_none h fuel).1, List.filterMap_eq_nil_iff]
  intro event hevent
  obtain ⟨x, -, rfl⟩ := List.mem_map.mp hevent
  rfl

/-- The first node that is deleted is asked for the next one. -/
theorem exists_unsafe {x : α} (hx : x ∈ visits) (hsel : sel x = true) (erased : Set α) :
    ∃ fuel, ¬ Safe erased (C.deleteLoop w sel fuel c visits).events := by
  induction visits with
  | nil => cases hx
  | cons y visits ih =>
      cases hy : sel y with
      | true =>
          refine ⟨1, ?_⟩
          rw [deleteLoop, if_pos hy]
          intro hsafe
          exact hsafe.1 (Set.mem_insert y erased)
      | false =>
          have hmem : x ∈ visits := by
            rcases List.mem_cons.mp hx with rfl | hmem
            · rw [hy] at hsel
              cases hsel
            · exact hmem
          obtain ⟨fuel, hfuel⟩ := ih hmem
          refine ⟨fuel + 1, ?_⟩
          rw [deleteLoop, if_neg (by rw [hy]; exact Bool.false_ne_true)]
          intro hsafe
          exact hfuel hsafe.2

/-- The plain loop does what it is meant to do exactly if nothing is to be deleted. -/
theorem deletes_iff {meant : α → Prop} (hsel : ∀ x ∈ C.nodes c, sel x = true → meant x) :
    Deletes (fun fuel => C.deleteLoop w sel fuel c (C.nodes c)) meant ↔ ∀ x, ¬ meant x := by
  constructor
  · intro h
    have hnone : ∀ x ∈ C.nodes c, sel x = false := by
      intro x hx
      by_contra hne
      obtain ⟨fuel, hfuel⟩ := exists_unsafe (C := C) (w := w) (c := c) hx
        (Bool.eq_true_of_not_eq_false hne) ∅
      exact hfuel (h.safe fuel)
    obtain ⟨fuel, hended⟩ := h.ends
    intro x hx
    have hdeleted := (h.exact fuel hended x).mpr hx
    rw [deleted_of_none hnone] at hdeleted
    cases hdeleted
  · intro hmeant
    have hnone : ∀ x ∈ C.nodes c, sel x = false := by
      intro x hx
      by_contra hne
      exact hmeant x (hsel x hx (Bool.eq_true_of_not_eq_false hne))
    refine ⟨?_, ⟨(C.nodes c).length, ?_⟩, ?_⟩
    · intro fuel
      rw [(deleteLoop_of_none hnone fuel).1]
      exact safe_successors _
    · exact (deleteLoop_of_none hnone _).2.mpr le_rfl
    · intro fuel _ x
      rw [deleted_of_none hnone]
      exact iff_of_false List.not_mem_nil (hmeant x)

/-- The loop ends with the container and the deleted nodes of the erasing walk. -/
theorem exists_eraseFrom {n : ℕ} (hv : visits ⊆ C.nodes c) (hn : (C.nodes c).length ≤ n) :
    ∃ fuel, (C.deleteLoop w sel fuel c visits).ended = true ∧
      ((C.deleteLoop w sel fuel c visits).container,
        (C.deleteLoop w sel fuel c visits).deleted) = C.eraseFrom w sel n c visits := by
  induction n generalizing c visits with
  | zero =>
      have hempty : C.nodes c = [] := List.eq_nil_of_length_eq_zero (Nat.le_zero.mp hn)
      rw [hempty, List.subset_nil] at hv
      subst hv
      exact ⟨0, rfl, rfl⟩
  | succ n ihn =>
      induction visits with
      | nil => exact ⟨0, rfl, rfl⟩
      | cons x visits ih =>
          cases hx : sel x with
          | true =>
              have hmem : x ∈ C.nodes c := hv List.mem_cons_self
              have hshorter : (C.nodes (C.erase c x)).length ≤ n := by
                have hlength := List.length_erase_of_mem hmem
                rw [C.nodes_erase]
                omega
              obtain ⟨fuel, hended, he⟩ := ihn (w.resume_suffix x _).subset hshorter
              refine ⟨fuel + 1, ?_, ?_⟩
              · rw [deleteLoop, if_pos hx]
                exact hended
              · rw [deleteLoop, if_pos hx, eraseFrom_cons_of_pos hx, ← he]
                rfl
          | false =>
              have hne : ¬ sel x = true := by rw [hx]; exact Bool.false_ne_true
              obtain ⟨fuel, hended, he⟩ := ih fun y hy => hv (List.mem_cons_of_mem x hy)
              refine ⟨fuel + 1, ?_, ?_⟩
              · rw [deleteLoop, if_neg hne]
                exact hended
              · rw [deleteLoop, if_neg hne, eraseFrom_cons_of_neg hne, ← he]
                rfl

theorem exists_eraseWalk (C : Container κ α) (w : Walk α) (sel : α → Bool) (c : κ) :
    ∃ fuel, (C.deleteLoop w sel fuel c (C.nodes c)).ended = true ∧
      ((C.deleteLoop w sel fuel c (C.nodes c)).container,
        (C.deleteLoop w sel fuel c (C.nodes c)).deleted) = C.eraseWalk w sel c :=
  exists_eraseFrom (List.Subset.refl _) le_rfl

theorem ended_deleteLoopSafe : (C.deleteLoopSafe c visits).ended = true := by
  induction visits generalizing c with
  | nil => rfl
  | cons x visits ih => exact ih

theorem deleted_deleteLoopSafe : (C.deleteLoopSafe c visits).deleted = visits := by
  induction visits generalizing c with
  | nil => rfl
  | cons x visits ih => exact congrArg (List.cons x) ih

theorem safe_deleteLoopSafe {erased : Set α} (hnodup : visits.Nodup)
    (hfresh : ∀ x ∈ visits, x ∉ erased) : Safe erased (C.deleteLoopSafe c visits).events := by
  induction visits generalizing c erased with
  | nil => trivial
  | cons x visits ih =>
      obtain ⟨hx, hvisits⟩ := List.nodup_cons.mp hnodup
      refine ⟨hfresh x List.mem_cons_self, ih hvisits ?_⟩
      intro y hy hmem
      rcases Set.mem_insert_iff.mp hmem with rfl | hold
      · exact hx hy
      · exact hfresh y (List.mem_cons_of_mem x hy) hold

/-- A container without repetitions is emptied, and every node is asked before its deletion. -/
theorem deletes_deleteLoopSafe (hnodup : (C.nodes c).Nodup) :
    Deletes (fun _ => C.deleteLoopSafe c (C.nodes c)) fun x => x ∈ C.nodes c where
  safe _ := safe_deleteLoopSafe hnodup fun x _ => Set.notMem_empty x
  ends := ⟨0, ended_deleteLoopSafe⟩
  exact _ _ x := by rw [deleted_deleteLoopSafe]

end Container
end OperatingSystems.Library
