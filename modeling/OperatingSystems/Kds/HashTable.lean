import OperatingSystems.Kds.Nodes
import OperatingSystems.Library.DeletionLoop
import Mathlib.Algebra.Group.Nat.Defs
import Mathlib.Data.List.FinRange
import Mathlib.Data.List.Induction

/-!
# The hash table of kds

`run_hash_table` adds a node for each element of the array at the head of its bucket,
looks every element up and then removes every element. A removal frees a matching node
inside the walk over the bucket and then asks it for the next one, so that it may miss
further copies; a value that occurs several times is removed as often.

The bucket function and the way a walk goes on from a freed node are parameters.
-/
namespace OperatingSystems.Kds
open Library

/-- `DEFINE_HASHTABLE(myhashtable, 14)` -/
@[irreducible] def hashSize : ℕ := 2 ^ 14

abbrev Bucket := Fin hashSize

theorem hashSize_pos : 0 < hashSize := by
  rw [hashSize]
  decide

/-- The nodes in the order of `hash_for_each`. -/
def bucketNodes (myhashtable : Bucket → List Node) : List Node :=
  (List.finRange hashSize).flatMap myhashtable

def printHashTable (myhashtable : Bucket → List Node) : List Int32 :=
  (bucketNodes myhashtable).map Node.value

structure HashState where
  myhashtable : Bucket → List Node
  freed : List Node

/-- `printed` and `printedAgain` are the outputs before and after the removal, and `lookups`
those of each lookup. -/
structure HashRun where
  printed : List Int32
  lookups : List (List Int32)
  final : HashState
  printedAgain : List Int32

section Operations
variable (hash : Int32 → Bucket)

def hashAdd (myhashtable : Bucket → List Node) (mynode : Node) : Bucket → List Node :=
  Function.update myhashtable (hash mynode.value) (mynode :: myhashtable (hash mynode.value))

def lookupHashTable (myhashtable : Bucket → List Node) (number : Int32) : List Int32 :=
  ((myhashtable (hash number)).filter fun curr => curr.value = number).map Node.value

def removeHashTable (w : Walk Node) (s : HashState) (number : Int32) : HashState :=
  let (bucket, erased) := Container.chain.eraseWalk w (fun curr : Node => curr.value = number)
    (s.myhashtable (hash number))
  { myhashtable := Function.update s.myhashtable (hash number) bucket
    freed := s.freed ++ erased }

/-- The removal turn by turn: `hash_for_each_possible` over the bucket of the number. -/
def removeHashTableLoop (w : Walk Node) (myhashtable : Bucket → List Node) (number : Int32)
    (fuel : ℕ) : LoopRun (List Node) Node :=
  Container.chain.deleteLoop w (fun curr : Node => curr.value = number) fuel
    (myhashtable (hash number)) (myhashtable (hash number))

theorem removeHashTable_eq_loop (w : Walk Node) (s : HashState) (number : Int32) :
    ∃ fuel, (removeHashTableLoop hash w s.myhashtable number fuel).ended = true ∧
      removeHashTable hash w s number =
        ⟨Function.update s.myhashtable (hash number)
          (removeHashTableLoop hash w s.myhashtable number fuel).container,
          s.freed ++ (removeHashTableLoop hash w s.myhashtable number fuel).deleted⟩ := by
  obtain ⟨fuel, hended, he⟩ := Container.exists_eraseWalk Container.chain w
    (fun curr : Node => curr.value = number) (s.myhashtable (hash number))
  refine ⟨fuel, hended, ?_⟩
  unfold removeHashTable
  rw [← he]
  rfl

/-- The table after the insertion loop, which `hash_init` starts from the empty one. -/
def insertedTable (intArray : List Int32) : Bucket → List Node :=
  (newNodes intArray).foldl (hashAdd hash) fun _ => []

def runHashTable (w : Walk Node) (intArray : List Int32) : HashRun :=
  let table := insertedTable hash intArray
  let final := intArray.foldl (removeHashTable hash w) ⟨table, []⟩
  { printed := printHashTable table
    lookups := intArray.map (lookupHashTable hash table)
    final := final
    printedAgain := printHashTable final.myhashtable }

end Operations

/-- What leaves a bucket leaves the table. -/
theorem perm_bucketNodes {table : Bucket → List Node} {b : Bucket} {out rest : List Node}
    (h : (table b).Perm (out ++ rest)) :
    (bucketNodes table).Perm (out ++ bucketNodes (Function.update table b rest)) := by
  have hlist : ∀ bs : List Bucket, bs.Nodup → b ∈ bs →
      (bs.flatMap table).Perm (out ++ bs.flatMap (Function.update table b rest)) := by
    intro bs
    induction bs with
    | nil => exact fun _ hb => absurd hb List.not_mem_nil
    | cons c bs ih =>
        intro hnodup hb
        obtain ⟨hc, hbs⟩ := List.nodup_cons.mp hnodup
        rw [List.flatMap_cons, List.flatMap_cons]
        by_cases hcb : c = b
        · subst hcb
          have hother : bs.flatMap (Function.update table c rest) = bs.flatMap table := by
            apply List.flatMap_congr
            intro d hd
            exact Function.update_of_ne (fun he => hc (by rwa [← he])) _ _
          rw [Function.update_self, hother, ← List.append_assoc]
          exact h.append_right _
        · rw [Function.update_of_ne hcb]
          have hrest := ih hbs ((List.mem_cons.mp hb).resolve_left (Ne.symm hcb))
          exact (hrest.append_left (table c)).trans (List.perm_append_comm_assoc _ _ _)
  exact hlist _ (List.nodup_finRange _) (List.mem_finRange b)

theorem bucketNodes_nil : bucketNodes (fun _ => []) = [] :=
  List.flatMap_eq_nil_iff.mpr fun _ _ => rfl

section Tables
variable {hash : Int32 → Bucket} {values : List Int32}

theorem insertedTable_concat (values : List Int32) (v : Int32) :
    insertedTable hash (values ++ [v]) =
      hashAdd hash (insertedTable hash values) ⟨values.length, v⟩ := by
  rw [insertedTable, newNodes_concat, List.foldl_append]
  rfl

/-- A bucket has the nodes of its values, the newest first. -/
theorem insertedTable_apply (values : List Int32) (b : Bucket) :
    insertedTable hash values b = (newNodes values).reverse.filter fun n => hash n.value = b := by
  induction values using List.reverseRecOn with
  | nil => rfl
  | append_singleton values v ih =>
      rw [insertedTable_concat, newNodes_concat, List.reverse_append, List.reverse_singleton,
        List.singleton_append, List.filter_cons, hashAdd, Function.update_apply]
      by_cases hb : b = hash v
      · rw [if_pos hb, if_pos (by simp [hb]), ← ih, hb]
      · rw [if_neg hb, if_neg (by simp [Ne.symm hb]), ih]

theorem perm_insertedTable (hash : Int32 → Bucket) (values : List Int32) :
    (bucketNodes (insertedTable hash values)).Perm (newNodes values) := by
  induction values using List.reverseRecOn with
  | nil =>
      have hnil : insertedTable hash [] = fun _ => [] := rfl
      rw [hnil, bucketNodes_nil]
      exact List.Perm.refl _
  | append_singleton values v ih =>
      have hout : (hashAdd hash (insertedTable hash values) ⟨values.length, v⟩ (hash v)).Perm
          ([⟨values.length, v⟩] ++ insertedTable hash values (hash v)) := by
        rw [hashAdd, Function.update_self]
        exact List.Perm.refl _
      have hold : Function.update (hashAdd hash (insertedTable hash values) ⟨values.length, v⟩)
          (hash v) (insertedTable hash values (hash v)) = insertedTable hash values := by
        rw [hashAdd, Function.update_idem, Function.update_eq_self]
      rw [insertedTable_concat, newNodes_concat]
      have hperm := perm_bucketNodes hout
      rw [hold, List.singleton_append] at hperm
      have hlast : ∀ n : Node, (newNodes values ++ [n]).Perm (n :: newNodes values) := fun n =>
        List.perm_append_singleton n _
      exact (hperm.trans (ih.cons _)).trans (hlast _).symm

end Tables

/-- How often the value is in its bucket. -/
def copies (hash : Int32 → Bucket) (table : Bucket → List Node) (v : Int32) : ℕ :=
  ((table (hash v)).map Node.value).count v

/-- The nodes of the array are in the buckets of their values or have been freed, and a value
is in its bucket at most as often as it is still to be removed. -/
structure Removing (hash : Int32 → Bucket) (intArray rest : List Int32) (s : HashState) :
    Prop where
  placed : ∀ b, ∀ n ∈ s.myhashtable b, hash n.value = b
  conserved : (s.freed ++ bucketNodes s.myhashtable).Perm (newNodes intArray)
  few : ∀ v, copies hash s.myhashtable v ≤ rest.count v

section Removal
variable {hash : Int32 → Bucket} {w : Walk Node} {intArray rest : List Int32} {s : HashState}

theorem removing_insertedTable (hash : Int32 → Bucket) (intArray : List Int32) :
    Removing hash intArray intArray ⟨insertedTable hash intArray, []⟩ where
  placed b n hn := by
    dsimp only at hn
    rw [insertedTable_apply] at hn
    simpa using (List.mem_filter.mp hn).2
  conserved := by
    rw [List.nil_append]
    exact perm_insertedTable hash intArray
  few v := by
    have hcount : (((newNodes intArray).reverse).map Node.value).count v = intArray.count v := by
      rw [List.map_reverse, List.count_reverse, map_value_newNodes]
    rw [← hcount, copies]
    dsimp only
    rw [insertedTable_apply]
    exact (List.filter_sublist.map Node.value).count_le v

/-- A removal takes nodes of the number out of its bucket, and one at least if there are any. -/
theorem exists_removed (hash : Int32 → Bucket) (w : Walk Node) (s : HashState) (v : Int32) :
    ∃ bucket erased, removeHashTable hash w s v =
        ⟨Function.update s.myhashtable (hash v) bucket, s.freed ++ erased⟩ ∧
      (s.myhashtable (hash v)).Perm (erased ++ bucket) ∧ (∀ n ∈ erased, n.value = v) ∧
      ((∃ n ∈ s.myhashtable (hash v), n.value = v) → erased ≠ []) := by
  have hperm := Container.eraseWalk_perm (C := Container.chain) (w := w)
    (fun curr : Node => decide (curr.value = v)) (s.myhashtable (hash v))
  refine ⟨_, _, rfl, hperm, ?_, ?_⟩
  · intro n hn
    exact of_decide_eq_true
      (Container.sel_of_mem_eraseWalk (fun curr : Node => decide (curr.value = v)) _ hn)
  · intro ⟨n, hn, he⟩
    exact Container.eraseWalk_ne_nil (C := Container.chain)
      (fun curr : Node => decide (curr.value = v)) hn (decide_eq_true he)

/-- One copy of the number is gone, if there was one, and no other value is touched. -/
theorem Removing.step {v : Int32} (h : Removing hash intArray (v :: rest) s) :
    Removing hash intArray rest (removeHashTable hash w s v) := by
  obtain ⟨bucket, erased, hremoved, hperm, hvalue, hfound⟩ := exists_removed hash w s v
  rw [hremoved]
  refine ⟨?_, ?_, ?_⟩
  · intro b n hn
    dsimp only at hn
    rw [Function.update_apply] at hn
    split_ifs at hn with hb
    · rw [hb]
      exact h.placed _ n (hperm.mem_iff.mpr (List.mem_append_right _ hn))
    · exact h.placed b n hn
  · rw [List.append_assoc]
    exact ((perm_bucketNodes hperm).append_left s.freed).symm.trans h.conserved
  · intro u
    have hfew := h.few u
    have hcount := (hperm.map Node.value).count_eq u
    rw [List.map_append, List.count_append] at hcount
    unfold copies at hfew ⊢
    dsimp only
    by_cases huv : u = v
    · subst huv
      rw [List.count_cons_self] at hfew
      rw [Function.update_self]
      by_cases hnone : ((s.myhashtable (hash u)).map Node.value).count u = 0
      · omega
      · obtain ⟨n, hn, he⟩ := List.mem_map.mp (List.count_pos_iff.mp (Nat.pos_of_ne_zero hnone))
        obtain ⟨m, hm⟩ := List.exists_mem_of_ne_nil erased (hfound ⟨n, hn, he⟩)
        have htaken : 0 < (erased.map Node.value).count u :=
          List.count_pos_iff.mpr (List.mem_map.mpr ⟨m, hm, hvalue m hm⟩)
        omega
    · rw [List.count_cons_of_ne (Ne.symm huv)] at hfew
      by_cases hb : hash u = hash v
      · rw [hb] at hfew ⊢
        rw [Function.update_self]
        omega
      · rwa [Function.update_of_ne hb]

theorem Removing.all (h : Removing hash intArray rest s) :
    Removing hash intArray [] (rest.foldl (removeHashTable hash w) s) := by
  induction rest generalizing s with
  | nil => exact h
  | cons v rest ih => exact ih h.step

theorem Removing.emptied (h : Removing hash intArray [] s) (b : Bucket) :
    s.myhashtable b = [] := by
  apply List.eq_nil_iff_forall_not_mem.mpr
  intro n hn
  have hnone : copies hash s.myhashtable n.value = 0 := Nat.le_zero.mp (h.few n.value)
  rw [copies, h.placed b n hn, List.count_eq_zero] at hnone
  exact hnone (List.mem_map_of_mem hn)

theorem removing_final (hash : Int32 → Bucket) (w : Walk Node) (intArray : List Int32) :
    Removing hash intArray [] (runHashTable hash w intArray).final :=
  (removing_insertedTable hash intArray).all

theorem freed_runHashTable (hash : Int32 → Bucket) (w : Walk Node) (intArray : List Int32) :
    (runHashTable hash w intArray).final.freed.Perm (newNodes intArray) := by
  have h := removing_final hash w intArray
  have hconserved := h.conserved
  rwa [funext h.emptied, bucketNodes_nil, List.append_nil] at hconserved

end Removal

theorem lookup_insertedTable (hash : Int32 → Bucket) (values : List Int32) (v : Int32) :
    lookupHashTable hash (insertedTable hash values) v = List.replicate (values.count v) v := by
  have hsame : ∀ n : Node, (decide (n.value = v) && decide (hash n.value = hash v)) =
      decide (n.value = v) := by
    intro n
    by_cases he : n.value = v
    · simp [he]
    · simp [he]
  have hvalues : ((newNodes values).reverse.map Node.value).filter (fun u => u = v) =
      List.replicate (values.count v) v := by
    rw [List.map_reverse, map_value_newNodes, List.filter_eq, List.count_reverse]
  rw [lookupHashTable, insertedTable_apply, List.filter_filter]
  simp only [hsame]
  rw [← hvalues, List.filter_map]
  rfl

/-- The table holds the elements with their multiplicities, for the printing and for every
lookup, and is empty after the removal. -/
theorem table_is_multiset (hash : Int32 → Bucket) (w : Walk Node) (intArray : List Int32) :
    let run := runHashTable hash w intArray
    run.printed.Perm intArray ∧
      run.lookups = intArray.map (fun v => List.replicate (intArray.count v) v) ∧
      (∀ b, run.final.myhashtable b = []) ∧ run.printedAgain = [] := by
  intro run
  have hempty : ∀ b, run.final.myhashtable b = [] := (removing_final hash w intArray).emptied
  refine ⟨?_, ?_, hempty, ?_⟩
  · have hperm := (perm_insertedTable hash intArray).map Node.value
    rwa [map_value_newNodes] at hperm
  · exact List.map_congr_left fun v _ => lookup_insertedTable hash intArray v
  · have hprinted : run.printedAgain = printHashTable run.final.myhashtable := rfl
    rw [hprinted, funext hempty, printHashTable, bucketNodes_nil, List.map_nil]

end OperatingSystems.Kds
