import OperatingSystems.Perftop.Accounts

/-!
# The hash table as a finite map

Any sequence of calls of the three operations, from the table that `hash_init`
leaves. A lookup finds the first node of the pid in its bucket, and a removal walks
on from a node it has given back; both are right because an insertion removes before
it adds, so that a bucket has a pid once. What a lookup returns is then said by the
calls alone.
-/
namespace OperatingSystems.Perftop

inductive TableCall where
  | insert (pid : ℤ) (inputTsc : UInt64)
  | remove (number : ℤ)
  | lookup (number : ℤ)
deriving DecidableEq

namespace TableCall

def pid : TableCall → ℤ
  | insert pid _ => pid
  | remove number => number
  | lookup number => number

/-- The value that the call gives to its pid; 0 stands for none. -/
def assigned : TableCall → Option UInt64
  | insert _ inputTsc => some inputTsc
  | remove _ => some 0
  | lookup _ => none

/-- The value that the call gives to `q`. -/
def assigns (q : ℤ) (call : TableCall) : Option UInt64 :=
  if call.pid = q then call.assigned else none

theorem assigns_self (call : TableCall) : call.assigns call.pid = call.assigned := if_pos rfl

theorem assigns_other {call : TableCall} {q : ℤ} (hq : call.pid ≠ q) : call.assigns q = none :=
  if_neg hq

end TableCall

/-- The value given to `q` by the latest call that gives it one. -/
def latestAssigned (calls : List TableCall) (q : ℤ) : UInt64 :=
  (calls.reverse.findSome? (TableCall.assigns q)).getD 0

theorem latestAssigned_concat (calls : List TableCall) (call : TableCall) (q : ℤ) :
    latestAssigned (calls ++ [call]) q = (call.assigns q).getD (latestAssigned calls q) := by
  unfold latestAssigned
  rw [List.reverse_append, List.reverse_singleton, List.singleton_append, List.findSome?_cons]
  cases call.assigns q with
  | none => rfl
  | some value => rfl

section Calls
variable {β : Type*} [DecidableEq β] (k : Kernel β)

/-- The state after a call; a lookup changes nothing. -/
def TableCall.perform (s : State β) : TableCall → State β
  | .insert pid inputTsc => insertHashTable k s pid inputTsc
  | .remove number => removeHashTable k s number
  | .lookup _ => s

def runCalls (calls : List TableCall) : State β :=
  calls.foldl (TableCall.perform k) State.init

theorem runCalls_concat (calls : List TableCall) (call : TableCall) :
    runCalls k (calls ++ [call]) = call.perform k (runCalls k calls) := by
  rw [runCalls, List.foldl_append]
  rfl

variable {k} {s : State β}

theorem ChainsOk.perform (h : ChainsOk k s.myhashtable) (call : TableCall) :
    ChainsOk k (call.perform k s).myhashtable := by
  cases call with
  | insert pid inputTsc => exact h.insertHashTable pid inputTsc
  | remove number => exact h.removeHashTable number
  | lookup number => exact h

theorem lookup_perform (h : ChainsOk k s.myhashtable) (call : TableCall) (q : ℤ) :
    lookupHashTable k (call.perform k s) q = (call.assigns q).getD (lookupHashTable k s q) := by
  by_cases hq : call.pid = q
  · subst hq
    rw [call.assigns_self]
    cases call with
    | insert pid inputTsc => exact (lookup_insertHashTable h pid pid inputTsc).trans (if_pos rfl)
    | remove number => exact (lookup_removeHashTable h number number).trans (if_pos rfl)
    | lookup number => rfl
  · rw [TableCall.assigns_other hq]
    cases call with
    | insert pid inputTsc =>
        exact (lookup_insertHashTable h pid q inputTsc).trans (if_neg (Ne.symm hq))
    | remove number => exact (lookup_removeHashTable h number q).trans (if_neg (Ne.symm hq))
    | lookup number => rfl

theorem chainsOk_runCalls (calls : List TableCall) : ChainsOk k (runCalls k calls).myhashtable := by
  induction calls using List.reverseRecOn with
  | nil => exact rep_init.chains
  | append_singleton calls call ih =>
      rw [runCalls_concat]
      exact ih.perform call

theorem lookup_runCalls (calls : List TableCall) (q : ℤ) :
    lookupHashTable k (runCalls k calls) q = latestAssigned calls q := by
  induction calls using List.reverseRecOn with
  | nil => rfl
  | append_singleton calls call ih =>
      rw [runCalls_concat, lookup_perform (chainsOk_runCalls calls), ih, latestAssigned_concat]

end Calls

/-- A call leaves the latest value of a pid that it is not about. -/
theorem latestAssigned_other (calls : List TableCall) {call : TableCall} {q : ℤ}
    (hq : call.pid ≠ q) : latestAssigned (calls ++ [call]) q = latestAssigned calls q := by
  rw [latestAssigned_concat, TableCall.assigns_other hq, Option.getD_none]

/-- Calls that do not give `q` a value leave its latest one. -/
theorem latestAssigned_append (calls : List TableCall) {after : List TableCall} {q : ℤ}
    (h : ∀ call ∈ after, call.assigns q = none) :
    latestAssigned (calls ++ after) q = latestAssigned calls q := by
  induction after using List.reverseRecOn with
  | nil => rw [List.append_nil]
  | append_singleton after call ih =>
      rw [← List.append_assoc, latestAssigned_concat, h call (by simp), Option.getD_none]
      exact ih fun call' hc => h call' (List.mem_append_left _ hc)

/-- The table is a finite map: a lookup returns the value of the latest insertion of its
pid that no removal follows, and 0 if there is none; no call matters to another pid. -/
theorem table_is_map {β : Type*} [DecidableEq β] (k : Kernel β) (q : ℤ) :
    (∀ calls inputTsc after, (∀ call ∈ after, call.assigns q = none) →
      lookupHashTable k (runCalls k (calls ++ .insert q inputTsc :: after)) q = inputTsc) ∧
    (∀ calls after, (∀ call ∈ after, call.assigns q = none) →
      lookupHashTable k (runCalls k (calls ++ .remove q :: after)) q = 0) ∧
    (∀ calls, (∀ call ∈ calls, call.assigns q = none) →
      lookupHashTable k (runCalls k calls) q = 0) ∧
    ∀ calls call, call.pid ≠ q →
      lookupHashTable k (runCalls k (calls ++ [call])) q =
        lookupHashTable k (runCalls k calls) q := by
  have hlatest : ∀ (calls : List TableCall) (call : TableCall) (after : List TableCall),
      call.pid = q → (∀ call ∈ after, call.assigns q = none) →
      lookupHashTable k (runCalls k (calls ++ call :: after)) q =
        call.assigned.getD (latestAssigned calls q) := by
    intro calls call after hq hafter
    rw [lookup_runCalls, List.append_cons, latestAssigned_append _ hafter, latestAssigned_concat,
      ← hq, call.assigns_self]
  refine ⟨?_, ?_, ?_, ?_⟩
  · intro calls inputTsc after hafter
    exact hlatest calls (.insert q inputTsc) after rfl hafter
  · intro calls after hafter
    exact hlatest calls (.remove q) after rfl hafter
  · intro calls hcalls
    rw [lookup_runCalls]
    exact latestAssigned_append [] hcalls
  · intro calls call hq
    rw [lookup_runCalls, lookup_runCalls, latestAssigned_other calls hq]

/-- Two pids in one bucket. -/
theorem table_is_map_oneBucket :
    let calls : List TableCall := [.insert 1 5, .insert 2 7, .remove 2]
    lookupHashTable singleBucket (runCalls singleBucket calls) 1 = 5 ∧
      lookupHashTable singleBucket (runCalls singleBucket calls) 2 = 0 :=
  ⟨(table_is_map singleBucket 1).1 [] 5 [.insert 2 7, .remove 2] (by decide),
    (table_is_map singleBucket 2).2.1 [.insert 1 5, .insert 2 7] [] (by decide)⟩

end OperatingSystems.Perftop
