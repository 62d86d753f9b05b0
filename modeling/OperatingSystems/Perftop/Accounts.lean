import OperatingSystems.Perftop.Representation

/-!
# The tables as accounts

What the two tables mean, without buckets and trees: a start time for each pid,
with 0 for none, and a total for each pid that has a node. A switch from `p` to
`q` closes the turn of `p` if it has a start time, and opens one for `q`. The new
total of `p` is dropped if another pid has the same total, since the tree rejects
an equal key after the old node is gone.
-/
namespace OperatingSystems.Perftop
open Library

@[ext] structure Accounts where
  start : ℤ → UInt64
  total : ℤ → Option UInt64

namespace Accounts

def init : Accounts := ⟨fun _ => 0, fun _ => none⟩

/-- The value of `sum` in the return handler. -/
def sum (a : Accounts) (p : ℤ) (curr : UInt64) : UInt64 :=
  (a.total p).getD 0 + curr - a.start p

open Classical in
/-- The total for a pid that has none, unless another pid has the same. -/
noncomputable def addTotal (total : ℤ → Option UInt64) (p : ℤ) (sum : UInt64) :
    ℤ → Option UInt64 :=
  Function.update total p (if ∃ q, total q = some sum then none else some sum)

noncomputable def close (a : Accounts) (p : ℤ) (sum : UInt64) : Accounts where
  start := Function.update a.start p 0
  total := addTotal (Function.update a.total p none) p sum

noncomputable def switch (a : Accounts) (p q : ℤ) (curr : UInt64) : Accounts :=
  let a := if a.start p ≠ 0 then a.close p (a.sum p curr) else a
  { a with start := Function.update a.start q curr }

theorem close_total_iff (a : Accounts) {p q : ℤ} {sum t : UInt64} :
    (a.close p sum).total q = some t ↔
      (q = p ∧ t = sum ∧ ∀ r, r ≠ p → a.total r ≠ some sum) ∨ (q ≠ p ∧ a.total q = some t) := by
  have hfree : (∃ r, Function.update a.total p none r = some sum) ↔
      ∃ r, r ≠ p ∧ a.total r = some sum := by
    apply exists_congr
    intro r
    by_cases hr : r = p <;> simp [hr]
  unfold close addTotal
  by_cases hq : q = p
  · subst hq
    simp only [Function.update_self, true_and, ne_eq, not_true_eq_false, false_and, or_false]
    split_ifs with hex
    · obtain ⟨r, hr, ht⟩ := hfree.mp hex
      simp only [false_iff, not_and]
      exact fun _ h => h r hr ht
    · rw [Option.some.injEq]
      exact ⟨fun h => ⟨h.symm, fun r hr ht => hex (hfree.mpr ⟨r, hr, ht⟩)⟩, fun h => h.1.symm⟩
  · simp [hq]

theorem switch_start (a : Accounts) (p q : ℤ) (curr : UInt64) (r : ℤ) :
    (a.switch p q curr).start r = if r = q then curr else if r = p then 0 else a.start r := by
  unfold switch close
  by_cases hq : r = q
  · simp [hq]
  · by_cases hr : r = p
    · subst hr
      by_cases hs : a.start r = 0 <;> simp [hq, hs]
    · by_cases hs : a.start p = 0 <;> simp [hq, hr, hs]

theorem switch_total (a : Accounts) (p q : ℤ) (curr : UInt64) :
    (a.switch p q curr).total =
      if a.start p ≠ 0 then (a.close p (a.sum p curr)).total else a.total := by
  unfold switch
  split_ifs <;> rfl

/-- A switch changes the total of the task that goes off only. -/
theorem switch_total_of_ne (a : Accounts) {p q r : ℤ} {curr : UInt64} (hr : r ≠ p) :
    (a.switch p q curr).total r = a.total r := by
  rw [switch_total]
  split_ifs
  · simp only [close, addTotal, Function.update_of_ne hr]
  · rfl

/-- A total after a switch is the sum of the closed turn, or it was there before. -/
theorem switch_total_cases (a : Accounts) {p q r : ℤ} {curr t : UInt64}
    (ht : (a.switch p q curr).total r = some t) :
    (r = p ∧ a.start p ≠ 0 ∧ t = a.sum p curr) ∨
      ((r = p → a.start p = 0) ∧ a.total r = some t) := by
  rw [switch_total] at ht
  split_ifs at ht with hs
  · rcases a.close_total_iff.mp ht with ⟨hr, rfl, -⟩ | ⟨hr, hold⟩
    · exact .inl ⟨hr, hs, rfl⟩
    · exact .inr ⟨fun he => absurd he hr, hold⟩
  · exact .inr ⟨fun _ => not_not.mp hs, ht⟩

end Accounts

/-- The pids of a switch that the return handler counts. -/
def Event.switched {Task : Type*} [DecidableEq Task] (pid : Task → ℤ) (e : Event Task) :
    Option (ℤ × ℤ) :=
  match e.prev, e.next with
  | some prev, some next => if prev ≠ next then some (pid prev, pid next) else none
  | _, _ => none

def totalOf (root : BinaryTree RbNode) (pid : ℤ) : Option UInt64 :=
  ((inorder root).find? fun temp => temp.value = pid).map RbNode.tsc

theorem totalOf_eq_some_iff {root : BinaryTree RbNode} (h : TreeOk root) {p : ℤ} {t : UInt64} :
    totalOf root p = some t ↔ ∃ n ∈ inorder root, n.value = p ∧ n.tsc = t := by
  unfold totalOf
  constructor
  · intro hs
    obtain ⟨n, hn, rfl⟩ := Option.map_eq_some_iff.mp hs
    exact ⟨n, List.mem_of_find?_eq_some hn, by simpa using List.find?_some hn, rfl⟩
  · rintro ⟨n, hn, rfl, rfl⟩
    rw [← List.head?_filter, (Container.filter_key_eq h.unique hn).1]
    rfl

theorem lookupRbTree_eq {β : Type*} (s : State β) (p : ℤ) :
    lookupRbTree s p = (totalOf s.myroot p).getD 0 := by
  unfold lookupRbTree totalOf
  cases (inorder s.myroot).find? fun temp => temp.value = p <;> rfl

section Lookups
variable {β : Type*} [DecidableEq β] {k : Kernel β} {s : State β}

theorem lookup_removeHashTable (h : ChainsOk k s.myhashtable) (p q : ℤ) :
    lookupHashTable k (removeHashTable k s p) q = if q = p then 0 else lookupHashTable k s q := by
  unfold lookupHashTable
  rw [removeHashTable_table h]
  dsimp only
  rw [List.find?_filter]
  split_ifs with hq
  · subst hq
    rw [List.find?_eq_none.mpr (by simp)]
  · have hsame : (fun curr : HashNode =>
        decide (decide (curr.value ≠ p) = true ∧ decide (curr.value = q) = true)) =
        fun curr => decide (curr.value = q) := by
      funext curr
      by_cases hc : curr.value = q <;> simp [hc, hq]
    rw [hsame]

theorem lookup_insertHashTable (h : ChainsOk k s.myhashtable) (p q : ℤ) (t : UInt64) :
    lookupHashTable k (insertHashTable k s p t) q = if q = p then t else lookupHashTable k s q := by
  have hr := lookup_removeHashTable h p q
  unfold insertHashTable
  generalize removeHashTable k s p = s' at hr ⊢
  unfold lookupHashTable at hr ⊢
  dsimp only
  by_cases hq : q = p
  · subst hq
    simp
  · rw [if_neg hq] at hr ⊢
    rw [← hr]
    by_cases hb : k.hash q = k.hash p
    · simp [hb, Ne.symm hq]
    · simp [Function.update_of_ne hb]

end Lookups

section Totals
variable {β : Type*} {k : Kernel β} {s : State β} {root : BinaryTree RbNode}

theorem totalOf_removeRbTree (h : TreeOk s.myroot) (p : ℤ) :
    totalOf (removeRbTree k s p).myroot = Function.update (totalOf s.myroot) p none := by
  have he := inorder_removeRbTree (k := k) h p
  funext q
  ext t
  rw [totalOf_eq_some_iff (h.erased he), he]
  simp only [List.mem_filter]
  by_cases hq : q = p
  · subst hq
    simp only [Function.update_self, reduceCtorEq, iff_false]
    rintro ⟨n, ⟨-, hne⟩, hv, -⟩
    simp [hv] at hne
  · rw [Function.update_of_ne hq, totalOf_eq_some_iff h]
    constructor
    · rintro ⟨n, ⟨hn, -⟩, hv⟩
      exact ⟨n, hn, hv⟩
    · rintro ⟨n, hn, hv⟩
      exact ⟨n, ⟨hn, by simpa [hv.1] using hq⟩, hv⟩

theorem totalOf_insertRbTree (h : TreeOk root) {n : RbNode}
    (hn : totalOf root n.value = none) :
    totalOf (insertRbTree k root n).1 = Accounts.addTotal (totalOf root) n.value n.tsc := by
  unfold Accounts.addTotal
  have hnew : ∀ y ∈ inorder root, y.value ≠ n.value := by
    intro y hy he
    have hsome := (totalOf_eq_some_iff h).mpr ⟨y, hy, he, rfl⟩
    simp [hn] at hsome
  rcases insertRbTree_cases (k := k) h hnew with ⟨⟨y, hy, he⟩, hr⟩ | ⟨hne, root', hr, hp, hok⟩
  · have hsome := (totalOf_eq_some_iff h).mpr ⟨y, hy, rfl, he⟩
    rw [hr, if_pos ⟨_, hsome⟩, ← hn, Function.update_eq_self]
  · have hfree : ¬ ∃ q, totalOf root q = some n.tsc := by
      rintro ⟨q, hq⟩
      obtain ⟨y, hy, -, he⟩ := (totalOf_eq_some_iff h).mp hq
      exact hne y hy he
    rw [hr, if_neg hfree]
    funext q
    ext t
    rw [totalOf_eq_some_iff hok]
    simp only [hp.mem_iff, List.mem_cons]
    by_cases hq : q = n.value
    · subst hq
      simp only [Function.update_self, Option.some.injEq]
      constructor
      · rintro ⟨y, rfl | hy, hv, ht⟩
        · exact ht
        · exact absurd hv (hnew y hy)
      · intro ht
        exact ⟨n, .inl rfl, rfl, ht⟩
    · rw [Function.update_of_ne hq, totalOf_eq_some_iff h]
      constructor
      · rintro ⟨y, rfl | hy, hv, ht⟩
        · exact absurd hv.symm hq
        · exact ⟨y, hy, hv, ht⟩
      · rintro ⟨y, hy, hv⟩
        exact ⟨y, .inr hy, hv⟩

end Totals

def accounts {β : Type*} (k : Kernel β) (s : State β) : Accounts :=
  ⟨lookupHashTable k s, totalOf s.myroot⟩

theorem accounts_init {β : Type*} (k : Kernel β) : accounts k State.init = Accounts.init := rfl

section Handler
variable {β : Type*} [DecidableEq β] {Task : Type*} [DecidableEq Task] {k : Kernel β}
  {s : State β}

theorem accounts_closeTurn (h : Rep k s) (p : ℤ) (curr : UInt64) :
    accounts k (closeTurn k s p curr (lookupHashTable k s p)) =
      (accounts k s).close p ((accounts k s).sum p curr) := by
  have hsum : lookupRbTree (removeHashTable k s p) p = ((accounts k s).total p).getD 0 :=
    lookupRbTree_eq _ p
  have hr : TreeOk (removeHashTable k s p).myroot := h.tree
  have htotal := totalOf_removeRbTree (k := k) hr p
  have hremoved : TreeOk (removeRbTree k (removeHashTable k s p) p).myroot :=
    hr.erased (inorder_removeRbTree hr p)
  ext1
  · funext q
    exact (lookup_removeHashTable h.chains p q).trans (Function.update_apply ..).symm
  · unfold closeTurn insertRedblackTrees
    simp only [accounts, hsum]
    rw [totalOf_insertRbTree hremoved (by rw [htotal]; exact Function.update_self ..), htotal]
    rfl

theorem accounts_insertHashTable (h : Rep k s) (p : ℤ) (t : UInt64) :
    accounts k (insertHashTable k s p t) =
      { accounts k s with start := Function.update (accounts k s).start p t } := by
  ext1
  · funext q
    exact (lookup_insertHashTable h.chains p q t).trans (Function.update_apply ..).symm
  · rfl

theorem accounts_switchTables (h : Rep k s) (p q : ℤ) (curr : UInt64) :
    accounts k (switchTables k s p q curr) = (accounts k s).switch p q curr := by
  have hstart : (accounts k s).start p = lookupHashTable k s p := rfl
  unfold switchTables Accounts.switch
  rw [hstart]
  by_cases hold : lookupHashTable k s p ≠ 0
  · have hi := accounts_insertHashTable (h.closeTurn p curr (lookupHashTable k s p)) q curr
    rw [accounts_closeTurn h] at hi
    simp only [if_pos hold]
    exact hi
  · simp only [if_neg hold]
    exact accounts_insertHashTable h q curr

/-- What an event does to the accounts. -/
theorem accounts_handle (h : Rep k s) (pid : Task → ℤ) (e : Event Task) :
    accounts k (Event.handle k pid s e) =
      match e.switched pid with
      | some (p, q) => (accounts k s).switch p q e.curr
      | none => accounts k s := by
  obtain ⟨prev, next, curr⟩ := e
  have h' : Rep k { s with postCount := s.postCount + 1 } := ⟨h.chains, h.tree⟩
  unfold Event.handle retPickNextFair Event.switched
  cases prev with
  | none => rfl
  | some prev =>
      cases next with
      | none => rfl
      | some next =>
          dsimp only
          by_cases hne : prev ≠ next
          · rw [if_pos hne, if_pos hne]
            exact accounts_switchTables h' (pid prev) (pid next) curr
          · rw [if_neg hne, if_neg hne]
            rfl

end Handler

end OperatingSystems.Perftop
