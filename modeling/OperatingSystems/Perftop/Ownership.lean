import OperatingSystems.Library.Ledger
import OperatingSystems.Perftop.Exactness

/-!
# Who holds the nodes

Every node that was allocated should be linked in one bucket or in the tree, or have
been freed once. The operations move nodes that way, except that `insert_rb_tree` may
refuse a node: its result is ignored, and the node is then neither linked nor freed.
That happens when a turn is closed with a total that another pid has.
-/
namespace OperatingSystems.Perftop
open Library

inductive Holder (β : Type*) where
  | bucket (b : β)
  | tree
  | freed

section Holders
variable {β : Type*}

def ledger (s : State β) : Ledger (Holder β) where
  issued := s.allocated
  holds
    | .bucket b => (s.myhashtable b).map HashNode.addr
    | .tree => (inorder s.myroot).map RbNode.addr
    | .freed => s.freed

/-- Every node ever allocated is linked once in one container or was freed once. -/
def NothingLost (s : State β) : Prop := ∀ a < s.allocated, (ledger s).HeldOnce a

/-- A turn of `p` is closed with a total that another pid has. -/
def Accounts.Rejects (a : Accounts) (p : ℤ) (curr : UInt64) : Prop :=
  a.start p ≠ 0 ∧ ∃ r, r ≠ p ∧ a.total r = some (a.sum p curr)

/-- The event closes a turn with a total that another pid has in the state before it. -/
def Event.Rejected {Task : Type*} [DecidableEq Task] (k : Kernel β) (pid : Task → ℤ)
    (s : State β) (e : Event Task) : Prop :=
  ∃ p q, e.switched pid = some (p, q) ∧ (accounts k s).Rejects p e.curr

theorem perm_filter_key {α : Type*} (key : α → ℤ) (addr : α → ℕ) (nodes : List α) (pid : ℤ) :
    (nodes.map addr).Perm ((nodes.filter fun n => key n = pid).map addr ++
      (nodes.filter fun n => key n ≠ pid).map addr) := by
  have hparts := List.filter_append_perm (fun n => decide (key n = pid)) nodes
  rw [← List.map_append]
  simp only [ne_eq, decide_not]
  exact (hparts.map addr).symm

section Operations
variable [DecidableEq β] {k : Kernel β} {s : State β} {lost : List ℕ}

theorem removeHashTable_freed (h : ChainsOk k s.myhashtable) (pid : ℤ) :
    (removeHashTable k s pid).freed = s.freed ++
      ((s.myhashtable (k.hash pid)).filter fun curr => curr.value = pid).map HashNode.addr := by
  unfold removeHashTable
  dsimp only
  rw [(Container.eraseWalk_key (C := Container.chain) (h.unique _) pid).2]
  rfl

theorem removeHashTable_moves (h : ChainsOk k s.myhashtable) (pid : ℤ) :
    (ledger s).Moves (ledger (removeHashTable k s pid)) (.bucket (k.hash pid)) .freed
      (((s.myhashtable (k.hash pid)).filter fun curr => curr.value = pid).map HashNode.addr) where
  issued := rfl
  source := by
    simp only [ledger, removeHashTable_table h]
    exact perm_filter_key HashNode.value HashNode.addr _ pid
  target := by
    simp only [ledger, removeHashTable_freed h]
    exact List.perm_append_comm
  frame holder hb hf := by
    cases holder with
    | bucket b =>
        have hne : b ≠ k.hash pid := fun he => hb (congrArg Holder.bucket he)
        simp only [ledger, removeHashTable, Function.update_of_ne hne]
    | tree => rfl
    | freed => exact absurd rfl hf

theorem insertHashTable_issues (pid : ℤ) (tsc : UInt64) :
    (ledger (removeHashTable k s pid)).Issues (ledger (insertHashTable k s pid tsc))
      (.bucket (k.hash pid)) where
  issued := rfl
  target := by
    simp only [ledger, insertHashTable, Function.update_self, List.map_cons]
    exact List.Perm.refl _
  frame holder hb := by
    cases holder with
    | bucket b =>
        have hne : b ≠ k.hash pid := fun he => hb (congrArg Holder.bucket he)
        simp only [ledger, insertHashTable, Function.update_of_ne hne]
    | tree => rfl
    | freed => rfl

theorem wf_removeHashTable (h : ChainsOk k s.myhashtable) (hw : ((ledger s).withLost lost).Wf)
    (pid : ℤ) : ((ledger (removeHashTable k s pid)).withLost lost).Wf :=
  hw.moves (by simp) ((removeHashTable_moves h pid).withLost lost)

theorem wf_insertHashTable (h : ChainsOk k s.myhashtable) (hw : ((ledger s).withLost lost).Wf)
    (pid : ℤ) (tsc : UInt64) : ((ledger (insertHashTable k s pid tsc)).withLost lost).Wf :=
  (wf_removeHashTable h hw pid).issues ((insertHashTable_issues pid tsc).withLost lost)

omit [DecidableEq β] in
theorem removeRbTree_moves (h : TreeOk s.myroot) (pid : ℤ) :
    (ledger s).Moves (ledger (removeRbTree k s pid)) .tree .freed
      (((inorder s.myroot).filter fun temp => temp.value = pid).map RbNode.addr) where
  issued := rfl
  source := by
    simp only [ledger, inorder_removeRbTree h]
    exact perm_filter_key RbNode.value RbNode.addr _ pid
  target := by
    have hfreed : (removeRbTree k s pid).freed = s.freed ++
        ((inorder s.myroot).filter fun temp => temp.value = pid).map RbNode.addr := by
      unfold removeRbTree
      dsimp only
      rw [(Container.eraseWalk_key (C := k.rb.container) h.unique pid).2]
      rfl
    simp only [ledger, hfreed]
    exact List.perm_append_comm
  frame holder ht hf := by
    cases holder with
    | bucket b => rfl
    | tree => exact absurd rfl ht
    | freed => exact absurd rfl hf

omit [DecidableEq β] in
theorem wf_removeRbTree (h : TreeOk s.myroot) (hw : ((ledger s).withLost lost).Wf) (pid : ℤ) :
    ((ledger (removeRbTree k s pid)).withLost lost).Wf :=
  hw.moves (by simp) ((removeRbTree_moves h pid).withLost lost)

omit [DecidableEq β] in
/-- The new node is linked, or lost if a node has its time. -/
theorem wf_insertRedblackTrees (h : TreeOk s.myroot) (hw : ((ledger s).withLost lost).Wf)
    {pid : ℤ} (hpid : ∀ y ∈ inorder s.myroot, y.value ≠ pid) (tsc : UInt64) :
    ∃ lost', ((ledger (insertRedblackTrees k s pid tsc)).withLost lost').Wf ∧
      (∀ a ∈ lost', a ∈ lost ∨ s.allocated ≤ a) ∧
      (lost' = [] ↔ lost = [] ∧ ¬ ∃ y ∈ inorder s.myroot, y.tsc = tsc) := by
  rcases insertRbTree_cases (k := k) (n := ⟨s.allocated, pid, tsc⟩) h hpid with
    ⟨hequal, he⟩ | ⟨hnew, root', he, hperm, -⟩
  · refine ⟨s.allocated :: lost, ?_, ?_, ?_⟩
    · apply hw.issues
      apply Ledger.issues_lost rfl
      funext holder
      unfold insertRedblackTrees
      rw [he]
      cases holder <;> rfl
    · intro a ha
      exact (List.mem_cons.mp ha).symm.imp id ge_of_eq
    · have htie : ∃ y ∈ inorder s.myroot, y.tsc = tsc := hequal
      simp [htie]
  · refine ⟨lost, ?_, fun a ha => .inl ha, ?_⟩
    · apply hw.issues
      apply Ledger.Issues.withLost (i := .tree)
      unfold insertRedblackTrees
      rw [he]
      refine ⟨rfl, hperm.map RbNode.addr, ?_⟩
      intro holder ht
      cases holder with
      | bucket b => rfl
      | tree => exact absurd rfl ht
      | freed => rfl
    · have hfree : ¬ ∃ y ∈ inorder s.myroot, y.tsc = tsc := by
        rintro ⟨y, hy, htsc⟩
        exact hnew y hy htsc
      simp [hfree]

end Operations

section Handler
variable [DecidableEq β] {Task : Type*} [DecidableEq Task] {k : Kernel β} {s : State β}
  {lost : List ℕ}

theorem wf_closeTurn (h : Rep k s) (hw : ((ledger s).withLost lost).Wf) (p : ℤ) (curr : UInt64) :
    ∃ lost', ((ledger (closeTurn k s p curr (lookupHashTable k s p))).withLost lost').Wf ∧
      (∀ a ∈ lost', a ∈ lost ∨ s.allocated ≤ a) ∧
      (lost' = [] ↔
        lost = [] ∧ ¬ ∃ r, r ≠ p ∧ (accounts k s).total r = some ((accounts k s).sum p curr)) := by
  have hsum : lookupRbTree (removeHashTable k s p) p = ((accounts k s).total p).getD 0 :=
    lookupRbTree_eq _ p
  have htree : TreeOk (removeHashTable k s p).myroot := h.tree
  have hnodes := inorder_removeRbTree (k := k) htree p
  have hpid : ∀ y ∈ inorder (removeRbTree k (removeHashTable k s p) p).myroot, y.value ≠ p := by
    intro y hy
    rw [hnodes] at hy
    simpa using (List.mem_filter.mp hy).2
  have hclosed := wf_insertRedblackTrees (k := k) (htree.erased hnodes)
    (wf_removeRbTree htree (wf_removeHashTable h.chains hw p) p) hpid
    ((accounts k s).sum p curr)
  have htie : (∃ y ∈ inorder (removeRbTree k (removeHashTable k s p) p).myroot,
      y.tsc = (accounts k s).sum p curr) ↔
      ∃ r, r ≠ p ∧ (accounts k s).total r = some ((accounts k s).sum p curr) := by
    rw [hnodes]
    constructor
    · rintro ⟨y, hy, ht⟩
      obtain ⟨hmem, hne⟩ := List.mem_filter.mp hy
      exact ⟨y.value, by simpa using hne, (totalOf_eq_some_iff h.tree).mpr ⟨y, hmem, rfl, ht⟩⟩
    · rintro ⟨r, hr, ht⟩
      obtain ⟨y, hy, rfl, hy'⟩ := (totalOf_eq_some_iff h.tree).mp ht
      exact ⟨y, List.mem_filter.mpr ⟨hy, by simpa using hr⟩, hy'⟩
  rw [htie] at hclosed
  unfold closeTurn
  dsimp only
  rw [hsum]
  exact hclosed

theorem wf_switchTables (h : Rep k s) (hw : ((ledger s).withLost lost).Wf) (p q : ℤ)
    (curr : UInt64) :
    ∃ lost', ((ledger (switchTables k s p q curr)).withLost lost').Wf ∧
      (∀ a ∈ lost', a ∈ lost ∨ s.allocated ≤ a) ∧
      (lost' = [] ↔ lost = [] ∧ ¬ (accounts k s).Rejects p curr) := by
  have hstart : (accounts k s).start p = lookupHashTable k s p := rfl
  unfold switchTables Accounts.Rejects
  rw [hstart]
  by_cases hold : lookupHashTable k s p ≠ 0
  · simp only [ne_eq, hold, not_false_eq_true, true_and]
    obtain ⟨lost', hclosed, hnew, hiff⟩ := wf_closeTurn h hw p curr
    exact ⟨lost', wf_insertHashTable (h.closeTurn p curr _).chains hclosed q curr, hnew, hiff⟩
  · simp only [ne_eq, not_not.mp hold, not_true_eq_false, false_and,
      not_false_eq_true, and_true]
    exact ⟨lost, wf_insertHashTable h.chains hw q curr, fun a ha => .inl ha, Iff.rfl⟩

theorem wf_handle (h : Rep k s) (hw : ((ledger s).withLost lost).Wf) (pid : Task → ℤ)
    (e : Event Task) :
    ∃ lost', ((ledger (Event.handle k pid s e)).withLost lost').Wf ∧
      (∀ a ∈ lost', a ∈ lost ∨ s.allocated ≤ a) ∧
      (lost' = [] ↔ lost = [] ∧ ¬ e.Rejected k pid s) := by
  have hskip : e.switched pid = none → ¬ e.Rejected k pid s := by
    rintro hnone ⟨p, q, hsome, -⟩
    simp [hnone] at hsome
  obtain ⟨prev, next, curr⟩ := e
  unfold Event.handle retPickNextFair
  cases prev with
  | none => exact ⟨lost, hw, fun a ha => .inl ha, by simp [hskip rfl]⟩
  | some prev =>
      cases next with
      | none => exact ⟨lost, hw, fun a ha => .inl ha, by simp [hskip rfl]⟩
      | some next =>
          dsimp only
          split_ifs with hne
          · have hswitched : (⟨some prev, some next, curr⟩ : Event Task).switched pid =
                some (pid prev, pid next) := if_pos hne
            have h' : Rep k { s with postCount := s.postCount + 1 } := ⟨h.chains, h.tree⟩
            obtain ⟨lost', hw', hnew, hiff⟩ := wf_switchTables h' hw (pid prev) (pid next) curr
            refine ⟨lost', hw', hnew, hiff.trans (and_congr_right fun _ => not_congr ?_)⟩
            constructor
            · intro hr
              exact ⟨pid prev, pid next, hswitched, hr⟩
            · rintro ⟨p, q, hpq, hr⟩
              rw [hswitched] at hpq
              obtain ⟨rfl, rfl⟩ := Prod.mk.inj (Option.some.inj hpq)
              exact hr
          · exact ⟨lost, hw, fun a ha => .inl ha, by simp [hskip (if_neg hne)]⟩

theorem allocated_switchTables (k : Kernel β) (s : State β) (p q : ℤ) (curr : UInt64) :
    s.allocated ≤ (switchTables k s p q curr).allocated := by
  unfold switchTables
  by_cases hold : lookupHashTable k s p ≠ 0
  · simp only [if_pos hold]
    exact Nat.le_add_right s.allocated 2
  · simp only [if_neg hold]
    exact Nat.le_add_right s.allocated 1

theorem allocated_handle (k : Kernel β) (pid : Task → ℤ) (s : State β) (e : Event Task) :
    s.allocated ≤ (Event.handle k pid s e).allocated := by
  obtain ⟨prev, next, curr⟩ := e
  unfold Event.handle retPickNextFair
  cases prev with
  | none => exact Nat.le_refl s.allocated
  | some prev =>
      cases next with
      | none => exact Nat.le_refl s.allocated
      | some next =>
          dsimp only
          split_ifs
          · exact allocated_switchTables k { s with postCount := s.postCount + 1 } _ _ curr
          · exact Nat.le_refl s.allocated

omit [DecidableEq β] in
theorem wf_init : ((ledger (State.init : State β)).withLost []).Wf where
  fresh holder a ha := by
    cases holder with
    | none => cases ha
    | some holder => cases holder <;> cases ha
  once a ha := absurd ha (Nat.not_lt_zero a)

theorem wf_runEvents (pid : Task → ℤ) (evs : List (Event Task)) :
    ∃ lost, ((ledger (runEvents k pid evs)).withLost lost).Wf ∧
      (lost = [] ↔ ∀ before e, before ++ [e] <+: evs →
        ¬ e.Rejected k pid (runEvents k pid before)) := by
  induction evs using List.reverseRecOn with
  | nil => exact ⟨[], wf_init, by simp⟩
  | append_singleton evs e ih =>
      obtain ⟨lost, hw, hiff⟩ := ih
      obtain ⟨lost', hw', -, hiff'⟩ := wf_handle (rep_runEvents pid evs) hw pid e
      refine ⟨lost', by rwa [runEvents_concat], ?_⟩
      rw [hiff', hiff]
      constructor
      · rintro ⟨hevs, hlast⟩ before f hb
        rcases List.prefix_concat_iff.mp hb with he | hb
        · obtain ⟨rfl, hf⟩ := List.append_inj' he rfl
          obtain rfl := List.singleton_inj.mp hf
          exact hlast
        · exact hevs before f hb
      · intro hall
        exact ⟨fun before f hb => hall before f (hb.trans (List.prefix_append ..)),
          hall evs e (List.prefix_refl _)⟩

end Handler
end Holders

/-- No node is lost in a run exactly if no event of it closes a turn with a total that
another pid has. -/
theorem nothing_lost_iff {β : Type*} [DecidableEq β] {Task : Type*} [DecidableEq Task]
    (k : Kernel β) (pid : Task → ℤ) (evs : List (Event Task)) :
    (∀ before, before <+: evs → NothingLost (runEvents k pid before)) ↔
      ∀ before e, before ++ [e] <+: evs → ¬ e.Rejected k pid (runEvents k pid before) := by
  have hrun : ∀ evs : List (Event Task), NothingLost (runEvents k pid evs) ↔
      ∀ before e, before ++ [e] <+: evs → ¬ e.Rejected k pid (runEvents k pid before) := by
    intro evs
    obtain ⟨lost, hw, hiff⟩ := wf_runEvents (k := k) pid evs
    exact hw.lost_eq_nil_iff.symm.trans hiff
  constructor
  · intro h
    exact (hrun evs).mp (h evs (List.prefix_refl evs))
  · intro h before hb
    exact (hrun before).mpr fun before' e hb' => h before' e (hb'.trans hb)

/-- The node for the second of two equal totals. -/
theorem tiedTasks_leaked :
    ∃ before, before <+: tiedTasks ∧ ¬ NothingLost (runEvents singleBucket Nat.cast before) := by
  refine ⟨tiedTasks, List.prefix_refl _, fun h => ?_⟩
  obtain ⟨holder, hcount, -⟩ := h 3 (by decide +kernel)
  have hnowhere : (ledger (runEvents singleBucket Nat.cast tiedTasks)).holds (.bucket ()) = [4] ∧
      (ledger (runEvents singleBucket Nat.cast tiedTasks)).holds .tree = [1] ∧
      (ledger (runEvents singleBucket Nat.cast tiedTasks)).holds .freed = [0, 2] := by
    decide +kernel
  cases holder with
  | bucket b => simp [hnowhere.1] at hcount
  | tree => simp [hnowhere.2.1] at hcount
  | freed => simp [hnowhere.2.2] at hcount

end OperatingSystems.Perftop
