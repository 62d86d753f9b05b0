import OperatingSystems.Perftop.Tables
import Mathlib.Data.List.Induction

/-!
# What the tables are after any events

The tree is strictly ordered by time and has a pid once; the hash table has a pid
once, in the bucket of the pid. The order is kept because an equal time rejects
the new node, and uniqueness by pid because both containers are searched for the
pid before a node for it is added. A removal erases one node at most, so it does
not matter where its walk goes on.
-/
namespace OperatingSystems.Perftop
open Library

variable {β : Type*}

structure ChainsOk (k : Kernel β) (table : β → List HashNode) : Prop where
  unique : ∀ b, ((table b).map HashNode.value).Nodup
  placed : ∀ b, ∀ curr ∈ table b, k.hash curr.value = b

structure TreeOk (root : BinaryTree RbNode) : Prop where
  sorted : Sorted RbNode.key root
  unique : ((inorder root).map RbNode.value).Nodup

theorem ChainsOk.filter {k : Kernel β} {table : β → List HashNode} (h : ChainsOk k table)
    (q : HashNode → Bool) : ChainsOk k fun b => (table b).filter q where
  unique b := (h.unique b).sublist (List.filter_sublist.map _)
  placed b curr hc := h.placed b curr (List.mem_filter.mp hc).1

/-- Two nodes with one pid are the same node of one bucket. -/
theorem ChainsOk.eq_of_value {k : Kernel β} {table : β → List HashNode} (h : ChainsOk k table)
    {b c : β} {m n : HashNode} (hm : m ∈ table b) (hn : n ∈ table c) (he : m.value = n.value) :
    b = c ∧ m = n := by
  have hbc : b = c := by rw [← h.placed b m hm, ← h.placed c n hn, he]
  subst hbc
  exact ⟨rfl, List.inj_on_of_nodup_map (h.unique b) hm hn he⟩

section Chains
variable [DecidableEq β] {k : Kernel β} {s : State β}

theorem removeHashTable_table (h : ChainsOk k s.myhashtable) (pid : ℤ) :
    (removeHashTable k s pid).myhashtable =
      fun b => (s.myhashtable b).filter fun curr => curr.value ≠ pid := by
  funext b
  unfold removeHashTable
  by_cases hb : b = k.hash pid
  · subst hb
    simp only [Function.update_self]
    exact (Container.eraseWalk_key (C := Container.chain) (h.unique _) pid).1
  · simp only [Function.update_of_ne hb]
    refine (List.filter_eq_self.mpr fun curr hc => ?_).symm
    have hne : curr.value ≠ pid := fun he => hb (by rw [← h.placed b curr hc, he])
    simpa using hne

theorem ChainsOk.removeHashTable (h : ChainsOk k s.myhashtable) (pid : ℤ) :
    ChainsOk k (removeHashTable k s pid).myhashtable := by
  rw [removeHashTable_table h]
  exact h.filter _

theorem ChainsOk.insertHashTable (h : ChainsOk k s.myhashtable) (pid : ℤ) (tsc : UInt64) :
    ChainsOk k (insertHashTable k s pid tsc).myhashtable := by
  have hr := h.removeHashTable pid
  have hnot : ∀ b, ∀ curr ∈ (Perftop.removeHashTable k s pid).myhashtable b, curr.value ≠ pid := by
    intro b curr hc
    rw [removeHashTable_table h] at hc
    simpa using (List.mem_filter.mp hc).2
  unfold Perftop.insertHashTable
  refine ⟨fun b => ?_, fun b curr hc => ?_⟩
  · by_cases hb : b = k.hash pid
    · subst hb
      simp only [Function.update_self, List.map_cons, List.nodup_cons]
      refine ⟨fun hmem => ?_, hr.unique _⟩
      obtain ⟨curr, hc, he⟩ := List.mem_map.mp hmem
      exact hnot _ curr hc he
    · simpa only [Function.update_of_ne hb] using hr.unique b
  · by_cases hb : b = k.hash pid
    · subst hb
      simp only [Function.update_self] at hc
      rcases List.mem_cons.mp hc with rfl | hc
      · rfl
      · exact hr.placed _ curr hc
    · simp only [Function.update_of_ne hb] at hc
      exact hr.placed b curr hc

theorem mem_removeHashTable (h : ChainsOk k s.myhashtable) {pid : ℤ} {b : β} {curr : HashNode}
    (hc : curr ∈ (removeHashTable k s pid).myhashtable b) : curr ∈ s.myhashtable b := by
  rw [removeHashTable_table h] at hc
  exact (List.mem_filter.mp hc).1

theorem mem_insertHashTable (h : ChainsOk k s.myhashtable) {pid : ℤ} {tsc : UInt64} {b : β}
    {curr : HashNode} (hc : curr ∈ (insertHashTable k s pid tsc).myhashtable b) :
    curr ∈ s.myhashtable b ∨ curr.tsc = tsc := by
  have hold : curr ∈ (removeHashTable k s pid).myhashtable b → curr ∈ s.myhashtable b :=
    mem_removeHashTable h
  unfold insertHashTable at hc
  by_cases hb : b = k.hash pid
  · subst hb
    simp only [Function.update_self] at hc
    rcases List.mem_cons.mp hc with rfl | hc
    · exact .inr rfl
    · exact .inl (hold hc)
  · simp only [Function.update_of_ne hb] at hc
    exact .inl (hold hc)

end Chains

section Tree
variable {k : Kernel β} {root : BinaryTree RbNode}

theorem TreeOk.erased {root' : BinaryTree RbNode} (h : TreeOk root) {q : RbNode → Bool}
    (he : inorder root' = (inorder root).filter q) : TreeOk root' where
  sorted := by
    unfold Sorted
    rw [he]
    exact h.sorted.sublist List.filter_sublist
  unique := by
    rw [he]
    exact h.unique.sublist (List.filter_sublist.map _)

theorem inorder_removeRbTree {s : State β} (h : TreeOk s.myroot) (pid : ℤ) :
    inorder (removeRbTree k s pid).myroot =
      (inorder s.myroot).filter fun temp => temp.value ≠ pid :=
  (Container.eraseWalk_key (C := k.rb.container) h.unique pid).1

/-- A node for a new pid is linked, unless another pid has the same time. -/
theorem insertRbTree_cases (h : TreeOk root) {n : RbNode}
    (hn : ∀ y ∈ inorder root, y.value ≠ n.value) :
    ((∃ y ∈ inorder root, y.tsc = n.tsc) ∧ insertRbTree k root n = (root, 0)) ∨
      (∀ y ∈ inorder root, y.tsc ≠ n.tsc) ∧ ∃ root', insertRbTree k root n = (root', 1) ∧
        (inorder root').Perm (n :: inorder root) ∧ TreeOk root' := by
  have hkey : ∀ y : RbNode, RbNode.key y = RbNode.key n ↔ y.tsc = n.tsc := fun y =>
    UInt64.toNat_inj
  unfold insertRbTree
  cases hl : link RbNode.key n root with
  | none =>
      obtain ⟨y, hy, he⟩ := (link_eq_none_iff h.sorted).mp hl
      exact .inl ⟨⟨y, hy, (hkey y).mp he⟩, rfl⟩
  | some root' =>
      have hperm := perm_of_link h.sorted hl
      refine .inr ⟨fun y hy he => ?_, _, rfl, ?_, ?_⟩
      · have hnone := (link_eq_none_iff h.sorted).mpr ⟨y, hy, (hkey y).mpr he⟩
        simp [hnone] at hl
      · rwa [k.rb.inorder_insertColor]
      · refine ⟨k.rb.sorted_insertColor (h.sorted.link hl) n, ?_⟩
        rw [k.rb.inorder_insertColor, (hperm.map _).nodup_iff]
        refine List.nodup_cons.mpr ⟨fun hmem => ?_, h.unique⟩
        obtain ⟨y, hy, he⟩ := List.mem_map.mp hmem
        exact hn y hy he

theorem TreeOk.insertRbTree (h : TreeOk root) {n : RbNode}
    (hn : ∀ y ∈ inorder root, y.value ≠ n.value) : TreeOk (insertRbTree k root n).1 := by
  rcases insertRbTree_cases (k := k) h hn with ⟨-, he⟩ | ⟨-, root', he, -, hok⟩
  · rwa [he]
  · rwa [he]

end Tree

structure Rep (k : Kernel β) (s : State β) : Prop where
  chains : ChainsOk k s.myhashtable
  tree : TreeOk s.myroot

theorem rep_init {k : Kernel β} : Rep k (State.init : State β) where
  chains := ⟨fun _ => List.nodup_nil, fun _ _ hc => absurd hc List.not_mem_nil⟩
  tree := ⟨List.Pairwise.nil, List.nodup_nil⟩

section Events
variable [DecidableEq β] {Task : Type*} [DecidableEq Task] {k : Kernel β} {s : State β}

theorem Rep.closeTurn (h : Rep k s) (prev : ℤ) (curr old : UInt64) :
    Rep k (closeTurn k s prev curr old) where
  chains := h.chains.removeHashTable prev
  tree := by
    have he := inorder_removeRbTree (k := k) (s := removeHashTable k s prev) h.tree prev
    apply (h.tree.erased he).insertRbTree
    intro y hy
    rw [he] at hy
    simpa using (List.mem_filter.mp hy).2

theorem Rep.switchTables (h : Rep k s) (prev next : ℤ) (curr : UInt64) :
    Rep k (switchTables k s prev next curr) := by
  unfold Perftop.switchTables
  have hclosed : Rep k (if lookupHashTable k s prev ≠ 0 then
      Perftop.closeTurn k s prev curr (lookupHashTable k s prev) else s) := by
    split_ifs
    · exact h.closeTurn _ _ _
    · exact h
  exact ⟨hclosed.chains.insertHashTable _ _, hclosed.tree⟩

theorem Rep.handle (h : Rep k s) (pid : Task → ℤ) (e : Event Task) :
    Rep k (Event.handle k pid s e) := by
  obtain ⟨prev, next, curr⟩ := e
  have h' : Rep k { s with postCount := s.postCount + 1 } := ⟨h.chains, h.tree⟩
  unfold Event.handle retPickNextFair
  cases prev with
  | none => exact h'
  | some prev =>
      cases next with
      | none => exact h'
      | some next =>
          dsimp only
          split_ifs with hne
          · exact h'.switchTables _ _ _
          · exact h'

theorem mem_switchTables (h : Rep k s) {prev next : ℤ} {curr : UInt64} {b : β} {m : HashNode}
    (hm : m ∈ (switchTables k s prev next curr).myhashtable b) :
    m ∈ s.myhashtable b ∨ m.tsc = curr := by
  unfold switchTables at hm
  by_cases hold : lookupHashTable k s prev ≠ 0
  · simp only [if_pos hold] at hm
    have hc := h.closeTurn prev curr (lookupHashTable k s prev)
    exact (mem_insertHashTable hc.chains hm).imp (mem_removeHashTable h.chains) id
  · simp only [if_neg hold] at hm
    exact mem_insertHashTable h.chains hm

/-- A start time is the time of the event that made it. -/
theorem mem_handle (h : Rep k s) {pid : Task → ℤ} {e : Event Task} {b : β} {m : HashNode}
    (hm : m ∈ (Event.handle k pid s e).myhashtable b) :
    m ∈ s.myhashtable b ∨ m.tsc = e.curr := by
  obtain ⟨prev, next, curr⟩ := e
  have h' : Rep k { s with postCount := s.postCount + 1 } := ⟨h.chains, h.tree⟩
  unfold Event.handle retPickNextFair at hm
  cases prev with
  | none => exact .inl hm
  | some prev =>
      cases next with
      | none => exact .inl hm
      | some next =>
          dsimp only at hm
          split_ifs at hm with hne
          · exact mem_switchTables h' hm
          · exact .inl hm

theorem rep_runEvents (pid : Task → ℤ) (evs : List (Event Task)) :
    Rep k (runEvents k pid evs) := by
  induction evs using List.reverseRecOn with
  | nil => exact rep_init
  | append_singleton evs e ih =>
      rw [runEvents_concat]
      exact ih.handle pid e

theorem mem_runEvents (pid : Task → ℤ) (evs : List (Event Task)) {b : β} {m : HashNode}
    (hm : m ∈ (runEvents k pid evs).myhashtable b) : ∃ e ∈ evs, m.tsc = e.curr := by
  induction evs using List.reverseRecOn with
  | nil => exact absurd hm List.not_mem_nil
  | append_singleton evs e ih =>
      rw [runEvents_concat] at hm
      rcases mem_handle (rep_runEvents pid evs) hm with hm | hm
      · obtain ⟨f, hf, he⟩ := ih hm
        exact ⟨f, by simp [hf], he⟩
      · exact ⟨e, by simp, hm⟩

end Events

/-- Strict order by time and uniqueness by pid, in both tables, after any events. -/
theorem tables_represent [DecidableEq β] {Task : Type*} [DecidableEq Task] (k : Kernel β)
    (pid : Task → ℤ) (evs : List (Event Task)) :
    let s := runEvents k pid evs
    (inorder s.myroot).Pairwise (fun y z => y.tsc < z.tsc) ∧
      ((inorder s.myroot).map RbNode.value).Nodup ∧
      (∀ b, ((s.myhashtable b).map HashNode.value).Nodup) ∧
      (∀ b c, ∀ m ∈ s.myhashtable b, ∀ n ∈ s.myhashtable c, m.value = n.value →
        b = c ∧ m = n) ∧
      ∀ b, ∀ m ∈ s.myhashtable b, k.hash m.value = b := by
  have h := rep_runEvents (k := k) pid evs
  refine ⟨?_, h.tree.unique, h.chains.unique, fun b c m hm n hn he =>
    h.chains.eq_of_value hm hn he, h.chains.placed⟩
  exact h.tree.sorted.imp fun hlt => UInt64.lt_iff_toNat_lt.mpr hlt

end OperatingSystems.Perftop
