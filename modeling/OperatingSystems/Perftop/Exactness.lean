import OperatingSystems.Perftop.NoWrap
import Mathlib.Algebra.BigOperators.Group.List.Basic
import Mathlib.Algebra.GroupWithZero.Nat

/-!
# When the totals are exact

`Turns` is the account that a profile should keep of one pid: the time at which
its current turn was opened, and the lengths of its closed turns. The tables keep
the sum, as long as no two pids have the same sum: the tree takes the second one
for a node that it already has, after the old node of the pid was erased.
-/
namespace OperatingSystems.Perftop
open Library

structure Turns where
  opened : Option ℕ
  closed : List ℕ

namespace Turns

/-- The sum over the closed turns, if there are any. -/
def total (t : Turns) : Option ℕ := if t.closed = [] then none else some t.closed.sum

def close (t : Turns) (curr : ℕ) : Turns :=
  match t.opened with
  | some since => ⟨none, t.closed ++ [curr - since]⟩
  | none => t

/-- The turns of `r` after a switch from `p` to `q`. -/
def switch (p q : ℤ) (curr : ℕ) (r : ℤ) (t : Turns) : Turns :=
  let t := if r = p then t.close curr else t
  if r = q then { t with opened := some curr } else t

theorem close_opened (t : Turns) (curr : ℕ) : (t.close curr).opened = none := by
  unfold close
  cases h : t.opened with
  | none => exact h
  | some since => rfl

theorem switch_opened (t : Turns) (p q : ℤ) (curr : ℕ) (r : ℤ) :
    (t.switch p q curr r).opened =
      if r = q then some curr else if r = p then none else t.opened := by
  unfold switch
  by_cases hq : r = q
  · simp only [if_pos hq]
  · simp only [if_neg hq]
    by_cases hp : r = p
    · simp only [if_pos hp, close_opened]
    · simp only [if_neg hp]

theorem switch_total (t : Turns) (p q : ℤ) (curr : ℕ) (r : ℤ) :
    (t.switch p q curr r).total = if r = p then (t.close curr).total else t.total := by
  unfold switch
  split_ifs <;> rfl

/-- Closing a turn adds its length. -/
theorem close_total {t : Turns} {since : ℕ} (h : t.opened = some since) (curr : ℕ) :
    (t.close curr).total = some (t.closed.sum + (curr - since)) := by
  simp [close, h, total]

end Turns

section
variable {β : Type*} [DecidableEq β] {Task : Type*} [DecidableEq Task]

def turnsAfter (pid : Task → ℤ) (r : ℤ) (t : Turns) (e : Event Task) : Turns :=
  match e.switched pid with
  | some (p, q) => t.switch p q e.curr.toNat r
  | none => t

def turnsOf (pid : Task → ℤ) (evs : List (Event Task)) (r : ℤ) : Turns :=
  evs.foldl (turnsAfter pid r) ⟨none, []⟩

/-- One node with the exact total for a pid with a closed turn, and none otherwise. -/
def Exact (pid : Task → ℤ) (evs : List (Event Task)) (root : BinaryTree RbNode) : Prop :=
  ∀ r, ((inorder root).filter fun n => n.value = r).map (fun n => n.tsc.toNat) =
    (turnsOf pid evs r).total.toList

/-- No two pids have the same exact total. -/
def NoTie (pid : Task → ℤ) (evs : List (Event Task)) : Prop :=
  ∀ p q x, (turnsOf pid evs p).total = some x → (turnsOf pid evs q).total = some x → p = q

end

/-- The accounts are those of the turns. -/
structure Agrees (a : Accounts) (turns : ℤ → Turns) : Prop where
  opened : ∀ r, (turns r).opened = if a.start r = 0 then none else some (a.start r).toNat
  total : ∀ r, (turns r).total = (a.total r).map UInt64.toNat

theorem Agrees.sum_closed {a : Accounts} {turns : ℤ → Turns} (h : Agrees a turns) (r : ℤ) :
    ((a.total r).getD 0).toNat = (turns r).closed.sum := by
  have ht := h.total r
  unfold Turns.total at ht
  cases ha : a.total r with
  | none =>
      rw [ha] at ht
      have hnil : (turns r).closed = [] := by simpa using ht
      simp [hnil]
  | some t =>
      rw [ha] at ht
      by_cases hnil : (turns r).closed = []
      · simp [hnil] at ht
      · rw [if_neg hnil] at ht
        exact (Option.some.inj ht).symm

/-- A switch keeps the accounts exact, unless it makes two totals equal. -/
theorem Agrees.switch {a : Accounts} {turns : ℤ → Turns} (h : Agrees a turns)
    {latest curr : UInt64} (hb : Bounded a latest) (hl : latest ≤ curr) (hc : curr ≠ 0) {p q : ℤ}
    (htie : ∀ r s x, ((turns r).switch p q curr.toNat r).total = some x →
      ((turns s).switch p q curr.toNat s).total = some x → r = s) :
    Agrees (a.switch p q curr) fun r => (turns r).switch p q curr.toNat r where
  opened r := by
    rw [Turns.switch_opened, Accounts.switch_start, h.opened]
    split_ifs with hq hp hs <;> simp_all
  total r := by
    have htotal := fun s => (turns s).switch_total p q curr.toNat s
    rw [htotal, Accounts.switch_total]
    by_cases hs : a.start p = 0
    · have hclose : (turns p).close curr.toNat = turns p := by
        simp [Turns.close, h.opened p, hs]
      rw [if_neg (not_not.mpr hs), ← h.total r]
      split_ifs with hr
      · rw [hr, hclose]
      · rfl
    · rw [if_pos hs]
      have hopened : (turns p).opened = some (a.start p).toNat := by rw [h.opened, if_neg hs]
      have hnew : ((turns p).close curr.toNat).total = some (a.sum p curr).toNat := by
        rw [Turns.close_total hopened, (hb.sum_toNat hl hs).1, h.sum_closed]
      have hfree : ∀ r, r ≠ p → a.total r ≠ some (a.sum p curr) := by
        intro r hr ht
        refine hr (htie r p (a.sum p curr).toNat ?_ ?_)
        · rw [htotal, if_neg hr, h.total, ht]
          rfl
        · rw [htotal, if_pos rfl, hnew]
      split_ifs with hr
      · subst hr
        rw [hnew, a.close_total_iff.mpr (.inl ⟨rfl, rfl, hfree⟩)]
        rfl
      · rw [h.total r]
        congr 1
        ext t
        rw [Accounts.close_total_iff]
        simp [hr]

section Runs
variable {β : Type*} [DecidableEq β] {Task : Type*} [DecidableEq Task] {k : Kernel β}
  {pid : Task → ℤ}

theorem turnsOf_concat (evs : List (Event Task)) (e : Event Task) (r : ℤ) :
    turnsOf pid (evs ++ [e]) r = turnsAfter pid r (turnsOf pid evs r) e := by
  rw [turnsOf, List.foldl_append]
  rfl

/-- The accounts of a run without ties. -/
theorem agrees_runEvents {evs : List (Event Task)}
    (hmono : evs.Pairwise fun e f => e.curr ≤ f.curr) (hnz : ∀ e ∈ evs, e.curr ≠ 0)
    (htie : ∀ before, before <+: evs → NoTie pid before) :
    Agrees (accounts k (runEvents k pid evs)) (turnsOf pid evs) := by
  induction evs using List.reverseRecOn with
  | nil => exact ⟨fun _ => rfl, fun _ => rfl⟩
  | append_singleton evs e ih =>
      obtain ⟨hevs, -, he⟩ := List.pairwise_append.mp hmono
      have hl : latest evs ≤ e.curr := latest_le fun f hf => he f hf e (by simp)
      have hprev := ih hevs (fun f hf => hnz f (by simp [hf]))
        fun before hb => htie before (hb.trans (List.prefix_append evs [e]))
      have hlast := htie (evs ++ [e]) (List.prefix_refl _)
      have hturns : turnsOf pid (evs ++ [e]) =
          fun r => turnsAfter pid r (turnsOf pid evs r) e := funext (turnsOf_concat evs e)
      unfold NoTie at hlast
      rw [runEvents_concat, accounts_handle (rep_runEvents pid evs)]
      rw [hturns] at hlast ⊢
      unfold turnsAfter at hlast ⊢
      cases hsw : e.switched pid with
      | none => exact hprev
      | some pq =>
          simp only [hsw] at hlast ⊢
          exact hprev.switch (bounded_runEvents pid hevs) hl (hnz e (by simp)) hlast

/-- The nodes of a pid are at most one, so its total says how many there are. -/
theorem exact_iff {root : BinaryTree RbNode} (h : TreeOk root) (evs : List (Event Task)) :
    Exact pid evs root ↔
      ∀ r, (turnsOf pid evs r).total = (totalOf root r).map UInt64.toNat := by
  apply forall_congr'
  intro r
  have hnodes : ((inorder root).filter fun n => n.value = r).map (fun n => n.tsc.toNat) =
      ((totalOf root r).map UInt64.toNat).toList := by
    cases ht : totalOf root r with
    | none =>
        unfold totalOf at ht
        have hnone := List.find?_eq_none.mp (Option.map_eq_none_iff.mp ht)
        rw [List.filter_eq_nil_iff.mpr hnone]
        rfl
    | some t =>
        obtain ⟨n, hn, rfl, rfl⟩ := (totalOf_eq_some_iff h).mp ht
        rw [(Container.filter_key_eq h.unique hn).1]
        rfl
  rw [hnodes]
  cases (totalOf root r).map UInt64.toNat <;> cases (turnsOf pid evs r).total <;>
    simp [eq_comm]

end Runs

/-- The totals are exact after every event if and only if no two are ever equal. -/
theorem totals_exact_iff {β : Type*} [DecidableEq β] {Task : Type*} [DecidableEq Task]
    (k : Kernel β) (pid : Task → ℤ) (evs : List (Event Task))
    (hmono : evs.Pairwise fun e f => e.curr < f.curr) (hnz : ∀ e ∈ evs, e.curr ≠ 0) :
    (∀ before, before <+: evs → Exact pid before (runEvents k pid before).myroot) ↔
      ∀ before, before <+: evs → NoTie pid before := by
  have hle : evs.Pairwise fun e f => e.curr ≤ f.curr := hmono.imp UInt64.le_of_lt
  constructor
  · intro h before hb p q x hp hq
    have htree := (rep_runEvents (k := k) pid before).tree
    have hexact := (exact_iff htree before).mp (h before hb)
    rw [hexact] at hp hq
    obtain ⟨t, ht, rfl⟩ := Option.map_eq_some_iff.mp hp
    obtain ⟨u, hu, he⟩ := Option.map_eq_some_iff.mp hq
    obtain ⟨m, hm, rfl, rfl⟩ := (totalOf_eq_some_iff htree).mp ht
    obtain ⟨n, hn, rfl, rfl⟩ := (totalOf_eq_some_iff htree).mp hu
    rw [htree.sorted.eq_of_key hm hn he.symm]
  · intro h before hb
    have htree := (rep_runEvents (k := k) pid before).tree
    apply (exact_iff htree before).mpr
    exact (agrees_runEvents (hle.sublist hb.sublist) (fun e he => hnz e (hb.subset he))
      fun b hbb => h b (hbb.trans hb)).total

theorem totals_exact_iff_threeTasks :
    threeTasks.Pairwise (fun e f => e.curr < f.curr) ∧ (∀ e ∈ threeTasks, e.curr ≠ 0) ∧
      ((∀ before, before <+: threeTasks →
          Exact Nat.cast before (runEvents singleBucket Nat.cast before).myroot) ↔
        ∀ before, before <+: threeTasks → NoTie Nat.cast before) := by
  have hmono : threeTasks.Pairwise fun e f => e.curr < f.curr := by decide
  have hnz : ∀ e ∈ threeTasks, e.curr ≠ 0 := by decide
  exact ⟨hmono, hnz, totals_exact_iff singleBucket Nat.cast threeTasks hmono hnz⟩

/-- Tasks 2 and 3 have both run for two units. -/
def tiedTasks : List (Event ℕ) :=
  [⟨some 1, some 2, 1⟩, ⟨some 2, some 3, 3⟩, ⟨some 3, some 2, 5⟩]

theorem tiedTasks_lost :
    Function.Injective (Nat.cast : ℕ → ℤ) ∧ (∀ e ∈ tiedTasks, e.switched Nat.cast ≠ none) ∧
      tiedTasks.Pairwise (fun e f => e.curr < f.curr) ∧ (∀ e ∈ tiedTasks, e.curr ≠ 0) ∧
      ¬ Exact Nat.cast tiedTasks (runEvents singleBucket Nat.cast tiedTasks).myroot := by
  refine ⟨fun a b h => by exact_mod_cast h, by decide, by decide, by decide, fun h => ?_⟩
  exact absurd (h 3) (by decide +kernel)

end OperatingSystems.Perftop
