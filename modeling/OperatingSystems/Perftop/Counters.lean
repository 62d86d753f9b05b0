import OperatingSystems.Perftop.Probes
import OperatingSystems.Perftop.Report
import Mathlib.Algebra.Ring.Int.Parity
import Mathlib.Data.Fintype.Card
import Mathlib.Data.Finset.Card

/-!
# The counters of the report

Both parts count the calls that they have entered, those that have returned and the
switches in 32-bit counters, which wrap, and print them as signed numbers. A call that
an entry handler has counted holds an instance of the pool until it returns. So the
first two counters differ by the number of running calls, which is at most the size of
the pool, in any order in which calls are entered and return.
-/
namespace OperatingSystems.Perftop
open Library

/-- The first line of a report, and the only one of Part 1. -/
structure CounterLine where
  preCount : ℤ
  postCount : ℤ
  contextSwitches : ℤ
deriving DecidableEq

def Part1.perftopShow (s : Counters) : CounterLine :=
  ⟨s.preCount.toInt, s.postCount.toInt, s.contextSwitchCount.toInt⟩

/-- The counters of Part 2. -/
def State.counters {β : Type*} (s : State β) : Counters :=
  ⟨s.preCount, s.postCount, s.contextSwitchCount⟩

namespace Probe
variable {ι Task : Type*}

/-- A call made by a user task. -/
def entersUser : Probe ι Task → Bool
  | .enter _ currentMm _ => currentMm
  | .leave _ _ _ => false

def returns : Probe ι Task → Bool
  | .enter _ _ _ => false
  | .leave _ _ _ => true

end Probe

/-- What the handlers of a part do to its counters. -/
structure Handlers.Count {Task σ : Type*} [DecidableEq Task] (h : Handlers Task σ)
    (counters : σ → Counters) : Prop where
  skipped : ∀ prev data s, h.entry false prev data s = (none, s)
  entered : ∀ prev data s, (h.entry true prev data s).1 ≠ none ∧
    counters (h.entry true prev data s).2 =
      { counters s with preCount := (counters s).preCount + 1 }
  returned : ∀ dataPrev next curr s, counters (h.ret dataPrev next curr s) =
    ⟨(counters s).preCount, (counters s).postCount + 1,
      (counters s).contextSwitchCount + if charged dataPrev next = none then 0 else 1⟩

section Parts
variable {Task : Type*} [DecidableEq Task] {β : Type*} [DecidableEq β]

end Parts

section Running
variable {ι Task σ : Type*} [Fintype ι]

/-- The number of calls that have been entered and have not returned. -/
def Probed.running (s : Probed ι Task σ) : ℕ :=
  (Finset.univ.filter fun ri => (s.calls ri).isSome).card

theorem running_enter [DecidableEq ι] {s : Probed ι Task σ} {ri : ι} (hfree : s.calls ri = none)
    (data : ι → Option Task) (own : Option Task) (vars : σ) :
    (Probed.mk data (Function.update s.calls ri (some own)) vars).running = s.running + 1 := by
  have hset : (Finset.univ.filter fun rj => (Function.update s.calls ri (some own) rj).isSome) =
      insert ri (Finset.univ.filter fun rj => (s.calls rj).isSome) := by
    ext rj
    simp only [Finset.mem_filter, Finset.mem_univ, true_and, Finset.mem_insert]
    by_cases hj : rj = ri
    · simp [hj]
    · simp [hj]
  rw [Probed.running, hset, Finset.card_insert_of_notMem, Probed.running]
  simp [hfree]

theorem running_leave [DecidableEq ι] {s : Probed ι Task σ} {ri : ι} {own : Option Task}
    (hbusy : s.calls ri = some own) (data : ι → Option Task) (vars : σ) :
    (Probed.mk data (Function.update s.calls ri none) vars).running + 1 = s.running := by
  have hset : (Finset.univ.filter fun rj => (Function.update s.calls ri none rj).isSome) =
      (Finset.univ.filter fun rj => (s.calls rj).isSome).erase ri := by
    ext rj
    simp only [Finset.mem_filter, Finset.mem_univ, true_and, Finset.mem_erase]
    by_cases hj : rj = ri
    · simp [hj]
    · simp [hj]
  have hmem : ri ∈ Finset.univ.filter fun rj => (s.calls rj).isSome := by simp [hbusy]
  rw [Probed.running, hset, Finset.card_erase_add_one hmem, Probed.running]

end Running

section Runs
variable {ι Task σ : Type*} [DecidableEq ι] [Fintype ι] [DecidableEq Task]
  {h : Handlers Task σ} {counters : σ → Counters}

/-- The counters after `acts`, of which `switches` returns have counted a switch. -/
structure Tallied (counters : σ → Counters) (acts : List (Probe ι Task)) (switches : ℕ)
    (s : Probed ι Task σ) : Prop where
  entered : (counters s.vars).preCount = BitVec.ofNat 32 (acts.countP Probe.entersUser)
  returned : (counters s.vars).postCount = BitVec.ofNat 32 (acts.countP Probe.returns)
  switched : (counters s.vars).contextSwitchCount = BitVec.ofNat 32 switches
  switches_le : switches ≤ acts.countP Probe.returns
  running : acts.countP Probe.returns + s.running = acts.countP Probe.entersUser

theorem ofNat_succ (n : ℕ) : BitVec.ofNat 32 n + 1 = BitVec.ofNat 32 (n + 1) :=
  (BitVec.ofNat_add n 1).symm

theorem countP_concat {α : Type*} (p : α → Bool) (as : List α) (a : α) :
    (as ++ [a]).countP p = as.countP p + if p a then 1 else 0 := by
  rw [List.countP_append, List.countP_singleton]

theorem Tallied.enter (hc : h.Count counters) {acts : List (Probe ι Task)} {switches : ℕ}
    {s t : Probed ι Task σ} {ri : ι} {mm : Bool} {prev : Option Task}
    (ht : Tallied counters acts switches s) (hs : s.step h (.enter ri mm prev) = some t) :
    Tallied counters (acts ++ [.enter ri mm prev]) switches t := by
  have hreturns := countP_concat Probe.returns acts (.enter ri mm prev)
  have henters := countP_concat Probe.entersUser acts (.enter ri mm prev)
  obtain ⟨hfree, hs⟩ := Probed.step_enter hs
  cases mm with
  | false =>
      rw [hc.skipped] at hs
      obtain ⟨d, v, he, -⟩ | ⟨v, he, rfl⟩ := hs
      · cases he
      · cases he
        exact ⟨by rw [henters]; exact ht.entered, by rw [hreturns]; exact ht.returned,
          ht.switched, by rw [hreturns]; exact ht.switches_le,
          by rw [hreturns, henters]; exact ht.running⟩
  | true =>
      obtain ⟨hstored, hcounted⟩ := hc.entered prev (s.data ri) s.vars
      obtain ⟨d, v, he, rfl⟩ | ⟨v, he, -⟩ := hs
      · rw [he] at hcounted
        dsimp only [Probe.returns, Probe.entersUser] at hcounted hreturns henters
        simp only [Bool.false_eq_true, if_false, if_true, Nat.add_zero] at hreturns henters
        constructor
        · rw [henters, hcounted, ← ofNat_succ, ← ht.entered]
        · rw [hreturns, hcounted]
          exact ht.returned
        · rw [hcounted]
          exact ht.switched
        · rw [hreturns]
          exact ht.switches_le
        · have hrunning := ht.running
          rw [hreturns, henters, running_enter hfree]
          omega
      · rw [he] at hstored
        exact absurd rfl hstored

theorem Tallied.leave (hc : h.Count counters) {acts : List (Probe ι Task)} {switches : ℕ}
    {s t : Probed ι Task σ} {ri : ι} {next : Option Task} {curr : UInt64}
    (ht : Tallied counters acts switches s) (hs : s.step h (.leave ri next curr) = some t) :
    ∃ switches', Tallied counters (acts ++ [.leave ri next curr]) switches' t := by
  have hreturns : (acts ++ [Probe.leave ri next curr]).countP Probe.returns =
      acts.countP Probe.returns + 1 := countP_concat Probe.returns acts (.leave ri next curr)
  have henters : (acts ++ [Probe.leave ri next curr]).countP Probe.entersUser =
      acts.countP Probe.entersUser := countP_concat Probe.entersUser acts (.leave ri next curr)
  obtain ⟨⟨own, hbusy⟩, rfl⟩ := Probed.step_leave hs
  have hcounted := hc.returned (s.data ri) next curr s.vars
  have hle := ht.switches_le
  refine ⟨switches + if charged (s.data ri) next = none then 0 else 1, ?_, ?_, ?_, ?_, ?_⟩
  · rw [henters, hcounted]
    exact ht.entered
  · rw [hreturns, hcounted, ← ofNat_succ, ← ht.returned]
  · rw [hcounted]
    dsimp only
    rw [ht.switched]
    split_ifs
    · exact BitVec.add_zero _
    · exact ofNat_succ switches
  · rw [hreturns]
    split_ifs
    · omega
    · omega
  · have hrunning := ht.running
    have hleave := running_leave hbusy s.data (h.ret (s.data ri) next curr s.vars)
    rw [hreturns, henters]
    omega

end Runs

end OperatingSystems.Perftop
