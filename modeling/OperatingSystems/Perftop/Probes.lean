import OperatingSystems.Library.GuardedRun
import OperatingSystems.Perftop.Accounts
import Mathlib.Data.List.Induction

/-!
# The two parts of perftop under one probe

A kretprobe has a pool of instances. A probed call takes a free instance and runs
the entry handler on its private data, which still has the content of its last
use; an entry handler that returns 1 gives the instance back at once. When the
call returns, the return handler runs on the same data and the instance is free.

Both parts are handlers of such a probe. Part 1 always stores the pointer `prev`
of the call, Part 2 only if it is not NULL. The model records beside a running
call what its own entry received, which no handler reads. Pool management belongs
to the kernel: any free instance may be taken, and calls return in any order.
-/
namespace OperatingSystems.Perftop
open Library

structure Handlers (Task σ : Type*) where
  entry : Bool → Option Task → Option Task → σ → Option (Option Task) × σ
  ret : Option Task → Option Task → UInt64 → σ → σ

/-- The counters of Part 1. -/
structure Counters where
  preCount : BitVec 32
  postCount : BitVec 32
  contextSwitchCount : BitVec 32
deriving DecidableEq

namespace Part1
variable {Task : Type*} [DecidableEq Task]

def entryPickNextFair (currentMm : Bool) (prev _data : Option Task) (s : Counters) :
    Option (Option Task) × Counters :=
  if currentMm then (some prev, { s with preCount := s.preCount + 1 }) else (none, s)

def retPickNextFair (dataPrev next : Option Task) (s : Counters) : Counters :=
  let s := { s with postCount := s.postCount + 1 }
  match dataPrev, next with
  | some prev, some next =>
      if prev ≠ next then { s with contextSwitchCount := s.contextSwitchCount + 1 } else s
  | _, _ => s

end Part1

section Parts
variable {Task : Type*} [DecidableEq Task] {β : Type*} [DecidableEq β]

def part1 : Handlers Task Counters :=
  ⟨Part1.entryPickNextFair, fun dataPrev next _ => Part1.retPickNextFair dataPrev next⟩

def part2 (k : Kernel β) (pid : Task → ℤ) : Handlers Task (State β) :=
  ⟨entryPickNextFair, retPickNextFair k pid⟩

/-- The task whose switch the return handler counts. -/
def charged (dataPrev next : Option Task) : Option Task :=
  match dataPrev, next with
  | some prev, some next => if prev ≠ next then some prev else none
  | _, _ => none

end Parts

inductive Probe (ι Task : Type*) where
  | enter (ri : ι) (currentMm : Bool) (prev : Option Task)
  | leave (ri : ι) (next : Option Task) (curr : UInt64)

/-- `calls ri` is what the entry of the running call received, `none` for a free instance. -/
structure Probed (ι Task σ : Type*) where
  data : ι → Option Task
  calls : ι → Option (Option Task)
  vars : σ

namespace Probed
variable {ι Task σ : Type*} [DecidableEq ι]

/-- All instances are free; their data may be anything. -/
def start (data : ι → Option Task) (vars : σ) : Probed ι Task σ := ⟨data, fun _ => none, vars⟩

def step (h : Handlers Task σ) (s : Probed ι Task σ) : Probe ι Task → Option (Probed ι Task σ)
  | .enter ri currentMm prev =>
      match s.calls ri with
      | some _ => none
      | none =>
          match h.entry currentMm prev (s.data ri) s.vars with
          | (some data, vars) => some
              ⟨Function.update s.data ri data, Function.update s.calls ri (some prev), vars⟩
          | (none, vars) => some { s with vars := vars }
  | .leave ri next curr =>
      match s.calls ri with
      | none => none
      | some _ => some
          { s with
            calls := Function.update s.calls ri none
            vars := h.ret (s.data ri) next curr s.vars }

end Probed

section Counting
variable {Task : Type*} [DecidableEq Task] {β : Type*} [DecidableEq β]

theorem charged_some {d next : Option Task} {prev : Task} (h : charged d next = some prev) :
    d = some prev ∧ ∃ new, next = some new ∧ prev ≠ new := by
  cases d with
  | none => cases h
  | some old =>
      cases next with
      | none => cases h
      | some new =>
          simp only [charged] at h
          split_ifs at h with hne
          obtain rfl := Option.some.inj h
          exact ⟨rfl, new, rfl, hne⟩

theorem part1_count (d next : Option Task) (s : Counters) :
    (Part1.retPickNextFair d next s).contextSwitchCount =
      s.contextSwitchCount + if charged d next = none then 0 else 1 := by
  unfold Part1.retPickNextFair charged
  cases d with
  | none => simp
  | some old =>
      cases next with
      | none => simp
      | some new => by_cases hne : old = new <;> simp [hne]

theorem switchTables_count (k : Kernel β) (s : State β) (p q : ℤ) (curr : UInt64) :
    (switchTables k s p q curr).contextSwitchCount = s.contextSwitchCount + 1 := by
  unfold switchTables
  by_cases hold : lookupHashTable k s p ≠ 0
  · simp only [if_pos hold]
    rfl
  · simp only [if_neg hold]
    rfl

/-- The return handler of Part 2 changes the tables for the charged task only. -/
theorem part2_charges (k : Kernel β) (pid : Task → ℤ) (d next : Option Task) (curr : UInt64)
    (s : State β) :
    (charged d next = none ∧
        retPickNextFair k pid d next curr s = { s with postCount := s.postCount + 1 }) ∨
      ∃ prev new, charged d next = some prev ∧ next = some new ∧
        retPickNextFair k pid d next curr s =
          switchTables k { s with postCount := s.postCount + 1 } (pid prev) (pid new) curr := by
  cases d with
  | none => exact .inl ⟨rfl, rfl⟩
  | some prev =>
      cases next with
      | none => exact .inl ⟨rfl, rfl⟩
      | some new =>
          by_cases hne : prev = new
          · left
            simp [charged, retPickNextFair, hne]
          · right
            exact ⟨prev, new, by simp [charged, hne], rfl, by simp [retPickNextFair, hne]⟩

theorem part2_count (k : Kernel β) (pid : Task → ℤ) (d next : Option Task) (curr : UInt64)
    (s : State β) :
    (retPickNextFair k pid d next curr s).contextSwitchCount =
      s.contextSwitchCount + if charged d next = none then 0 else 1 := by
  rcases part2_charges k pid d next curr s with ⟨hc, h⟩ | ⟨prev, new, hc, -, h⟩
  · simp [h, hc]
  · rw [h, switchTables_count]
    simp [hc]

end Counting

namespace Probed
variable {ι Task σ : Type*} [DecidableEq ι] {hs : Handlers Task σ} {s t : Probed ι Task σ}

theorem step_enter {ri : ι} {mm : Bool} {prev : Option Task}
    (h : s.step hs (.enter ri mm prev) = some t) :
    s.calls ri = none ∧
      ((∃ d v, hs.entry mm prev (s.data ri) s.vars = (some d, v) ∧
          t = ⟨Function.update s.data ri d, Function.update s.calls ri (some prev), v⟩) ∨
        ∃ v, hs.entry mm prev (s.data ri) s.vars = (none, v) ∧ t = { s with vars := v }) := by
  simp only [step] at h
  cases hc : s.calls ri with
  | some own => simp [hc] at h
  | none =>
      rw [hc] at h
      refine ⟨rfl, ?_⟩
      generalize hs.entry mm prev (s.data ri) s.vars = r at h
      obtain ⟨_ | d, v⟩ := r
      · exact .inr ⟨v, rfl, (Option.some.inj h).symm⟩
      · exact .inl ⟨d, v, rfl, (Option.some.inj h).symm⟩

theorem step_leave {ri : ι} {next : Option Task} {curr : UInt64}
    (h : s.step hs (.leave ri next curr) = some t) :
    (∃ own, s.calls ri = some own) ∧
      t = ⟨s.data, Function.update s.calls ri none, hs.ret (s.data ri) next curr s.vars⟩ := by
  simp only [step] at h
  cases hc : s.calls ri with
  | none => simp [hc] at h
  | some own =>
      rw [hc] at h
      exact ⟨⟨own, rfl⟩, (Option.some.inj h).symm⟩

end Probed

/-- The call of `ri` received NULL, its instance holds a task of an earlier call, and the
call returns another one. -/
def ChargesStale {ι Task σ : Type*} (s : Probed ι Task σ) (ri : ι) (next : Option Task) : Prop :=
  s.calls ri = some none ∧ ∃ prev new, s.data ri = some prev ∧ next = some new ∧ prev ≠ new

/-- From the tables `s` to `t` a switch was counted, or a total changed, for the task that
the call received only. -/
structure ChargesOwn {Task β : Type*} (pid : Task → ℤ) (own : Option Task) (s t : State β) :
    Prop where
  counted : t.contextSwitchCount ≠ s.contextSwitchCount → own ≠ none
  total : ∀ p, totalOf t.myroot p ≠ totalOf s.myroot p → own.map pid = some p

/-- The pools of the two parts after the same calls. -/
structure Paired {ι Task β : Type*} (s₁ : Probed ι Task Counters) (s₂ : Probed ι Task (State β)) :
    Prop where
  calls : s₂.calls = s₁.calls
  data : ∀ ri prev, s₁.calls ri = some prev → s₁.data ri = prev

/-- A call that received a task has it in the private data. -/
def OwnTask {ι Task σ : Type*} (s : Probed ι Task σ) : Prop :=
  ∀ ri prev, s.calls ri = some (some prev) → s.data ri = some prev

def SameSwitches {ι Task β : Type*} (s₁ : Probed ι Task Counters)
    (s₂ : Probed ι Task (State β)) : Prop :=
  s₂.vars.contextSwitchCount = s₁.vars.contextSwitchCount

section Both
variable {ι Task β : Type*} [DecidableEq ι] [DecidableEq Task] [DecidableEq β]
  {k : Kernel β} {pid : Task → ℤ} {s₁ t₁ : Probed ι Task Counters} {s₂ t₂ : Probed ι Task (State β)}

theorem OwnTask.step {a : Probe ι Task} (h : OwnTask s₂)
    (hs : s₂.step (part2 k pid) a = some t₂) : OwnTask t₂ := by
  intro rj p hp
  cases a with
  | enter ri mm prev =>
      obtain ⟨-, ⟨d, v, he, rfl⟩ | ⟨v, -, rfl⟩⟩ := Probed.step_enter hs
      · by_cases hj : rj = ri
        · subst hj
          obtain rfl : prev = some p := by simpa using hp
          cases mm <;> cases he
          simp
        · simp only [Function.update_of_ne hj] at hp ⊢
          exact h rj p hp
      · exact h rj p hp
  | leave ri next curr =>
      obtain ⟨-, rfl⟩ := Probed.step_leave hs
      by_cases hj : rj = ri
      · simp [hj] at hp
      · exact h rj p (by simpa [Function.update_of_ne hj] using hp)

theorem Paired.enter {ri : ι} {mm : Bool} {prev : Option Task} (h : Paired s₁ s₂)
    (h₁ : s₁.step part1 (.enter ri mm prev) = some t₁)
    (h₂ : s₂.step (part2 k pid) (.enter ri mm prev) = some t₂) :
    Paired t₁ t₂ ∧ (SameSwitches s₁ s₂ → SameSwitches t₁ t₂) := by
  obtain ⟨-, h₁⟩ := Probed.step_enter h₁
  obtain ⟨-, h₂⟩ := Probed.step_enter h₂
  cases mm with
  | false =>
      obtain ⟨d, v, he, -⟩ | ⟨v, he, rfl⟩ := h₁
      · cases he
      obtain ⟨d, v, he', -⟩ | ⟨v', he', rfl⟩ := h₂
      · cases he'
      cases he
      cases he'
      exact ⟨h, id⟩
  | true =>
      obtain ⟨d, v, he, rfl⟩ | ⟨v, he, -⟩ := h₁
      swap
      · cases he
      obtain ⟨d', v', he', rfl⟩ | ⟨v', he', -⟩ := h₂
      swap
      · cases he'
      cases he
      cases he'
      refine ⟨⟨?_, fun rj p hp => ?_⟩, id⟩
      · exact congrArg (Function.update · ri (some prev)) h.calls
      · by_cases hj : rj = ri
        · subst hj
          simpa using hp
        · simp only [Function.update_of_ne hj] at hp ⊢
          exact h.data rj p hp

omit [DecidableEq ι] [DecidableEq β] in
theorem chargesStale_of_charged {ri : ι} {next : Option Task} (hcall : s₂.calls ri = some none)
    (h : charged (s₂.data ri) next ≠ none) : ChargesStale s₂ ri next := by
  obtain ⟨prev, hprev⟩ := Option.ne_none_iff_exists'.mp h
  obtain ⟨hdata, new, hnew, hne⟩ := charged_some hprev
  exact ⟨hcall, prev, new, hdata, hnew, hne⟩

theorem Paired.leave {ri : ι} {next : Option Task} {curr : UInt64} (h : Paired s₁ s₂)
    (hown : OwnTask s₂) (hstale : ¬ ChargesStale s₂ ri next)
    (h₁ : s₁.step part1 (.leave ri next curr) = some t₁)
    (h₂ : s₂.step (part2 k pid) (.leave ri next curr) = some t₂) :
    Paired t₁ t₂ ∧ (SameSwitches s₁ s₂ → SameSwitches t₁ t₂) := by
  obtain ⟨⟨own, hcall⟩, rfl⟩ := Probed.step_leave h₁
  obtain ⟨-, rfl⟩ := Probed.step_leave h₂
  have hcharged : charged (s₂.data ri) next = charged (s₁.data ri) next := by
    cases own with
    | some prev => rw [h.data ri _ hcall, hown ri prev (h.calls ▸ hcall)]
    | none =>
        have hnone : charged (s₂.data ri) next = none := by
          by_contra hne
          exact hstale (chargesStale_of_charged (h.calls ▸ hcall) hne)
        rw [hnone, h.data ri _ hcall]
        rfl
  refine ⟨⟨?_, fun rj p hp => ?_⟩, fun hsame => ?_⟩
  · exact congrArg (Function.update · ri none) h.calls
  · by_cases hj : rj = ri
    · simp [hj] at hp
    · exact h.data rj p (by simpa [Function.update_of_ne hj] using hp)
  · unfold SameSwitches at hsame ⊢
    simp only [part1, part2, part1_count, part2_count, hcharged, hsame]

theorem ownTask_run {d : ι → Option Task} {v : State β} {acts : List (Probe ι Task)}
    (hs : runActions (Probed.step (part2 k pid)) (.start d v) acts = some s₂) : OwnTask s₂ := by
  induction acts using List.reverseRecOn generalizing s₂ with
  | nil =>
      obtain rfl := Option.some.inj hs
      exact fun ri prev h => absurd h (by simp [Probed.start])
  | append_singleton acts a ih =>
      rw [runActions_concat] at hs
      obtain ⟨s, hs, ha⟩ := Option.bind_eq_some_iff.mp hs
      exact (ih hs).step ha

/-- Without stale charges the pools stay paired and the parts count the same. -/
theorem paired_run {d₁ d₂ : ι → Option Task} {v₁ : Counters} {v₂ : State β}
    (hv : v₂.contextSwitchCount = v₁.contextSwitchCount) {acts : List (Probe ι Task)}
    (hstale : ∀ before ri next curr, before ++ [.leave ri next curr] <+: acts → ∀ s,
      runActions (Probed.step (part2 k pid)) (.start d₂ v₂) before = some s →
        ¬ ChargesStale s ri next)
    (h₁ : runActions (Probed.step part1) (.start d₁ v₁) acts = some s₁)
    (h₂ : runActions (Probed.step (part2 k pid)) (.start d₂ v₂) acts = some s₂) :
    Paired s₁ s₂ ∧ SameSwitches s₁ s₂ := by
  induction acts using List.reverseRecOn generalizing s₁ s₂ with
  | nil =>
      obtain rfl := Option.some.inj h₁
      obtain rfl := Option.some.inj h₂
      exact ⟨⟨rfl, fun ri prev h => absurd h (by simp [Probed.start])⟩, hv⟩
  | append_singleton acts a ih =>
      rw [runActions_concat] at h₁ h₂
      obtain ⟨u₁, hu₁, ha₁⟩ := Option.bind_eq_some_iff.mp h₁
      obtain ⟨u₂, hu₂, ha₂⟩ := Option.bind_eq_some_iff.mp h₂
      have hprefix := List.prefix_append acts [a]
      obtain ⟨hpaired, hsame⟩ := ih
        (fun before ri next curr hb => hstale before ri next curr (hb.trans hprefix)) hu₁ hu₂
      cases a with
      | enter ri mm prev => exact (hpaired.enter ha₁ ha₂).imp id fun h => h hsame
      | leave ri next curr =>
          have hfresh := hstale acts ri next curr (List.prefix_refl _) u₂ hu₂
          exact (hpaired.leave (ownTask_run hu₂) hfresh ha₁ ha₂).imp id fun h => h hsame

theorem rep_run {d : ι → Option Task} {acts : List (Probe ι Task)}
    (hs : runActions (Probed.step (part2 k pid)) (.start d State.init) acts = some s₂) :
    Rep k s₂.vars := by
  induction acts using List.reverseRecOn generalizing s₂ with
  | nil =>
      obtain rfl := Option.some.inj hs
      exact rep_init
  | append_singleton acts a ih =>
      rw [runActions_concat] at hs
      obtain ⟨s, hs, ha⟩ := Option.bind_eq_some_iff.mp hs
      have hr := ih hs
      cases a with
      | enter ri mm prev =>
          obtain ⟨-, ⟨d, v, he, rfl⟩ | ⟨v, he, rfl⟩⟩ := Probed.step_enter ha
          · cases mm <;> cases he
            exact ⟨hr.chains, hr.tree⟩
          · cases mm <;> cases he
            exact hr
      | leave ri next curr =>
          obtain ⟨-, rfl⟩ := Probed.step_leave ha
          exact hr.handle pid ⟨s.data ri, next, curr⟩

/-- The return handler counts and charges for the task in the private data. -/
theorem retPickNextFair_chargesOwn {s : State β} (hr : Rep k s) (d next : Option Task)
    (curr : UInt64) : ChargesOwn pid (charged d next) s (retPickNextFair k pid d next curr s) := by
  rcases part2_charges k pid d next curr s with ⟨-, hret⟩ | ⟨prev, new, hc, -, hret⟩
  · rw [hret]
    exact ⟨fun hne => absurd rfl hne, fun _ hp => absurd rfl hp⟩
  · have hr' : Rep k { s with postCount := s.postCount + 1 } := ⟨hr.chains, hr.tree⟩
    have haccounts := accounts_switchTables hr' (pid prev) (pid new) curr
    rw [hret, hc]
    refine ⟨fun _ => Option.some_ne_none prev, ?_⟩
    intro p hp
    by_contra hother
    have hne : p ≠ pid prev := fun he => hother (congrArg some he.symm)
    have htotal := congrFun (congrArg Accounts.total haccounts) p
    exact hp (htotal.trans (Accounts.switch_total_of_ne _ hne))

omit [DecidableEq β] in
theorem ChargesOwn.of_charged {s t : State β} {prev : Task} {next : Option Task}
    (h : ChargesOwn pid (charged (some prev) next) s t) : ChargesOwn pid (some prev) s t where
  counted _ := Option.some_ne_none prev
  total p hp := by
    obtain ⟨task, htask, hpid⟩ := Option.map_eq_some_iff.mp (h.total p hp)
    obtain rfl := Option.some.inj (charged_some htask).1
    rw [Option.map_some, hpid]

end Both

/-- Part 2 counts what Part 1 counts, and every return counts and charges for the task that its
own call received only, on the run `acts` from instances with any data, if and only if no
call that received NULL returns from an instance that holds another task than its result. -/
theorem switches_agree_iff {ι Task β : Type*} [DecidableEq ι] [DecidableEq Task]
    [DecidableEq β] (k : Kernel β) (pid : Task → ℤ) (d₁ d₂ : ι → Option Task)
    (acts : List (Probe ι Task)) :
    ((∀ before, before <+: acts → ∀ s₁ s₂,
        runActions (Probed.step part1) (.start d₁ ⟨0, 0, 0⟩) before = some s₁ →
        runActions (Probed.step (part2 k pid)) (.start d₂ State.init) before = some s₂ →
        SameSwitches s₁ s₂) ∧
      ∀ before ri next curr, before ++ [.leave ri next curr] <+: acts → ∀ s t own,
        runActions (Probed.step (part2 k pid)) (.start d₂ State.init) before = some s →
        s.calls ri = some own → s.step (part2 k pid) (.leave ri next curr) = some t →
        ChargesOwn pid own s.vars t.vars) ↔
      ∀ before ri next curr, before ++ [.leave ri next curr] <+: acts → ∀ s,
        runActions (Probed.step (part2 k pid)) (.start d₂ State.init) before = some s →
        ¬ ChargesStale s ri next := by
  constructor
  · rintro ⟨-, hown⟩ before ri next curr hb s hs ⟨hcall, prev, new, hdata, rfl, hne⟩
    have hstep : s.step (part2 k pid) (.leave ri (some new) curr) = some
        ⟨s.data, Function.update s.calls ri none,
          retPickNextFair k pid (s.data ri) (some new) curr s.vars⟩ := by
      simp only [Probed.step, hcall]
      rfl
    refine (hown before ri _ curr hb s _ none hs hcall hstep).counted ?_ rfl
    dsimp only
    rw [part2_count, hdata, if_neg (by simp [charged, hne])]
    simp
  · intro hstale
    constructor
    · intro before hb s₁ s₂ h₁ h₂
      exact (paired_run rfl (fun before' ri next curr hb' =>
        hstale before' ri next curr (hb'.trans hb)) h₁ h₂).2
    · intro before ri next curr hb s t own hs hcall hstep
      obtain ⟨-, rfl⟩ := Probed.step_leave hstep
      have hcharges : ChargesOwn pid (charged (s.data ri) next) s.vars
          (retPickNextFair k pid (s.data ri) next curr s.vars) :=
        retPickNextFair_chargesOwn (rep_run hs) (s.data ri) next curr
      cases own with
      | none =>
          have hnone : charged (s.data ri) next = none := by
            by_contra hne
            exact hstale before ri next curr hb s hs (chargesStale_of_charged hcall hne)
          rw [hnone] at hcharges
          exact hcharges
      | some prev =>
          rw [ownTask_run hs ri prev hcall] at hcharges ⊢
          exact hcharges.of_charged

/-- The last call received NULL and returns on the pointer that the second one has left. -/
def recycled : List (Probe Bool ℕ) :=
  [.enter false true (some 2), .leave false (some 1) 1, .enter false true (some 1),
    .leave false (some 2) 2, .enter true true (some 2), .leave true (some 1) 5,
    .enter false true none]

/-- Its return is a fourth switch for Part 2 and the third for Part 1, and changes the total of
task 1. -/
theorem recycled_counted :
    let acts := recycled ++ [.leave false (some 3) 9]
    ¬ ((∀ before, before <+: acts → ∀ s₁ s₂,
          runActions (Probed.step part1) (.start (fun _ => none) ⟨0, 0, 0⟩) before = some s₁ →
          runActions (Probed.step (part2 singleBucket Nat.cast)) (.start (fun _ => none) State.init)
            before = some s₂ → SameSwitches s₁ s₂) ∧
        ∀ before ri next curr, before ++ [.leave ri next curr] <+: acts → ∀ s t own,
          runActions (Probed.step (part2 singleBucket Nat.cast)) (.start (fun _ => none) State.init)
            before = some s →
          s.calls ri = some own →
          s.step (part2 singleBucket Nat.cast) (.leave ri next curr) = some t →
          ChargesOwn Nat.cast own s.vars t.vars) ∧
      ∃ s ∈ runActions (Probed.step (part2 singleBucket Nat.cast))
          (.start (fun _ => none) State.init) recycled,
        s.calls false = some none ∧ totalOf s.vars.myroot 1 = some 1 ∧
        ∃ t ∈ s.step (part2 singleBucket Nat.cast) (.leave false (some 3) 9),
          totalOf t.vars.myroot 1 = some 5 := by
  intro acts
  have hcharged : ∃ s ∈ runActions (Probed.step (part2 singleBucket Nat.cast))
      (.start (fun _ => none) State.init) recycled, s.calls false = some none ∧
        totalOf s.vars.myroot 1 = some 1 ∧
        ∃ t ∈ s.step (part2 singleBucket Nat.cast) (.leave false (some 3) 9),
          totalOf t.vars.myroot 1 = some 5 := by
    decide +kernel
  refine ⟨?_, hcharged⟩
  rintro ⟨-, hown⟩
  obtain ⟨s, hs, hcall, hbefore, t, ht, hafter⟩ := hcharged
  have hpid := (hown recycled _ _ _ (List.prefix_refl _) s t none hs hcall ht).total 1
  rw [hbefore, hafter] at hpid
  cases hpid (by decide)

end OperatingSystems.Perftop
