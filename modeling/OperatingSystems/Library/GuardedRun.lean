import Mathlib.Data.List.Basic
import Mathlib.Data.List.Induction
import Mathlib.Tactic.Push
import Mathlib.Tactic.SplitIfs

/-!
# Runs of an executable step function

`step s a` is `none` where the action `a` is not enabled in `s`. A guarded run
records the actions taken so far and allows an action only where a guard holds
of the state before it, so that assumptions about the environment and side
conditions on single steps are stated in one place.

An invariant may speak about the recorded actions; `GuardedRun.invariant` is its
induction rule.

`kept` deletes the steps of a run that do not concern an observer, as told by the
state in which they are taken. If a kept step is matched by the same action in every
related state, and a deleted one leaves related states related, then what is kept is
a run, and it ends in a related state.

`committed` collects what the steps of a run stand for, in order, where `commit s a`
lists it for the step `a` in the state `s`. If threads perform operations in several
steps and each operation takes effect with one of them, the run is related to the
operations performed one at a time. The order respects the threads: the operations
that a thread began are those it committed and then those that still wait. Since this
holds at every moment, an operation that is over before another begins is committed
first.
-/
namespace OperatingSystems.Library

variable {σ α : Type*}

/-- The executable run: every action must be enabled in turn. -/
def runActions (step : σ → α → Option σ) : σ → List α → Option σ
  | s, [] => some s
  | s, a :: as => (step s a).bind fun t => runActions step t as

theorem runActions_append (step : σ → α → Option σ) (s : σ) (as bs : List α) :
    runActions step s (as ++ bs) = (runActions step s as).bind fun t => runActions step t bs := by
  induction as generalizing s with
  | nil => rfl
  | cons a as ih =>
      simp only [List.cons_append, runActions]
      cases step s a with
      | none => rfl
      | some t => exact ih t

theorem runActions_concat (step : σ → α → Option σ) (s : σ) (as : List α) (a : α) :
    runActions step s (as ++ [a]) = (runActions step s as).bind fun t => step t a := by
  rw [runActions_append]
  exact congrArg _ (funext fun t => Option.bind_fun_some (step t a))

/-- Every beginning of a run is a run. -/
theorem exists_runActions_of_isPrefix {step : σ → α → Option σ} {s t : σ} {before as : List α}
    (h : runActions step s as = some t) (hb : before <+: as) :
    ∃ u, runActions step s before = some u := by
  obtain ⟨rest, rfl⟩ := hb
  rw [runActions_append] at h
  obtain ⟨u, hu, -⟩ := Option.bind_eq_some_iff.mp h
  exact ⟨u, hu⟩

/-- A run is back in its first state after each of its actions exactly if every action leaves
that state as it is. -/
theorem foldl_isPrefix_iff {f : σ → α → σ} {s : σ} {as : List α} :
    (∀ before, before <+: as → before.foldl f s = s) ↔ ∀ a ∈ as, f s a = s := by
  constructor
  · intro h a ha
    obtain ⟨before, after, rfl⟩ := List.append_of_mem ha
    have hbefore : before.foldl f s = s := h before (List.prefix_append before _)
    have hafter : (before ++ [a]).foldl f s = s :=
      h (before ++ [a]) ⟨after, (List.append_cons before a after).symm⟩
    rwa [List.foldl_append, hbefore, List.foldl_cons, List.foldl_nil] at hafter
  · intro h before hb
    have hfixed : ∀ a ∈ before, f s a = s := fun a ha => h a (hb.subset ha)
    clear hb
    induction before with
    | nil => rfl
    | cons a before ih =>
        rw [List.foldl_cons, hfixed a List.mem_cons_self]
        exact ih fun b hmem => hfixed b (List.mem_cons_of_mem a hmem)

/-- Runs from `s₀` whose every step meets the guard, with the actions so far. -/
inductive GuardedRun (step : σ → α → Option σ) (guard : σ → α → Prop) (s₀ : σ) :
    List α → σ → Prop
  | init : GuardedRun step guard s₀ [] s₀
  | step {as : List α} {s t : σ} {a : α} : GuardedRun step guard s₀ as s →
      guard s a → step s a = some t → GuardedRun step guard s₀ (as ++ [a]) t

def guardedStep (step : σ → α → Option σ) (guard : σ → α → Prop) [∀ s a, Decidable (guard s a)]
    (s : σ) (a : α) : Option σ :=
  if guard s a then step s a else none

namespace GuardedRun
variable {step : σ → α → Option σ} {guard guard' : σ → α → Prop} {s₀ s t : σ} {as : List α}

/-- Induction rule: what holds at the start and survives every allowed step. -/
theorem invariant {I : List α → σ → Prop} (h : GuardedRun step guard s₀ as s) (h₀ : I [] s₀)
    (hstep : ∀ as s a t, I as s → guard s a → step s a = some t → I (as ++ [a]) t) : I as s := by
  induction h with
  | init => exact h₀
  | step _ hg ha ih => exact hstep _ _ _ _ ih hg ha

/-- Two guarded runs in sequence. -/
theorem append {bs : List α} (h : GuardedRun step guard s₀ as s)
    (k : GuardedRun step guard s bs t) : GuardedRun step guard s₀ (as ++ bs) t := by
  induction k with
  | init => simpa using h
  | step _ hg hs ih => rw [← List.append_assoc]; exact .step ih hg hs

/-- The executable run that stops where the guard fails. -/
theorem of_runActions [∀ s a, Decidable (guard s a)]
    (h : runActions (guardedStep step guard) s as = some t) : GuardedRun step guard s as t := by
  induction as generalizing s with
  | nil =>
      obtain rfl : s = t := by simpa [runActions] using h
      exact .init
  | cons a as ih =>
      obtain ⟨u, hu, ht⟩ := Option.bind_eq_some_iff.mp h
      unfold guardedStep at hu
      split_ifs at hu with hg
      have hone : GuardedRun step guard s ([] ++ [a]) u := .step .init hg hu
      exact hone.append (ih ht)

/-- A run whose every step meets the guard in the state before it. -/
theorem of_prefixes (h : Library.runActions step s₀ as = some t)
    (hg : ∀ before a, before ++ [a] <+: as → ∀ s, Library.runActions step s₀ before = some s →
      guard s a) :
    GuardedRun step guard s₀ as t := by
  induction as using List.reverseRecOn generalizing t with
  | nil =>
      obtain rfl := Option.some.inj h
      exact .init
  | append_singleton as a ih =>
      rw [runActions_concat] at h
      obtain ⟨s, hs, ha⟩ := Option.bind_eq_some_iff.mp h
      have hrun := ih hs fun before b hb => hg before b (hb.trans (List.prefix_append as [a]))
      exact hrun.step (hg as a (List.prefix_refl _) s hs) ha

theorem runActions (h : GuardedRun step guard s₀ as s) :
    Library.runActions step s₀ as = some s := by
  induction h with
  | init => rfl
  | step _ _ ha ih => rw [runActions_concat, ih, Option.bind_some, ha]

end GuardedRun

section Ends
variable {step : σ → α → Option σ} {allowed : α → Prop} {I : σ → Prop} {μ : σ → ℕ}

end Ends

section Kept
variable {step : σ → α → Option σ} {keep : σ → α → Bool}

def kept (step : σ → α → Option σ) (keep : σ → α → Bool) : σ → List α → List α
  | _, [] => []
  | s, a :: as =>
      match step s a with
      | none => []
      | some t => if keep s a then a :: kept step keep t as else kept step keep t as

theorem kept_concat {s t u : σ} {as : List α} {a : α} (h : runActions step s as = some t)
    (ha : step t a = some u) :
    kept step keep s (as ++ [a]) = kept step keep s as ++ if keep t a then [a] else [] := by
  induction as generalizing s with
  | nil =>
      obtain rfl := Option.some.inj h
      simp [kept, ha]
  | cons b bs ih =>
      obtain ⟨v, hv, hrest⟩ := Option.bind_eq_some_iff.mp h
      rw [List.cons_append, kept, kept, hv]
      by_cases hk : keep s b
      · simp only [if_pos hk, ih hrest, List.cons_append]
      · simp only [if_neg hk, ih hrest]

/-- `I` is an invariant of the original run. -/
theorem GuardedRun.kept {guard : σ → α → Prop} {I : σ → Prop} {R : σ → σ → Prop} {s₀ t₀ s : σ}
    {as : List α} (h : GuardedRun step guard s₀ as s)
    (hI : ∀ as s, GuardedRun step guard s₀ as s → I s) (h₀ : R s₀ t₀)
    (hkeep : ∀ s s' t a, I s → R s t → guard s a → keep s a → step s a = some s' →
      ∃ t', guard t a ∧ step t a = some t' ∧ R s' t')
    (hskip : ∀ s s' t a, I s → R s t → guard s a → ¬ keep s a → step s a = some s' → R s' t) :
    ∃ t, GuardedRun step guard t₀ (Library.kept step keep s₀ as) t ∧ R s t := by
  induction h with
  | init => exact ⟨t₀, .init, h₀⟩
  | @step as s s' a hrun hg ha ih =>
      obtain ⟨t, ht, hR⟩ := ih
      rw [kept_concat hrun.runActions ha]
      by_cases hk : keep s a
      · obtain ⟨t', hg', ha', hR'⟩ := hkeep s s' t a (hI as s hrun) hR hg hk ha
        rw [if_pos hk]
        exact ⟨t', ht.step hg' ha', hR'⟩
      · rw [if_neg hk, List.append_nil]
        exact ⟨t, ht, hskip s s' t a (hI as s hrun) hR hg hk ha⟩

end Kept

section Committed
variable {τ ω : Type*} {step : σ → α → Option σ} {guard : σ → α → Prop}

def committed (step : σ → α → Option σ) (commit : σ → α → List ω) : σ → List α → List ω
  | _, [] => []
  | s, a :: as =>
      match step s a with
      | none => []
      | some t => commit s a ++ committed step commit t as

variable (commit : σ → α → List ω)

variable {commit} in
theorem committed_concat {s t u : σ} {as : List α} {a : α} (h : runActions step s as = some t)
    (ha : step t a = some u) :
    committed step commit s (as ++ [a]) = committed step commit s as ++ commit t a := by
  induction as generalizing s with
  | nil =>
      obtain rfl := Option.some.inj h
      simp [committed, ha]
  | cons b bs ih =>
      obtain ⟨v, hv, hrest⟩ := Option.bind_eq_some_iff.mp h
      rw [List.cons_append, committed, committed, hv]
      simp only [ih hrest, List.append_assoc]

/-- A forward simulation whose abstract steps are the committed operations. -/
theorem GuardedRun.linearized (perform : τ → ω → τ) {R : σ → τ → Prop} {s₀ s : σ} {t₀ : τ}
    {as : List α} (h : GuardedRun step guard s₀ as s) (h₀ : R s₀ t₀)
    (hstep : ∀ s s' t a, R s t → guard s a → step s a = some s' →
      R s' ((commit s a).foldl perform t)) :
    R s ((committed step commit s₀ as).foldl perform t₀) := by
  induction h with
  | init => exact h₀
  | step hrun hg ha ih =>
      rw [committed_concat hrun.runActions ha, List.foldl_append]
      exact hstep _ _ _ _ ih hg ha

/-- What holds of every step's operations of one thread holds of the run's. -/
theorem GuardedRun.committed_in_order {begun : α → List ω} (waiting : σ → List ω)
    {mine : ω → Bool} {s₀ s : σ} {as : List α} (h : GuardedRun step guard s₀ as s)
    (h₀ : waiting s₀ = [])
    (hstep : ∀ s s' a, guard s a → step s a = some s' →
      waiting s ++ (begun a).filter mine = (commit s a).filter mine ++ waiting s') :
    (as.flatMap begun).filter mine =
      (committed step commit s₀ as).filter mine ++ waiting s := by
  induction h with
  | init => exact h₀.symm
  | step hrun hg ha ih =>
      rw [committed_concat hrun.runActions ha, List.flatMap_append, List.filter_append, ih,
        List.filter_append, List.append_assoc, List.append_assoc, List.flatMap_singleton,
        hstep _ _ _ hg ha]

end Committed

end OperatingSystems.Library
