import Mathlib.Data.List.Basic
import Mathlib.Logic.Function.Iterate

/-!
# Counting loops

The loop `for (i = first; continues i; i = next i) body` on a state. `forLoop` is
the executable loop, whose fuel bounds the number of tests. `Visits` derives the
values of the counter for which the body of a loop that ends is run, and so speaks
about the header of the loop alone. `turns` lists them for any number of turns,
also of a loop that does not end.
-/
namespace OperatingSystems.Library

variable {ι σ : Type*}

def forLoop (continues : ι → Bool) (next : ι → ι) (body : σ → ι → σ) : ℕ → ι → σ → Option σ
  | 0, _, _ => none
  | fuel + 1, i, s =>
      if continues i then forLoop continues next body fuel (next i) (body s i) else some s

inductive Visits (continues : ι → Bool) (next : ι → ι) : ι → List ι → Prop
  | done {i : ι} : continues i = false → Visits continues next i []
  | turn {i : ι} {is : List ι} : continues i = true → Visits continues next (next i) is →
      Visits continues next i (i :: is)

def turns (continues : ι → Bool) (next : ι → ι) : ℕ → ι → List ι
  | 0, _ => []
  | fuel + 1, i => if continues i then i :: turns continues next fuel (next i) else []

variable {continues : ι → Bool} {next : ι → ι} {body : σ → ι → σ} {i : ι} {s t : σ}

theorem Visits.unique {is js : List ι} (h : Visits continues next i is)
    (h' : Visits continues next i js) : is = js := by
  induction h generalizing js with
  | done hstop =>
      cases h' with
      | done _ => rfl
      | turn hgo _ => cases hstop.symm.trans hgo
  | turn hgo _ ih =>
      cases h' with
      | done hstop => cases hgo.symm.trans hstop
      | turn _ hrest => rw [ih hrest]

theorem Visits.forLoop {is : List ι} (h : Visits continues next i is) (s : σ) :
    forLoop continues next body (is.length + 1) i s = some (is.foldl body s) := by
  induction h generalizing s with
  | done hstop =>
      rw [Library.forLoop, hstop]
      rfl
  | turn hgo _ ih =>
      rw [List.length_cons, Library.forLoop, if_pos hgo]
      exact ih _

theorem visits_of_forLoop {fuel : ℕ} (h : forLoop continues next body fuel i s = some t) :
    ∃ is, Visits continues next i is ∧ is.foldl body s = t := by
  induction fuel generalizing i s with
  | zero => cases h
  | succ fuel ih =>
      rw [forLoop] at h
      cases hgo : continues i with
      | false =>
          rw [if_neg (by simp [hgo])] at h
          exact ⟨[], .done hgo, Option.some.inj h⟩
      | true =>
          rw [if_pos hgo] at h
          obtain ⟨is, his, ht⟩ := ih h
          exact ⟨i :: is, .turn hgo his, ht⟩

/-- A loop ends in `t` exactly if it ends and its body, run for the visited values in
order, leads to `t`. -/
theorem exists_forLoop_iff :
    (∃ fuel, forLoop continues next body fuel i s = some t) ↔
      ∃ is, Visits continues next i is ∧ is.foldl body s = t := by
  constructor
  · rintro ⟨fuel, h⟩
    exact visits_of_forLoop h
  · rintro ⟨is, his, rfl⟩
    exact ⟨is.length + 1, his.forLoop s⟩

/-- Invariant rule for the values of the counter. -/
theorem turns_invariant {P : ι → Prop} (h₀ : P i) (hnext : ∀ j, P j → continues j → P (next j))
    {fuel : ℕ} {j : ι} (hj : j ∈ turns continues next fuel i) : P j ∧ continues j := by
  induction fuel generalizing i with
  | zero => cases hj
  | succ fuel ih =>
      rw [turns] at hj
      split_ifs at hj with hgo
      · rcases List.mem_cons.mp hj with rfl | hj
        · exact ⟨h₀, hgo⟩
        · exact ih (hnext i h₀ hgo) hj
      · cases hj

/-- A value reached while the test holds is visited. -/
theorem mem_turns_iterate {n : ℕ} (h : ∀ m ≤ n, continues (next^[m] i)) :
    next^[n] i ∈ turns continues next (n + 1) i := by
  induction n generalizing i with
  | zero =>
      have hgo : continues i := h 0 (Nat.le_refl 0)
      simp [turns, hgo]
  | succ n ih =>
      have hgo : continues i := h 0 (Nat.zero_le _)
      rw [turns, if_pos hgo]
      exact List.mem_cons_of_mem _ (ih fun m hm => h (m + 1) (by omega))

end OperatingSystems.Library
