import Mathlib.Data.List.Count
import Mathlib.Data.List.Perm.Basic

/-!
# Ledgers of tokens

Tokens are numbered in the order in which they are issued, and every place holds a
list of them. In a well-formed ledger a token that was issued is held by exactly one
place, once. Issuing a token to a place and moving tokens from one place to another
keep that. A place can be added for the tokens that the others have lost; it is empty
exactly if the others hold every token once.
-/
namespace OperatingSystems.Library

structure Ledger (ι : Type*) where
  issued : ℕ
  holds : ι → List ℕ

namespace Ledger
variable {ι : Type*}

/-- One place holds the token once, and no other place holds it. -/
def HeldOnce (L : Ledger ι) (a : ℕ) : Prop :=
  ∃ i, (L.holds i).count a = 1 ∧ ∀ j, j ≠ i → a ∉ L.holds j

structure Wf (L : Ledger ι) : Prop where
  fresh : ∀ i, ∀ a ∈ L.holds i, a < L.issued
  once : ∀ a < L.issued, L.HeldOnce a

/-- `L'` is `L` after the next token was issued to place `i`. -/
structure Issues (L L' : Ledger ι) (i : ι) : Prop where
  issued : L'.issued = L.issued + 1
  target : (L'.holds i).Perm (L.issued :: L.holds i)
  frame : ∀ l, l ≠ i → L'.holds l = L.holds l

/-- `L'` is `L` after the tokens `moved` went from place `i` to place `j`. -/
structure Moves (L L' : Ledger ι) (i j : ι) (moved : List ℕ) : Prop where
  issued : L'.issued = L.issued
  source : (L.holds i).Perm (moved ++ L'.holds i)
  target : (L'.holds j).Perm (moved ++ L.holds j)
  frame : ∀ l, l ≠ i → l ≠ j → L'.holds l = L.holds l

/-- The ledger with a further place, that of `none`. -/
def withLost (L : Ledger ι) (lost : List ℕ) : Ledger (Option ι) where
  issued := L.issued
  holds
    | some i => L.holds i
    | none => lost

variable {L L' : Ledger ι} {i j : ι} {a : ℕ}

theorem Issues.mem_iff (h : L.Issues L' i) (l : ι) (ha : a ≠ L.issued) :
    a ∈ L'.holds l ↔ a ∈ L.holds l := by
  by_cases hl : l = i
  · subst hl
    rw [h.target.mem_iff, List.mem_cons]
    exact or_iff_right ha
  · rw [h.frame l hl]

theorem Wf.issues (hw : L.Wf) (h : L.Issues L' i) : L'.Wf where
  fresh := by
    intro l a ha
    rw [h.issued]
    by_cases hnew : a = L.issued
    · omega
    · have hold := hw.fresh l a ((h.mem_iff l hnew).mp ha)
      omega
  once := by
    intro a ha
    by_cases hnew : a = L.issued
    · subst hnew
      have hunheld : ∀ l, L.issued ∉ L.holds l := fun l hl => Nat.lt_irrefl _ (hw.fresh l _ hl)
      refine ⟨i, ?_, ?_⟩
      · rw [h.target.count_eq, List.count_cons_self, List.count_eq_zero_of_not_mem (hunheld i)]
      · intro l hl
        rw [h.frame l hl]
        exact hunheld l
    · obtain ⟨p, hp, hother⟩ := hw.once a (by have := h.issued; omega)
      refine ⟨p, ?_, ?_⟩
      · by_cases hpi : p = i
        · subst hpi
          rw [h.target.count_eq, List.count_cons_of_ne (Ne.symm hnew), hp]
        · rw [h.frame p hpi, hp]
      · intro l hl
        rw [h.mem_iff l hnew]
        exact hother l hl

section Moves
variable {moved : List ℕ}

theorem Moves.mem_of_mem (h : L.Moves L' i j moved) {l : ι} (ha : a ∈ L'.holds l) :
    a ∈ L.holds l ∨ l = j ∧ a ∈ moved := by
  by_cases hj : l = j
  · subst hj
    rw [h.target.mem_iff, List.mem_append] at ha
    exact ha.symm.imp id fun hm => ⟨rfl, hm⟩
  · left
    by_cases hi : l = i
    · subst hi
      rw [h.source.mem_iff]
      exact List.mem_append_right _ ha
    · rwa [h.frame l hi hj] at ha

theorem Moves.mem_source (h : L.Moves L' i j moved) (ha : a ∈ moved) : a ∈ L.holds i := by
  rw [h.source.mem_iff]
  exact List.mem_append_left _ ha

/-- A token that is moved is held by the target alone. -/
theorem Moves.heldOnce_of_mem (hne : i ≠ j) (h : L.Moves L' i j moved) (ho : L.HeldOnce a)
    (ha : a ∈ moved) : L'.HeldOnce a := by
  obtain ⟨p, hp, hother⟩ := ho
  have hpi : p = i := by
    by_contra hpi
    exact hother i (Ne.symm hpi) (h.mem_source ha)
  subst hpi
  have hcount := h.source.count_eq a
  rw [List.count_append] at hcount
  have hpos : 0 < moved.count a := List.count_pos_iff.mpr ha
  refine ⟨j, ?_, ?_⟩
  · rw [h.target.count_eq, List.count_append,
      List.count_eq_zero_of_not_mem (hother j (Ne.symm hne))]
    omega
  · intro l hl hmem
    rcases h.mem_of_mem hmem with hold | ⟨hlj, -⟩
    · by_cases hlp : l = p
      · subst hlp
        have hleft : 0 < (L'.holds l).count a := List.count_pos_iff.mpr hmem
        omega
      · exact hother l hlp hold
    · exact hl hlj

/-- A token that is not moved stays where it is. -/
theorem Moves.heldOnce_of_not_mem (h : L.Moves L' i j moved) (ho : L.HeldOnce a)
    (ha : a ∉ moved) : L'.HeldOnce a := by
  obtain ⟨p, hp, hother⟩ := ho
  have hzero : moved.count a = 0 := List.count_eq_zero_of_not_mem ha
  refine ⟨p, ?_, ?_⟩
  · rw [← hp]
    by_cases hpj : p = j
    · subst hpj
      rw [h.target.count_eq, List.count_append, hzero, Nat.zero_add]
    · by_cases hpi : p = i
      · subst hpi
        rw [h.source.count_eq, List.count_append, hzero, Nat.zero_add]
      · rw [h.frame p hpi hpj]
  · intro l hl hmem
    rcases h.mem_of_mem hmem with hold | ⟨-, hmoved⟩
    · exact hother l hl hold
    · exact ha hmoved

theorem Wf.moves (hw : L.Wf) (hne : i ≠ j) (h : L.Moves L' i j moved) : L'.Wf where
  fresh := by
    intro l a ha
    rw [h.issued]
    rcases h.mem_of_mem ha with hold | ⟨-, hmoved⟩
    · exact hw.fresh l a hold
    · exact hw.fresh i a (h.mem_source hmoved)
  once := by
    intro a ha
    rw [h.issued] at ha
    by_cases hm : a ∈ moved
    · exact h.heldOnce_of_mem hne (hw.once a ha) hm
    · exact h.heldOnce_of_not_mem (hw.once a ha) hm

end Moves

section Lost
variable {lost : List ℕ}

theorem Issues.withLost (h : L.Issues L' i) (lost : List ℕ) :
    (L.withLost lost).Issues (L'.withLost lost) (some i) where
  issued := h.issued
  target := h.target
  frame l hl := by
    cases l with
    | none => rfl
    | some l => exact h.frame l fun he => hl (congrArg some he)

theorem Moves.withLost {moved : List ℕ} (h : L.Moves L' i j moved) (lost : List ℕ) :
    (L.withLost lost).Moves (L'.withLost lost) (some i) (some j) moved where
  issued := h.issued
  source := h.source
  target := h.target
  frame l hi hj := by
    cases l with
    | none => rfl
    | some l => exact h.frame l (fun he => hi (congrArg some he)) fun he => hj (congrArg some he)

/-- A token is lost as soon as it is issued. -/
theorem issues_lost (hissued : L'.issued = L.issued + 1) (hholds : L'.holds = L.holds)
    (lost : List ℕ) : (L.withLost lost).Issues (L'.withLost (L.issued :: lost)) none where
  issued := hissued
  target := List.Perm.refl _
  frame l hl := by
    cases l with
    | none => exact absurd rfl hl
    | some l => exact congrFun hholds l

/-- A token that was issued and is not lost is held by one of the other places. -/
theorem Wf.heldOnce_of_not_lost (hw : (L.withLost lost).Wf) (ha : a < L.issued)
    (hlost : a ∉ lost) : L.HeldOnce a := by
  obtain ⟨p, hp, hother⟩ := hw.once a ha
  cases p with
  | none => exact absurd (List.count_pos_iff.mp (Nat.lt_of_lt_of_eq Nat.one_pos hp.symm)) hlost
  | some p => exact ⟨p, hp, fun l hl => hother (some l) fun he => hl (Option.some.inj he)⟩

/-- What another place holds is not lost. -/
theorem Wf.not_lost_of_mem (hw : (L.withLost lost).Wf) (ha : a ∈ L.holds i) : a ∉ lost := by
  intro hlost
  obtain ⟨p, -, hother⟩ := hw.once a (hw.fresh (some i) a ha)
  have hnone : p = none := by
    by_contra hne
    exact hother none (Ne.symm hne) hlost
  exact hother (some i) (by rw [hnone]; exact Option.some_ne_none i) ha

theorem Wf.lost_eq_nil_iff (hw : (L.withLost lost).Wf) :
    lost = [] ↔ ∀ a < L.issued, L.HeldOnce a := by
  constructor
  · intro hnil a ha
    exact hw.heldOnce_of_not_lost ha (by simp [hnil])
  · intro h
    apply List.eq_nil_iff_forall_not_mem.mpr
    intro a ha
    obtain ⟨p, hp, -⟩ := h a (hw.fresh none a ha)
    exact hw.not_lost_of_mem (List.count_pos_iff.mp (Nat.lt_of_lt_of_eq Nat.one_pos hp.symm)) ha

end Lost

end Ledger

end OperatingSystems.Library
