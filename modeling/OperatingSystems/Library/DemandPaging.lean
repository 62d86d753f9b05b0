import Mathlib.Data.Finset.Card
import Mathlib.Data.Finset.Insert
import Mathlib.Logic.Function.Basic
import Mathlib.Tactic.SplitIfs

/-!
# Memory that its fault handler fills

The first access to an absent page faults, and the handler copies a page to the place
that it computes from the faulting address; what it copies may depend on how many
faults it has handled. A page that is dropped is absent again.

If every copy is the same, then programs cannot tell such a memory from a flat one, in
which a dropped page is reset: this is `flat` with a lemma for each access. `Resident`
counts the faults: since some moment there was one for each page present.
-/
namespace OperatingSystems.Library

/-- The handler copies to the page that faulted. -/
structure Pager (A π V : Type*) where
  page : A → π
  dst : A → π
  dst_eq : ∀ a, dst a = page a
  fill : ℕ → V

structure PagedMemory (A π V : Type*) where
  present : π → Bool
  mem : A → V
  faults : ℕ

variable {A π V : Type*}

/-- Nothing is present; what `mem` holds then is never read. -/
def PagedMemory.mapped (mem : A → V) : PagedMemory A π V := ⟨fun _ => false, mem, 0⟩

/-- The pages selected by `gone` are dropped. -/
def PagedMemory.drop (gone : π → Bool) (s : PagedMemory A π V) : PagedMemory A π V :=
  { s with present := fun p => s.present p && !gone p }

namespace Pager
variable [DecidableEq π] (pg : Pager A π V) (s : PagedMemory A π V)

def touch (a : A) : PagedMemory A π V :=
  if s.present (pg.page a) then s else
    { present := Function.update s.present (pg.dst a) true
      mem := fun b => if pg.page b = pg.dst a then pg.fill s.faults else s.mem b
      faults := s.faults + 1 }

def read (a : A) : V × PagedMemory A π V := ((pg.touch s a).mem a, pg.touch s a)

def write [DecidableEq A] (a : A) (v : V) : PagedMemory A π V :=
  { pg.touch s a with mem := Function.update (pg.touch s a).mem a v }

variable {pg s}

theorem touch_of_present {a : A} (h : s.present (pg.page a)) : pg.touch s a = s := if_pos h

theorem touch_of_absent {a : A} (h : s.present (pg.page a) = false) :
    pg.touch s a =
      { present := Function.update s.present (pg.page a) true
        mem := fun b => if pg.page b = pg.page a then pg.fill s.faults else s.mem b
        faults := s.faults + 1 } := by
  rw [touch, if_neg (by simp [h]), pg.dst_eq]

theorem present_touch (a : A) (p : π) :
    (pg.touch s a).present p = (s.present p || decide (p = pg.page a)) := by
  by_cases hp : s.present (pg.page a)
  · rw [touch_of_present hp]
    by_cases he : p = pg.page a
    · simp [he, hp]
    · simp [he]
  · rw [touch_of_absent (Bool.eq_false_iff.mpr hp)]
    by_cases he : p = pg.page a
    · simp [he]
    · simp [he]

section Shows
variable (pg)

/-- The page of `a` is present and `a` holds `v`. -/
def Shows (s : PagedMemory A π V) (a : A) (v : V) : Prop := s.present (pg.page a) ∧ s.mem a = v

variable {pg}

theorem Shows.read {a : A} {v : V} (h : pg.Shows s a v) : pg.read s a = (v, s) := by
  rw [Pager.read, touch_of_present h.1, h.2]

/-- A fault elsewhere brings in another page. -/
theorem Shows.touch {a : A} {v : V} (h : pg.Shows s a v) (b : A) : pg.Shows (pg.touch s b) a v := by
  by_cases hb : s.present (pg.page b)
  · rwa [touch_of_present hb]
  · have hne : pg.page a ≠ pg.page b := fun he => hb (he ▸ h.1)
    rw [touch_of_absent (Bool.eq_false_iff.mpr hb)]
    exact ⟨by simpa [hne] using h.1, by simpa [hne] using h.2⟩

theorem Shows.write [DecidableEq A] {a b : A} {v w : V} (h : pg.Shows s a v) (hne : a ≠ b) :
    pg.Shows (pg.write s b w) a v := by
  obtain ⟨hpresent, hmem⟩ := h.touch b
  exact ⟨hpresent, by simpa [Pager.write, hne] using hmem⟩

theorem shows_write [DecidableEq A] (a : A) (v : V) : pg.Shows (pg.write s a v) a v :=
  ⟨by simp [Pager.write, present_touch], by simp [Pager.write]⟩

/-- After a fault the whole page holds what the handler copied. -/
theorem shows_touch {a b : A} (habsent : s.present (pg.page a) = false)
    (hpage : pg.page b = pg.page a) : pg.Shows (pg.touch s a) b (pg.fill s.faults) := by
  rw [touch_of_absent habsent]
  exact ⟨by simp [hpage], by simp [hpage]⟩

theorem touch_touch (a : A) : pg.touch (pg.touch s a) a = pg.touch s a :=
  touch_of_present (by simp [present_touch])

end Shows

section Flat
variable (pg) (zero : V)

/-- Every copy of the handler is the same. -/
def Uniform : Prop := ∀ n, pg.fill n = zero

def flat (s : PagedMemory A π V) (a : A) : V := if s.present (pg.page a) then s.mem a else zero

variable {pg zero}

theorem flat_touch (h : pg.Uniform zero) (a : A) :
    pg.flat zero (pg.touch s a) = pg.flat zero s := by
  by_cases hp : s.present (pg.page a)
  · rw [touch_of_present hp]
  · have habsent := Bool.eq_false_iff.mpr hp
    rw [touch_of_absent habsent]
    funext b
    unfold flat
    by_cases hb : pg.page b = pg.page a
    · simp [hb, habsent, h s.faults]
    · simp [hb]

theorem flat_read (h : pg.Uniform zero) (a : A) :
    pg.flat zero (pg.read s a).2 = pg.flat zero s := flat_touch h a

theorem read_fst (h : pg.Uniform zero) (a : A) : (pg.read s a).1 = pg.flat zero s a := by
  have hpresent : (pg.touch s a).present (pg.page a) := by simp [present_touch]
  rw [← flat_touch h a, flat, if_pos hpresent]
  rfl

theorem flat_write [DecidableEq A] (h : pg.Uniform zero) (a : A) (v : V) :
    pg.flat zero (pg.write s a v) = Function.update (pg.flat zero s) a v := by
  have htouch : pg.flat zero s = pg.flat zero (pg.touch s a) := (flat_touch h a).symm
  have hpresent : (pg.touch s a).present (pg.page a) := by simp [present_touch]
  rw [htouch]
  unfold write
  generalize pg.touch s a = t at hpresent ⊢
  funext b
  unfold flat
  by_cases hb : b = a
  · subst hb
    simp [hpresent]
  · simp [hb]

omit [DecidableEq π] in
theorem flat_drop (gone : π → Bool) :
    pg.flat zero (s.drop gone) = fun a => if gone (pg.page a) then zero else pg.flat zero s a := by
  funext a
  unfold flat PagedMemory.drop
  by_cases hg : gone (pg.page a) <;> simp [hg]

end Flat

end Pager

/-- Exactly the pages of `F` are present, after one fault for each on top of `base`. -/
structure PagedMemory.Resident (s : PagedMemory A π V) (base : ℕ) (F : Finset π) : Prop where
  present : ∀ p, s.present p ↔ p ∈ F
  faults : s.faults = base + F.card

namespace PagedMemory.Resident
variable {s : PagedMemory A π V} {base : ℕ} {F : Finset π}

theorem mapped (mem : A → V) : (PagedMemory.mapped mem : PagedMemory A π V).Resident 0 ∅ where
  present p := by simp [PagedMemory.mapped]
  faults := rfl

theorem drop (h : s.Resident base F) (gone : π → Bool) :
    (s.drop gone).Resident (base + (F.filter fun p => gone p).card)
      (F.filter fun p => ¬ gone p) where
  present p := by
    simp only [PagedMemory.drop, Bool.and_eq_true, Bool.not_eq_true', h.present, Finset.mem_filter,
      Bool.not_eq_true]
  faults := by
    rw [Nat.add_assoc, Finset.card_filter_add_card_filter_not]
    exact h.faults

/-- Everything is dropped, and the count starts again. -/
theorem drop_all (h : s.Resident base F) {gone : π → Bool} (hall : ∀ p ∈ F, gone p) :
    (s.drop gone).Resident s.faults ∅ := by
  have hdrop := h.drop gone
  rw [Finset.filter_true_of_mem hall,
    Finset.filter_false_of_mem fun p hp => not_not.mpr (hall p hp), ← h.faults] at hdrop
  exact hdrop

variable [DecidableEq π]

theorem touch (h : s.Resident base F) (pg : Pager A π V) (a : A) :
    (pg.touch s a).Resident base (insert (pg.page a) F) where
  present p := by
    rw [Pager.present_touch, Bool.or_eq_true, h.present, decide_eq_true_eq, Finset.mem_insert,
      or_comm]
  faults := by
    by_cases hp : pg.page a ∈ F
    · rw [Pager.touch_of_present ((h.present _).mpr hp), Finset.insert_eq_of_mem hp, h.faults]
    · have habsent : s.present (pg.page a) = false :=
        Bool.eq_false_iff.mpr fun hpresent => hp ((h.present _).mp hpresent)
      rw [Pager.touch_of_absent habsent, Finset.card_insert_of_notMem hp, h.faults]
      exact Nat.add_assoc _ _ _

theorem read (h : s.Resident base F) (pg : Pager A π V) (a : A) :
    (pg.read s a).2.Resident base (insert (pg.page a) F) := h.touch pg a

theorem write [DecidableEq A] (h : s.Resident base F) (pg : Pager A π V) (a : A) (v : V) :
    (pg.write s a v).Resident base (insert (pg.page a) F) :=
  ⟨(h.touch pg a).present, (h.touch pg a).faults⟩

end PagedMemory.Resident

end OperatingSystems.Library
