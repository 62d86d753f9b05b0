import OperatingSystems.Library.Scanf

/-!
# The list of integers given to kds

`lkp_init` counts the integers of the parameter `int_str`, allocates an array for
them and lets `convert_str_to_integers` fill it. The count is the number of spaces,
and one more if the last character is not a space. The conversion closes a field at
every space and writes one more field behind its loop, whatever the string ends with.

A character is a signed byte and a sum a 32-bit `int`, which wraps. The kernel takes
no parameter of more than 1024 characters, so that the counters are natural numbers.
-/
namespace OperatingSystems.Kds
open Library

/-- `while (int_str[i] != '\0')`, with `i` and `count`; 32 is the space. -/
def countLoop : List UInt8 → ℕ × ℕ → ℕ × ℕ
  | [], counters => counters
  | c :: cs, (i, count) => countLoop cs (i + 1, if c = 32 then count + 1 else count)

/-- The count computed by `lkp_init`. -/
def countIntegers (intStr : CString) : ℕ :=
  let (i, count) := countLoop intStr.bytes (0, 0)
  if 0 < i ∧ intStr.byteAt (i - 1) ≠ 32 then count + 1 else count

/-- `sum * 10 + (int_str[i] - '0')` -/
def addDigit (sum : Int32) (c : UInt8) : Int32 := sum * 10 + (c.toInt8.toInt32 - 48)

/-- The assignments to `int_array`, as slots and values, from a rest of the string. -/
def convertFrom (count : ℕ) : List UInt8 → ℕ → Int32 → List (ℕ × Int32)
  | [], j, sum => [(j, sum)]
  | c :: cs, j, sum =>
      if j < count then
        if c = 32 then (j, sum) :: convertFrom count cs (j + 1) 0
        else convertFrom count cs j (addDigit sum c)
      else [(j, sum)]

def convertStrToIntegers (intStr : CString) (count : ℕ) : List (ℕ × Int32) :=
  convertFrom count intStr.bytes 0 0

theorem countLoop_eq (cs : List UInt8) (i count : ℕ) :
    countLoop cs (i, count) = (i + cs.length, count + cs.count 32) := by
  induction cs generalizing i count with
  | nil => rfl
  | cons c cs ih =>
      rw [countLoop, ih]
      split_ifs with hc
      · rw [hc, List.count_cons_self, List.length_cons, Prod.mk.injEq]
        omega
      · rw [List.count_cons_of_ne hc, List.length_cons, Prod.mk.injEq]
        omega

/-- The string is not empty and does not end with a space. -/
def EndsField (intStr : CString) : Prop :=
  intStr.bytes ≠ [] ∧ intStr.bytes.getLast? ≠ some 32

theorem countIntegers_eq (intStr : CString) :
    countIntegers intStr = intStr.bytes.count 32 +
      if 0 < intStr.strlen ∧ intStr.byteAt (intStr.strlen - 1) ≠ 32 then 1 else 0 := by
  have hlength : 0 + intStr.bytes.length = intStr.strlen := Nat.zero_add _
  unfold countIntegers
  rw [countLoop_eq, hlength, Nat.zero_add]
  dsimp only
  by_cases hlast : 0 < intStr.strlen ∧ intStr.byteAt (intStr.strlen - 1) ≠ 32
  · rw [if_pos hlast, if_pos hlast]
  · rw [if_neg hlast, if_neg hlast, Nat.add_zero]

theorem byteAt_last {intStr : CString} {front : List UInt8} {c : UInt8}
    (h : intStr.bytes = front ++ [c]) :
    0 < intStr.strlen ∧ intStr.byteAt (intStr.strlen - 1) = c := by
  simp [CString.strlen, CString.byteAt, h]

/-- The spaces before the last character are counted, and the field that it ends. -/
theorem countIntegers_of_concat {intStr : CString} {front : List UInt8} {c : UInt8}
    (h : intStr.bytes = front ++ [c]) : countIntegers intStr = front.count 32 + 1 := by
  obtain ⟨hpos, hlast⟩ := byteAt_last h
  rw [countIntegers_eq, hlast, h, List.count_append]
  by_cases hc : c = 32
  · simp [hc]
  · simp [hc, hpos]

/-- The count is the number of fields if the string ends with one. -/
theorem countIntegers_eq_fields_iff (intStr : CString) :
    intStr.bytes.count 32 + 1 = countIntegers intStr ↔ EndsField intStr := by
  rw [countIntegers_eq, EndsField]
  rcases List.eq_nil_or_concat intStr.bytes with hnil | ⟨front, c, h⟩
  · simp [CString.strlen, hnil]
  · rw [List.concat_eq_append] at h
    obtain ⟨hpos, hlast⟩ := byteAt_last h
    rw [hlast, h]
    by_cases hc : c = 32
    · simp [hc]
    · simp [hc, hpos]

/-- The bound on `j` cuts no field short, since it counts the spaces before the last
character. -/
theorem convertFrom_spec {count : ℕ} (cs : List UInt8) (j : ℕ) (sum : Int32)
    (h : cs ≠ [] → j + cs.dropLast.count 32 < count) :
    (convertFrom count cs j sum).map Prod.fst = List.range' j (cs.count 32 + 1) ∧
      (convertFrom count cs j sum).map Prod.snd = scanFields 32 addDigit 0 cs sum := by
  induction cs generalizing j sum with
  | nil => exact ⟨rfl, rfl⟩
  | cons c cs ih =>
      have hj : j < count := by
        have hcount := h (List.cons_ne_nil c cs)
        omega
      have hrest : cs ≠ [] → (j + if c = 32 then 1 else 0) + cs.dropLast.count 32 < count := by
        intro hne
        have hcount := h (List.cons_ne_nil c cs)
        rw [List.dropLast_cons_of_ne_nil hne] at hcount
        by_cases hc : c = 32
        · rw [hc, List.count_cons_self] at hcount
          rw [if_pos hc]
          omega
        · rw [List.count_cons_of_ne hc] at hcount
          rwa [if_neg hc]
      rw [convertFrom, if_pos hj, scanFields]
      split_ifs with hc
      · rw [if_pos hc] at hrest
        obtain ⟨hslots, hvalues⟩ := ih (j + 1) 0 hrest
        rw [List.map_cons, List.map_cons, hslots, hvalues, hc, List.count_cons_self]
        exact ⟨rfl, rfl⟩
      · rw [if_neg hc] at hrest
        rw [List.count_cons_of_ne hc]
        exact ih j (addDigit sum c) hrest

theorem convert_spec (intStr : CString) :
    (convertStrToIntegers intStr (countIntegers intStr)).map Prod.fst =
        List.range (intStr.bytes.count 32 + 1) ∧
      (convertStrToIntegers intStr (countIntegers intStr)).map Prod.snd =
        scanFields 32 addDigit 0 intStr.bytes 0 := by
  rw [List.range_eq_range']
  apply convertFrom_spec
  intro hne
  obtain ⟨front, c, h⟩ := (List.eq_nil_or_concat intStr.bytes).resolve_left hne
  rw [List.concat_eq_append] at h
  rw [countIntegers_of_concat h, h, List.dropLast_concat]
  omega

/-- The conversion assigns the slots below the count once each and no other, exactly if the
string is not empty and does not end with a space. -/
theorem slots_filled_iff (intStr : CString) :
    ((convertStrToIntegers intStr (countIntegers intStr)).map Prod.fst).Perm
        (List.range (countIntegers intStr)) ↔ EndsField intStr := by
  rw [(convert_spec intStr).1, ← countIntegers_eq_fields_iff]
  constructor
  · intro h
    have hlength := h.length_eq
    rwa [List.length_range, List.length_range] at hlength
  · intro h
    rw [h]

/-- `"5 "` and the empty string. -/
theorem slots_overrun :
    (∃ s : CString, s.bytes = [53, 32] ∧ countIntegers s = 1 ∧
      (convertStrToIntegers s 1).map Prod.fst = [0, 1]) ∧
    countIntegers CString.empty = 0 ∧
      (convertStrToIntegers CString.empty 0).map Prod.fst = [0] ∧
    ¬ ∀ s, ((convertStrToIntegers s (countIntegers s)).map Prod.fst).Perm
      (List.range (countIntegers s)) := by
  refine ⟨⟨⟨[53, 32], by decide⟩, rfl, by decide, by decide⟩, by decide, by decide, fun h => ?_⟩
  have hempty := (h CString.empty).length_eq
  exact absurd hempty (by decide)

end OperatingSystems.Kds
