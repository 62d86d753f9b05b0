import OperatingSystems.Kds.Parser

/-!
# Parsing a printed list

The decimal texts of the integers, joined by single spaces, are counted and converted
back. A prefix of a text is a smaller number than the text, so that no sum on the way
is greater than the integer that is read: `sumsFrom` lists the values of `sum` and of
`sum * 10` in exact arithmetic.
-/
namespace OperatingSystems.Kds
open Library

/-- `INT_MAX` -/
def intMax : ℕ := 2147483647

/-- The values of `sum`, and of `sum * 10` before the digit is added, in a conversion
without wrapping. -/
def sumsFrom (count : ℕ) : List UInt8 → ℕ → ℤ → List ℤ
  | [], _, sum => [sum]
  | c :: cs, j, sum =>
      sum ::
        if j < count then
          if c = 32 then sumsFrom count cs (j + 1) 0
          else sum * 10 :: sumsFrom count cs j (sum * 10 + (c.toInt8.toInt - 48))
        else []

theorem mem_intercalate {α : Type*} {sep a : α} {fields : List (List α)}
    (h : a ∈ [sep].intercalate fields) : a = sep ∨ ∃ field ∈ fields, a ∈ field := by
  induction fields with
  | nil => cases h
  | cons field fields ih =>
      cases fields with
      | nil =>
          rw [List.intercalate_singleton] at h
          exact .inr ⟨field, List.mem_cons_self .., h⟩
      | cons next rest =>
          rw [List.intercalate_cons_cons, List.mem_append, List.mem_append,
            List.mem_singleton] at h
          rcases h with (hfield | hsep) | hrest
          · exact .inr ⟨field, List.mem_cons_self .., hfield⟩
          · exact .inl hsep
          · exact (ih hrest).imp_right fun ⟨l, hl, ha⟩ => ⟨l, List.mem_cons_of_mem _ hl, ha⟩

/-- The decimal texts of the integers, joined by single spaces. -/
def printIntegers (xs : List ℕ) : CString where
  bytes := [32].intercalate (xs.map digits)
  nulFree := by
    intro h
    rcases mem_intercalate h with h | ⟨text, ht, h⟩
    · cases h
    · obtain ⟨x, -, rfl⟩ := List.mem_map.mp ht
      exact ne_of_isDigit (isDigit_of_mem_digits h) (by decide : isDigit 0 = false) rfl

theorem space_notMem_digits (x : ℕ) : 32 ∉ digits x := fun h =>
  ne_of_isDigit (isDigit_of_mem_digits h) (by decide : isDigit 32 = false) rfl

theorem printIntegers_singleton (x : ℕ) : (printIntegers [x]).bytes = digits x := by
  simp only [printIntegers, List.map_singleton, List.intercalate_singleton]

theorem printIntegers_cons (x y : ℕ) (ys : List ℕ) :
    (printIntegers (x :: y :: ys)).bytes = digits x ++ 32 :: (printIntegers (y :: ys)).bytes := by
  simp only [printIntegers, List.map_cons, List.intercalate_cons_cons, List.append_assoc,
    List.singleton_append]

theorem endsField_printIntegers {xs : List ℕ} (hne : xs ≠ []) : EndsField (printIntegers xs) := by
  induction xs with
  | nil => exact absurd rfl hne
  | cons x xs ih =>
      cases xs with
      | nil =>
          rw [EndsField, printIntegers_singleton]
          exact ⟨digits_ne_nil x, fun h => space_notMem_digits x (List.mem_of_getLast? h)⟩
      | cons y ys =>
          obtain ⟨htail, hlast⟩ := ih (List.cons_ne_nil y ys)
          rw [EndsField, printIntegers_cons]
          constructor
          · exact List.append_ne_nil_of_right_ne_nil _ (List.cons_ne_nil _ _)
          · obtain ⟨c, hc⟩ := Option.isSome_iff_exists.mp (List.getLast?_isSome.mpr htail)
            rw [List.getLast?_append, List.getLast?_cons_of_ne_nil htail, hc, Option.some_or]
            rwa [hc] at hlast

theorem values_printIntegers {xs : List ℕ} (hne : xs ≠ []) :
    scanFields 32 addDigit 0 (printIntegers xs).bytes 0 =
      xs.map fun x => (digits x).foldl addDigit 0 := by
  have hfields : xs.map digits ≠ [] := fun h => hne (List.map_eq_nil_iff.mp h)
  have hspace : ∀ field ∈ xs.map digits, (32 : UInt8) ∉ field := by
    intro field hf
    obtain ⟨x, -, rfl⟩ := List.mem_map.mp hf
    exact space_notMem_digits x
  rw [printIntegers, scanFields_intercalate hfields hspace, List.map_map]
  rfl

/-- The value of digits behind the value of those before. -/
def readDigits (v : ℕ) (ds : List UInt8) : ℕ := ds.foldl (fun v b => 10 * v + (b.toNat - 48)) v

theorem readDigits_cons (v : ℕ) (c : UInt8) (ds : List UInt8) :
    readDigits v (c :: ds) = readDigits (10 * v + (c.toNat - 48)) ds := by
  rw [readDigits, List.foldl_cons, readDigits]

theorem readDigits_digits (x : ℕ) : readDigits 0 (digits x) = x := by
  have hall : (digits x).takeWhile isDigit = digits x :=
    List.takeWhile_eq_self_iff.mpr fun b hb => isDigit_of_mem_digits hb
  have hvalue := digitsValue_digits x
  rwa [digitsValue, hall] at hvalue

theorem le_readDigits (v : ℕ) (ds : List UInt8) : v ≤ readDigits v ds := by
  induction ds generalizing v with
  | nil => exact Nat.le_refl v
  | cons c ds ih =>
      have hstep := ih (10 * v + (c.toNat - 48))
      rw [readDigits_cons]
      omega

theorem toNat_of_isDigit {c : UInt8} (h : isDigit c) : 48 ≤ c.toNat ∧ c.toNat ≤ 57 := by
  rw [isDigit, Bool.and_eq_true, decide_eq_true_eq, decide_eq_true_eq, UInt8.le_iff_toNat_le,
    UInt8.le_iff_toNat_le] at h
  exact h

/-- The signed value of a digit character. -/
theorem toInt8_of_isDigit {c : UInt8} (h : isDigit c) : c.toInt8.toInt = c.toNat := by
  have hsmall := (toNat_of_isDigit h).2
  have hsigned : c.toInt8.toInt = c.toBitVec.toInt := rfl
  rw [hsigned, BitVec.toInt_eq_toNat_of_lt (by rw [UInt8.toNat_toBitVec]; omega)]
  rfl

theorem addDigit_toInt {sum : Int32} {c : UInt8} {v : ℕ} (hc : isDigit c) (hsum : sum.toInt = v)
    (hmax : 10 * v + (c.toNat - 48) ≤ intMax) :
    (addDigit sum c).toInt = ((10 * v + (c.toNat - 48) : ℕ) : ℤ) := by
  obtain ⟨hlo, hhi⟩ := toNat_of_isDigit hc
  unfold intMax at hmax
  have hten : (10 : Int32).toInt = 10 := rfl
  have hzero : (48 : Int32).toInt = 48 := rfl
  have hproduct : ((v : ℤ) * 10).bmod (2 ^ 32) = v * 10 :=
    Int.bmod_eq_of_le (by omega) (by omega)
  have hdigit : ((c.toNat : ℤ) - 48).bmod (2 ^ 32) = c.toNat - 48 :=
    Int.bmod_eq_of_le (by omega) (by omega)
  have hwhole : ((v : ℤ) * 10 + (c.toNat - 48)).bmod (2 ^ 32) = v * 10 + (c.toNat - 48) :=
    Int.bmod_eq_of_le (by omega) (by omega)
  rw [addDigit, Int32.toInt_add, Int32.toInt_mul, Int32.toInt_sub, Int8.toInt_toInt32,
    toInt8_of_isDigit hc, hsum, hten, hzero, hproduct, hdigit, hwhole]
  omega

/-- The sum is exact as long as the whole number is not too large. -/
theorem foldl_addDigit {ds : List UInt8} (h : ∀ c ∈ ds, isDigit c) {sum : Int32} {v : ℕ}
    (hsum : sum.toInt = v) (hmax : readDigits v ds ≤ intMax) :
    (ds.foldl addDigit sum).toInt = readDigits v ds := by
  induction ds generalizing sum v with
  | nil => exact hsum
  | cons c ds ih =>
      rw [readDigits_cons] at hmax ⊢
      have hstep := addDigit_toInt (h c (List.mem_cons_self ..)) hsum
        ((le_readDigits _ ds).trans hmax)
      exact ih (fun b hb => h b (List.mem_cons_of_mem _ hb)) hstep hmax

theorem mem_sumsFrom_digits {count j : ℕ} (hj : j < count) {ds rest : List UInt8}
    (h : ∀ c ∈ ds, isDigit c) {n : ℕ} {v : ℤ} (hv : v ∈ sumsFrom count (ds ++ rest) j n) :
    (0 ≤ v ∧ v ≤ readDigits n ds) ∨ v ∈ sumsFrom count rest j (readDigits n ds) := by
  induction ds generalizing n with
  | nil => exact .inr hv
  | cons c ds ih =>
      have hc := h c (List.mem_cons_self ..)
      have hspace : c ≠ 32 := ne_of_isDigit hc (by decide)
      have hlo := (toNat_of_isDigit hc).1
      have hgrow := le_readDigits (10 * n + (c.toNat - 48)) ds
      have hnext : (n : ℤ) * 10 + (c.toInt8.toInt - 48) = ((10 * n + (c.toNat - 48) : ℕ) : ℤ) := by
        rw [toInt8_of_isDigit hc]
        omega
      rw [List.cons_append, sumsFrom, if_pos hj, if_neg hspace, hnext, List.mem_cons,
        List.mem_cons] at hv
      rw [readDigits_cons]
      rcases hv with rfl | rfl | hv
      · exact .inl ⟨by omega, by omega⟩
      · exact .inl ⟨by omega, by omega⟩
      · exact ih (fun b hb => h b (List.mem_cons_of_mem _ hb)) hv

theorem sums_bounded {xs : List ℕ} (hne : xs ≠ []) (hmax : ∀ x ∈ xs, x ≤ intMax) {count j : ℕ}
    (hj : j + xs.length ≤ count) {v : ℤ}
    (hv : v ∈ sumsFrom count (printIntegers xs).bytes j 0) : 0 ≤ v ∧ v ≤ intMax := by
  induction xs generalizing j with
  | nil => exact absurd rfl hne
  | cons x xs ih =>
      have hx : x ≤ intMax := hmax x (List.mem_cons_self ..)
      have hdigits : ∀ c ∈ digits x, isDigit c := fun c hc => isDigit_of_mem_digits hc
      rw [List.length_cons] at hj
      have hfield : ∀ rest : List UInt8, v ∈ sumsFrom count (digits x ++ rest) j 0 →
          (0 ≤ v ∧ v ≤ intMax) ∨ v ∈ sumsFrom count rest j x := by
        intro rest hmem
        have hparts := mem_sumsFrom_digits (n := 0) (by omega) hdigits hmem
        rw [readDigits_digits] at hparts
        exact hparts.imp_left fun hle => ⟨hle.1, by omega⟩
      cases xs with
      | nil =>
          rw [printIntegers_singleton, ← List.append_nil (digits x)] at hv
          rcases hfield [] hv with hle | hend
          · exact hle
          · rw [sumsFrom, List.mem_singleton] at hend
            omega
      | cons y ys =>
          rw [printIntegers_cons] at hv
          rcases hfield _ hv with hle | hrest
          · exact hle
          · rw [sumsFrom, if_pos (by omega), if_pos rfl, List.mem_cons] at hrest
            rcases hrest with rfl | hrest
            · omega
            · rw [List.length_cons] at hj
              exact ih (List.cons_ne_nil y ys) (fun z hz => hmax z (List.mem_cons_of_mem _ hz))
                (by rw [List.length_cons]; omega) hrest

/-- A printed list is counted and converted back, and no sum on the way is too large. -/
theorem parse_printed {xs : List ℕ} (hne : xs ≠ []) (hmax : ∀ x ∈ xs, x ≤ intMax) :
    let intStr := printIntegers xs
    let count := countIntegers intStr
    count = xs.length ∧
      (convertStrToIntegers intStr count).map Prod.fst = List.range xs.length ∧
      (convertStrToIntegers intStr count).map (fun slot => slot.2.toInt) = xs.map Int.ofNat ∧
      ∀ v ∈ sumsFrom count intStr.bytes 0 0, 0 ≤ v ∧ v ≤ intMax := by
  intro intStr count
  have hvalues := values_printIntegers hne
  have hcount : count = xs.length := by
    have hfields := congrArg List.length hvalues
    rw [length_scanFields, List.length_map] at hfields
    have hends := (countIntegers_eq_fields_iff intStr).mpr (endsField_printIntegers hne)
    exact hends.symm.trans hfields
  obtain ⟨hslots, hwritten⟩ := convert_spec intStr
  refine ⟨hcount, ?_, ?_, ?_⟩
  · rw [hslots, (countIntegers_eq_fields_iff intStr).mpr (endsField_printIntegers hne)]
    exact congrArg List.range hcount
  · have hmapped : (convertStrToIntegers intStr count).map (fun slot => slot.2.toInt) =
        ((convertStrToIntegers intStr count).map Prod.snd).map Int32.toInt := by
      rw [List.map_map]
      rfl
    rw [hmapped, hwritten, hvalues, List.map_map]
    apply List.map_congr_left
    intro x hx
    have hread := readDigits_digits x
    have hzero : (0 : Int32).toInt = ((0 : ℕ) : ℤ) := rfl
    have hexact := foldl_addDigit (fun c hc => isDigit_of_mem_digits hc) hzero
      (hread.trans_le (hmax x hx))
    rw [hread] at hexact
    exact hexact
  · intro v hv
    exact sums_bounded hne hmax (by omega) hv

theorem parse_printed_ends :
    let intStr := printIntegers [0, intMax, 7]
    let count := countIntegers intStr
    count = 3 ∧ (convertStrToIntegers intStr count).map Prod.fst = List.range 3 ∧
      (convertStrToIntegers intStr count).map (fun slot => slot.2.toInt) = [0, 2147483647, 7] ∧
      ∀ v ∈ sumsFrom count intStr.bytes 0 0, 0 ≤ v ∧ v ≤ intMax :=
  parse_printed (by decide) (by decide)

end OperatingSystems.Kds
