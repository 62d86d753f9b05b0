import OperatingSystems.Library.CString
import Mathlib.Data.List.Induction
import Mathlib.Tactic.IntervalCases
import Mathlib.Tactic.Linarith
import Mathlib.Tactic.NormNum

/-!
# Numerals in a base up to 16

Printing by `%lu` and `%p`, and reading by `strtoul` with base 0 and by the pointer
conversion of `sscanf`. Digits above 9 are letters of either case. A value of 64
bits or more becomes the greatest one, and a pointer is read as `%p` prints it: its
prefix may be missing, but a text without a digit is no pointer. Before a pointer
neither a sign nor the text `(nil)` is read.

Printed digits are read back, also before further text; more digits behind them
change the value, and so does a cut.
-/
namespace OperatingSystems.Library

def digitValue (c : UInt8) : Option ℕ :=
  if 48 ≤ c ∧ c ≤ 57 then some (c.toNat - 48)
  else if 97 ≤ c ∧ c ≤ 122 then some (c.toNat - 87)
  else if 65 ≤ c ∧ c ≤ 90 then some (c.toNat - 55)
  else none

def numeral (base n : ℕ) : List UInt8 := (Nat.toDigits base n).map fun c => UInt8.ofNat c.toNat

/-- The values of the digits up to the first byte that is none. -/
def leadingDigits (base : ℕ) : List UInt8 → List ℕ
  | [] => []
  | c :: cs =>
      match digitValue c with
      | some d => if d < base then d :: leadingDigits base cs else []
      | none => []

/-- Every byte is a digit of the base. -/
def DigitsIn (base : ℕ) (s : List UInt8) : Prop := ∀ c ∈ s, ∃ d < base, digitValue c = some d

def valueOf (base : ℕ) (ds : List ℕ) : ℕ := ds.foldl (fun v d => base * v + d) 0

def saturate (n : ℕ) : UInt64 := if n < 2 ^ 64 then UInt64.ofNat n else UInt64.ofNat (2 ^ 64 - 1)

/-- The number after the sign: a prefix `0x` or `0` tells the base. -/
def autoValue : List UInt8 → ℕ
  | 48 :: x :: s =>
      if (x = 120 ∨ x = 88) ∧ leadingDigits 16 s ≠ [] then valueOf 16 (leadingDigits 16 s)
      else valueOf 8 (leadingDigits 8 (x :: s))
  | s => valueOf 10 (leadingDigits 10 s)

/-- `strtoul(s, NULL, 0)`. -/
def strtoul (s : List UInt8) : UInt64 :=
  match s.dropWhile isSpace with
  | [] => 0
  | c :: cs =>
      if c = 45 then if autoValue cs < 2 ^ 64 then -saturate (autoValue cs) else saturate (2 ^ 64)
      else if c = 43 then saturate (autoValue cs) else saturate (autoValue (c :: cs))

def withoutHexPrefix : List UInt8 → List UInt8
  | 48 :: x :: s => if x = 120 ∨ x = 88 then s else 48 :: x :: s
  | s => s

/-- `sscanf(s, "%p", &addr)`: `none` if nothing is stored. -/
def scanPointer (s : List UInt8) : Option UInt64 :=
  match leadingDigits 16 (withoutHexPrefix (s.dropWhile isSpace)) with
  | [] => none
  | d :: ds => some (saturate (valueOf 16 (d :: ds)))

section Digits
variable {b n d : ℕ}

theorem digitValue_digitChar (hd : d < 16) :
    digitValue (UInt8.ofNat (Nat.digitChar d).toNat) = some d := by
  interval_cases d <;> decide

theorem digitValue_of_isDigit {c : UInt8} (h : isDigit c) : ∃ d < 10, digitValue c = some d := by
  simp only [isDigit, Bool.and_eq_true, decide_eq_true_eq] at h
  have h57 : c.toNat ≤ 57 := UInt8.le_iff_toNat_le.mp h.2
  exact ⟨c.toNat - 48, by omega, if_pos h⟩

theorem numeral_of_lt (h : n < b) : numeral b n = [UInt8.ofNat (Nat.digitChar n).toNat] := by
  rw [numeral, Nat.toDigits_of_lt_base h]
  rfl

theorem numeral_of_le (hb : 1 < b) (h : b ≤ n) :
    numeral b n = numeral b (n / b) ++ [UInt8.ofNat (Nat.digitChar (n % b)).toNat] := by
  rw [numeral, Nat.toDigits_of_base_le hb h, List.map_append]
  rfl

theorem numeral_ne_nil (b n : ℕ) : numeral b n ≠ [] := by
  simp [numeral, Nat.toDigits_ne_nil]

theorem length_numeral_le {k : ℕ} (hb : 1 < b) (hk : 0 < k) (h : n < b ^ k) :
    (numeral b n).length ≤ k := by
  rw [numeral, List.length_map]
  exact (Nat.length_toDigits_le_iff hb hk).mpr h

theorem digitsIn_numeral (hb : 1 < b) (h16 : b ≤ 16) (n : ℕ) : DigitsIn b (numeral b n) := by
  induction n using Nat.strong_induction_on with
  | h n ih =>
      intro c hc
      by_cases hlt : n < b
      · rw [numeral_of_lt hlt, List.mem_singleton] at hc
        exact ⟨n, hlt, hc ▸ digitValue_digitChar (by omega)⟩
      · rw [numeral_of_le hb (by omega)] at hc
        rcases List.mem_append.mp hc with hc | hc
        · exact ih (n / b) (Nat.div_lt_self (by omega) hb) c hc
        · have hmod : n % b < b := Nat.mod_lt _ (by omega)
          rw [List.mem_singleton] at hc
          exact ⟨n % b, hmod, hc ▸ digitValue_digitChar (by omega)⟩

theorem digitsIn_hex (n : ℕ) : DigitsIn 16 (numeral 16 n) :=
  digitsIn_numeral (by decide) (by decide) n

theorem notMem_numeral (hb : 1 < b) (h16 : b ≤ 16) {c : UInt8} (hc : digitValue c = none) :
    c ∉ numeral b n := by
  intro h
  obtain ⟨d, -, hd⟩ := digitsIn_numeral hb h16 n c h
  cases hc.symm.trans hd

/-- A positive numeral does not start with the digit 0. -/
theorem head_numeral_ne_zero (hb : 1 < b) (h16 : b ≤ 16) (hn : 0 < n) :
    (numeral b n).head? ≠ some 48 := by
  induction n using Nat.strong_induction_on with
  | h n ih =>
      by_cases hlt : n < b
      · rw [numeral_of_lt hlt, List.head?_cons]
        intro h
        have hd := digitValue_digitChar (d := n) (by omega)
        rw [Option.some.inj h] at hd
        have hzero : digitValue 48 = some 0 := by decide
        rw [hzero] at hd
        exact absurd (Option.some.inj hd) (by omega)
      · have hdiv : 0 < n / b := Nat.div_pos (by omega) (by omega)
        obtain ⟨c, cs, hc⟩ := List.exists_cons_of_ne_nil (numeral_ne_nil b (n / b))
        have hhead := ih (n / b) (Nat.div_lt_self hn hb) hdiv
        rw [hc] at hhead
        rw [numeral_of_le hb (by omega), hc]
        exact hhead

end Digits

section Reading
variable {b n : ℕ}

theorem leadingDigits_append {s : List UInt8} (h : DigitsIn b s) (rest : List UInt8) :
    leadingDigits b (s ++ rest) = leadingDigits b s ++ leadingDigits b rest := by
  induction s with
  | nil => rfl
  | cons c cs ih =>
      obtain ⟨d, hd, hc⟩ := h c (by simp)
      simp only [List.cons_append, leadingDigits, hc, if_pos hd,
        ih fun x hx => h x (by simp [hx])]

theorem length_leadingDigits {s : List UInt8} (h : DigitsIn b s) :
    (leadingDigits b s).length = s.length := by
  induction s with
  | nil => rfl
  | cons c cs ih =>
      obtain ⟨d, hd, hc⟩ := h c (by simp)
      simp only [leadingDigits, hc, if_pos hd, List.length_cons,
        ih fun x hx => h x (by simp [hx])]

theorem valueOf_append (b : ℕ) (ds es : List ℕ) :
    valueOf b (ds ++ es) = valueOf b ds * b ^ es.length + valueOf b es := by
  induction es using List.reverseRecOn with
  | nil => simp [valueOf]
  | append_singleton es e ih =>
      rw [← List.append_assoc, valueOf, List.foldl_append, ← valueOf, ih]
      simp only [valueOf, List.foldl_append, List.foldl_cons, List.foldl_nil, List.length_append,
        List.length_singleton, pow_succ]
      ring

theorem valueOf_numeral (hb : 1 < b) (h16 : b ≤ 16) :
    valueOf b (leadingDigits b (numeral b n)) = n := by
  induction n using Nat.strong_induction_on with
  | h n ih =>
      have hdigit : ∀ d < b,
          leadingDigits b [UInt8.ofNat (Nat.digitChar d).toNat] = [d] := by
        intro d hd
        simp only [leadingDigits, digitValue_digitChar (by omega : d < 16), if_pos hd]
      by_cases hlt : n < b
      · rw [numeral_of_lt hlt, hdigit n hlt]
        simp [valueOf]
      · rw [numeral_of_le hb (by omega),
          leadingDigits_append (digitsIn_numeral hb h16 _),
          hdigit _ (Nat.mod_lt _ (by omega)), valueOf_append,
          ih (n / b) (Nat.div_lt_self (by omega) hb)]
        simp only [valueOf, List.length_singleton, pow_one, List.foldl_cons, List.foldl_nil]
        have hdiv := Nat.div_add_mod' n b
        omega

/-- Further digits behind a positive numeral make the value greater. -/
theorem lt_valueOf_append {ds es : List ℕ} (hb : 1 < b) (hn : 0 < valueOf b ds) (he : es ≠ []) :
    valueOf b ds < valueOf b (ds ++ es) := by
  have hpow : 1 < b ^ es.length := Nat.one_lt_pow (by simpa using he) hb
  rw [valueOf_append]
  nlinarith

theorem saturate_toNat {n : ℕ} (h : n < 2 ^ 64) : (saturate n).toNat = n := by
  rw [saturate, if_pos h, UInt64.toNat_ofNat']
  exact Nat.mod_eq_of_lt h

/-- Saturation does not hide a different value, except for the greatest one. -/
theorem saturate_ne {n : ℕ} {v : UInt64} (h : n ≠ v.toNat) (hv : v.toNat ≠ 2 ^ 64 - 1) :
    saturate n ≠ v := by
  intro he
  by_cases hlt : n < 2 ^ 64
  · exact h (by rw [← he, saturate_toNat hlt])
  · rw [saturate, if_neg hlt] at he
    exact hv (by rw [← he]; rfl)

theorem isSpace_of_digitValue {c : UInt8} {d : ℕ} (h : digitValue c = some d) :
    isSpace c = false := by
  by_contra hs
  have h32 : (32 : UInt8).toNat = 32 := rfl
  simp only [isSpace, Bool.not_eq_false, Bool.or_eq_true, beq_iff_eq, Bool.and_eq_true,
    decide_eq_true_eq, UInt8.le_iff_toNat_le, ← UInt8.toNat_inj, h32] at hs
  have h13 : (13 : UInt8).toNat = 13 := rfl
  have h48 : (48 : UInt8).toNat = 48 := rfl
  have h97 : (97 : UInt8).toNat = 97 := rfl
  have h65 : (65 : UInt8).toNat = 65 := rfl
  unfold digitValue at h
  simp only [UInt8.le_iff_toNat_le, h48, h97, h65] at h
  split_ifs at h <;> omega

theorem autoValue_of_head {s : List UInt8} (h : s.head? ≠ some 48) :
    autoValue s = valueOf 10 (leadingDigits 10 s) := by
  unfold autoValue
  split
  · exact absurd rfl h
  · rfl

/-- A positive decimal numeral has no leading zero, so base 0 reads it as decimal. -/
theorem strtoul_numeral (hn : 0 < n) (hlt : n < 2 ^ 64) :
    (strtoul (numeral 10 n)).toNat = n := by
  obtain ⟨c, cs, hc⟩ := List.exists_cons_of_ne_nil (numeral_ne_nil 10 n)
  have hdigit : ∀ x, digitValue x = none → c ≠ x := by
    intro x hx hcx
    exact notMem_numeral (b := 10) (n := n) (by decide) (by decide) hx (by simp [hc, hcx])
  obtain ⟨d, -, hd⟩ := digitsIn_numeral (b := 10) (by decide) (by decide) n c (by simp [hc])
  have hvalue : autoValue (c :: cs) = n := by
    have hhead := head_numeral_ne_zero (b := 10) (by decide) (by decide) hn
    rw [hc] at hhead
    rw [autoValue_of_head hhead, ← hc, valueOf_numeral (by decide) (by decide)]
  rw [hc, strtoul, List.dropWhile_cons_of_neg (by simp [isSpace_of_digitValue hd])]
  simp only [hdigit 45 (by decide), hdigit 43 (by decide), if_false, hvalue]
  exact saturate_toNat hlt

/-- The prefix of a pointer text is skipped, whatever follows it. -/
theorem scanPointer_hex (s : List UInt8) :
    scanPointer (48 :: 120 :: s) =
      if leadingDigits 16 s = [] then none
      else some (saturate (valueOf 16 (leadingDigits 16 s))) := by
  have hspace : isSpace 48 = false := by decide
  rw [scanPointer, List.dropWhile_cons_of_neg (by simp [hspace])]
  simp only [withoutHexPrefix, true_or, if_true]
  cases leadingDigits 16 s with
  | nil => rfl
  | cons d ds => rfl

theorem valueOf_hex (n : ℕ) : valueOf 16 (leadingDigits 16 (numeral 16 n)) = n :=
  valueOf_numeral (by decide) (by decide)

theorem scanPointer_numeral (v : UInt64) :
    scanPointer (48 :: 120 :: numeral 16 v.toNat) = some v := by
  have hne : leadingDigits 16 (numeral 16 v.toNat) ≠ [] := by
    intro h
    have hl := length_leadingDigits (digitsIn_hex v.toNat)
    rw [h] at hl
    exact numeral_ne_nil 16 _ (List.length_eq_zero_iff.mp hl.symm)
  rw [scanPointer_hex, if_neg hne, valueOf_hex]
  exact congrArg some (UInt64.toNat_inj.mp (saturate_toNat v.toNat_lt))

end Reading

section Pointer
variable {v : UInt64} (hv : v ≠ 0) (hmax : v.toNat ≠ 2 ^ 64 - 1)
include hv hmax

theorem scanPointer_append_ne {s : List UInt8} (hs : leadingDigits 16 s ≠ []) :
    scanPointer (48 :: 120 :: (numeral 16 v.toNat ++ s)) ≠ some v := by
  have hpos : 0 < valueOf 16 (leadingDigits 16 (numeral 16 v.toNat)) := by
    rw [valueOf_hex]
    exact UInt64.pos_iff_ne_zero.mpr hv
  have hgreater := lt_valueOf_append (by decide) hpos hs
  rw [valueOf_hex] at hgreater
  rw [scanPointer_hex, leadingDigits_append (digitsIn_hex _), if_neg (by simp [hs])]
  exact fun h => saturate_ne hgreater.ne' hmax (Option.some.inj h)

theorem scanPointer_take_ne {k : ℕ} (hk : k < (numeral 16 v.toNat).length + 2) :
    scanPointer ((48 :: 120 :: numeral 16 v.toNat).take k) ≠ some v := by
  match k with
  | 0 => exact (Option.some_ne_none v).symm
  | 1 => exact fun h => hv (Option.some.inj (h.symm.trans (by decide : scanPointer [48] = some 0)))
  | k + 2 =>
      have hfront : DigitsIn 16 ((numeral 16 v.toNat).take k) :=
        fun c hc => digitsIn_hex _ c (List.mem_of_mem_take hc)
      have hback : DigitsIn 16 ((numeral 16 v.toNat).drop k) :=
        fun c hc => digitsIn_hex _ c (List.mem_of_mem_drop hc)
      have hcut : leadingDigits 16 (numeral 16 v.toNat) =
          leadingDigits 16 ((numeral 16 v.toNat).take k) ++
            leadingDigits 16 ((numeral 16 v.toNat).drop k) := by
        rw [← leadingDigits_append hfront, List.take_append_drop]
      have hrest : leadingDigits 16 ((numeral 16 v.toNat).drop k) ≠ [] := by
        intro h
        have hl := length_leadingDigits hback
        rw [h, List.length_nil, List.length_drop] at hl
        omega
      -- a cut text of the same value would make the whole text greater than that
      have hne : valueOf 16 (leadingDigits 16 ((numeral 16 v.toNat).take k)) ≠ v.toNat := by
        intro h
        have hgreater := lt_valueOf_append (by decide : 1 < 16)
          (by rw [h]; exact UInt64.pos_iff_ne_zero.mpr hv) hrest
        rw [← hcut, valueOf_hex, h] at hgreater
        exact lt_irrefl _ hgreater
      rw [List.take_succ_cons, List.take_succ_cons, scanPointer_hex]
      split_ifs with hnil
      · exact (Option.some_ne_none v).symm
      · exact fun h => saturate_ne hne hmax (Option.some.inj h)

end Pointer

end OperatingSystems.Library
