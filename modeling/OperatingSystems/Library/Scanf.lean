import OperatingSystems.Library.CString
import Mathlib.Data.List.Count

/-!
# Typed input and fields of a text

Three conversions of `scanf`, each of which skips white space before it: a character,
an `int` in decimal digits, and the rest of a line. The result is the value that is
assigned, `none` if the conversion fails, and the input that is left. A failed
conversion consumes the white space, and a sign without digits is lost. The value of
`%d` is the number read, which is for its caller to compare with the range of `int`:
C defines no conversion outside of it.

What has been typed for a conversion is read back, whatever white space stands before
it, and leaves the newline behind it to the next conversion.

`scanFields` is a loop that folds the elements of a list and starts again behind every
separator. It yields a value for each separator and one for the end of the list, so
that the values are those of the fields between the separators, empty ones included.
-/
namespace OperatingSystems.Library

/-- `" %c"` -/
def scanChar (input : List UInt8) : Option UInt8 × List UInt8 :=
  match input.dropWhile isSpace with
  | [] => (none, [])
  | c :: rest => (some c, rest)

/-- Whether a minus sign comes first, and what follows the sign. -/
def takeSign : List UInt8 → Bool × List UInt8
  | [] => (false, [])
  | c :: rest => if c = 45 then (true, rest) else (false, if c = 43 then rest else c :: rest)

/-- `" %d"` -/
def scanInt (input : List UInt8) : Option ℤ × List UInt8 :=
  let (minus, input) := takeSign (input.dropWhile isSpace)
  let value : ℤ := digitsValue input
  (if input.takeWhile isDigit = [] then none else some (if minus then -value else value),
    input.dropWhile isDigit)

/-- `" %[^\n]"` -/
def scanLine (input : List UInt8) : Option (List UInt8) × List UInt8 :=
  let input := input.dropWhile isSpace
  let line := input.takeWhile (· ≠ 10)
  (if line = [] then none else some line, input.dropWhile (· ≠ 10))

/-- What an array of characters holds after the bytes and a terminator were stored. -/
def CString.ofBytes (bs : List UInt8) : CString :=
  ⟨bs.takeWhile (· ≠ 0), fun h => by simpa using List.mem_takeWhile_imp h⟩

theorem CString.ofBytes_bytes (s : CString) : CString.ofBytes s.bytes = s := by
  apply CString.ext
  apply List.takeWhile_eq_self_iff.mpr
  intro b hb
  simpa using fun h0 : b = 0 => s.nulFree (h0 ▸ hb)

/-- Reading stops at the first NUL of the bytes or of what follows them. -/
theorem readString_ofBytes {mem : ℤ → UInt8} {addr : ℤ} {bs : List UInt8} {n : ℕ}
    (h : ∀ k ≤ bs.length, mem (addr + k) = bs.getD k 0) (hn : bs.length < n) :
    readString mem addr n = CString.ofBytes bs := by
  apply CString.ext
  change readBytes mem addr n = bs.takeWhile (· ≠ 0)
  induction bs generalizing addr n with
  | nil => exact readBytes_of_agree List.not_mem_nil h hn
  | cons b bs ih =>
      obtain ⟨n, rfl⟩ := Nat.exists_eq_succ_of_ne_zero (Nat.ne_zero_of_lt hn)
      have hb : mem addr = b := by simpa using h 0 (Nat.zero_le _)
      have hrest : ∀ k ≤ bs.length, mem (addr + 1 + k) = bs.getD k 0 := by
        intro k hk
        have hnext := h (k + 1) (Nat.succ_le_succ hk)
        rw [List.getD_cons_succ] at hnext
        rw [← hnext]
        congr 1
        push_cast
        ring
      rw [readBytes, hb]
      split_ifs with hzero
      · rw [List.takeWhile_cons_of_neg (by simpa using hzero)]
      · rw [List.takeWhile_cons_of_pos (by simpa using hzero),
          ih hrest (Nat.lt_of_succ_lt_succ hn)]

/-- White space only. -/
def Blanks (s : List UInt8) : Prop := ∀ b ∈ s, isSpace b

theorem blanks_nil : Blanks [] := fun _ hb => absurd hb List.not_mem_nil

section Reading
variable {spaces rest : List UInt8} {c : UInt8}

theorem dropWhile_blanks (h : Blanks spaces) : spaces.dropWhile isSpace = [] :=
  List.dropWhile_eq_nil_iff.mpr h

theorem dropWhile_blanks_append (h : Blanks spaces) (s : List UInt8) :
    (spaces ++ s).dropWhile isSpace = s.dropWhile isSpace :=
  List.dropWhile_append_of_pos h

theorem scanChar_blanks (h : Blanks spaces) : scanChar spaces = (none, []) := by
  rw [scanChar, dropWhile_blanks h]

theorem scanChar_append (h : Blanks spaces) (hc : isSpace c = false) (rest : List UInt8) :
    scanChar (spaces ++ c :: rest) = (some c, rest) := by
  rw [scanChar, dropWhile_blanks_append h, List.dropWhile_cons_of_neg (by simp [hc])]

theorem takeWhile_digits {ds : List UInt8} (h : ∀ b ∈ ds, isDigit b) (hc : isDigit c = false)
    (rest : List UInt8) : (ds ++ c :: rest).takeWhile isDigit = ds := by
  rw [List.takeWhile_append_of_pos h, List.takeWhile_cons_of_neg (by simp [hc]), List.append_nil]

/-- A printed number is read back up to a byte that is no digit. -/
theorem scanInt_decimal (h : Blanks spaces) (n : ℤ) (hc : isDigit c = false)
    (rest : List UInt8) :
    scanInt (spaces ++ (decimal n ++ c :: rest)) = (some n, c :: rest) := by
  have hdigits : ∀ b ∈ digits n.natAbs, isDigit b := fun b hb => isDigit_of_mem_digits hb
  have hvalue : digitsValue (digits n.natAbs ++ c :: rest) = n.natAbs := by
    have hself : (digits n.natAbs).takeWhile isDigit = digits n.natAbs :=
      List.takeWhile_eq_self_iff.mpr hdigits
    have hread := digitsValue_digits n.natAbs
    rw [digitsValue, hself] at hread
    rw [digitsValue, takeWhile_digits hdigits hc, hread]
  have hrest : (digits n.natAbs ++ c :: rest).dropWhile isDigit = c :: rest := by
    rw [List.dropWhile_append_of_pos hdigits, List.dropWhile_cons_of_neg (by simp [hc])]
  have hsign : takeSign ((decimal n ++ c :: rest).dropWhile isSpace) =
      (decide (n < 0), digits n.natAbs ++ c :: rest) := by
    unfold decimal
    split_ifs with hn
    · rw [List.cons_append, List.dropWhile_cons_of_neg (by decide), takeSign, if_pos rfl,
        decide_eq_true hn]
    · obtain ⟨b, bs, hd⟩ := List.exists_cons_of_ne_nil (digits_ne_nil n.natAbs)
      have hb : isDigit b := hdigits b (by simp [hd])
      rw [hd, List.cons_append, List.dropWhile_cons_of_neg (by simp [not_isSpace_of_isDigit hb]),
        takeSign, if_neg (ne_of_isDigit hb (by decide)), if_neg (ne_of_isDigit hb (by decide)),
        decide_eq_false hn]
  rw [scanInt, dropWhile_blanks_append h, hsign]
  dsimp only
  rw [hrest, hvalue, takeWhile_digits hdigits hc, if_neg (digits_ne_nil n.natAbs)]
  refine Prod.ext (congrArg some ?_) rfl
  by_cases hn : n < 0
  · simp only [decide_eq_true hn, if_true]
    omega
  · simp only [decide_eq_false hn, Bool.false_eq_true, if_false]
    omega

/-- A line that starts with its first character is read back up to its newline. -/
theorem scanLine_append {line : List UInt8} (h : Blanks spaces) (hne : line ≠ [])
    (hstart : line.dropWhile isSpace = line) (hline : 10 ∉ line) (rest : List UInt8) :
    scanLine (spaces ++ (line ++ 10 :: rest)) = (some line, 10 :: rest) := by
  have hnot : ∀ b ∈ line, decide (b ≠ 10) = true := by
    intro b hb
    simpa using fun he : b = 10 => hline (he ▸ hb)
  have hdrop : (line ++ 10 :: rest).dropWhile isSpace = line ++ 10 :: rest := by
    rw [List.dropWhile_append, hstart, if_neg (by simpa using hne)]
  have htake : (line ++ 10 :: rest).takeWhile (fun b => decide (b ≠ 10)) = line := by
    rw [List.takeWhile_append_of_pos hnot, List.takeWhile_cons_of_neg (by simp), List.append_nil]
  have hleft : (line ++ 10 :: rest).dropWhile (fun b => decide (b ≠ 10)) = 10 :: rest := by
    rw [List.dropWhile_append_of_pos hnot, List.dropWhile_cons_of_neg (by simp)]
  rw [scanLine, dropWhile_blanks_append h, hdrop]
  rw [htake, hleft, if_neg hne]

end Reading

section Fields
variable {α σ : Type*} [DecidableEq α]

/-- The folded fields; `acc` is the value of the field that is being read. -/
def scanFields (sep : α) (f : σ → α → σ) (zero : σ) : List α → σ → List σ
  | [], acc => [acc]
  | c :: cs, acc =>
      if c = sep then acc :: scanFields sep f zero cs zero
      else scanFields sep f zero cs (f acc c)

variable {sep : α} {f : σ → α → σ} {zero : σ}

theorem length_scanFields (s : List α) (acc : σ) :
    (scanFields sep f zero s acc).length = s.count sep + 1 := by
  induction s generalizing acc with
  | nil => rfl
  | cons c cs ih =>
      rw [scanFields]
      split_ifs with hc
      · rw [List.length_cons, ih, hc, List.count_cons_self]
      · rw [ih, List.count_cons_of_ne hc]

/-- A part without separators is folded into the current field. -/
theorem scanFields_append {field : List α} (h : sep ∉ field) (rest : List α) (acc : σ) :
    scanFields sep f zero (field ++ rest) acc =
      scanFields sep f zero rest (field.foldl f acc) := by
  induction field generalizing acc with
  | nil => rfl
  | cons c cs ih =>
      rw [List.mem_cons, not_or] at h
      rw [List.cons_append, scanFields, if_neg (Ne.symm h.1), ih h.2, List.foldl_cons]

theorem scanFields_intercalate {fields : List (List α)} (hne : fields ≠ [])
    (h : ∀ field ∈ fields, sep ∉ field) :
    scanFields sep f zero ([sep].intercalate fields) zero =
      fields.map fun field => field.foldl f zero := by
  induction fields with
  | nil => exact absurd rfl hne
  | cons field fields ih =>
      have hfield : sep ∉ field := h field (List.mem_cons_self ..)
      cases fields with
      | nil =>
          rw [List.intercalate_singleton, ← List.append_nil field, scanFields_append hfield]
          rw [scanFields, List.append_nil, List.map_singleton]
      | cons next rest =>
          have htail := ih (List.cons_ne_nil next rest) fun l hl => h l (List.mem_cons_of_mem _ hl)
          rw [List.intercalate_cons_cons, List.append_assoc, List.singleton_append,
            scanFields_append hfield, scanFields, if_pos rfl, htail]
          rfl

end Fields

end OperatingSystems.Library
