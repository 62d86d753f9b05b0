import Mathlib.Data.List.TakeWhile
import Mathlib.Logic.Function.Basic
import Mathlib.Tactic.Ring
import Mathlib.Tactic.SplitIfs

/-!
# NUL-terminated strings in a byte memory

A string value is a byte list without the terminator; a memory is a total
function from addresses to bytes. Reading stops at the first NUL or at the end
of the readable bytes, and writing copies the bytes and the terminator one by
one. The two are related by a closed form for the written memory, so that later
proofs never follow the copying loop.

The text conversions follow the documented C behaviour for the inputs they are
defined on: decimal printing of an integer, `strtok` with a one-byte delimiter,
and `atoi`. Overflow of `atoi` is undefined in C and is not modelled.
-/
namespace OperatingSystems.Library

/-- A string value cannot contain its own terminator. -/
@[ext]
structure CString where
  bytes : List UInt8
  nulFree : 0 ∉ bytes
deriving DecidableEq

namespace CString

def empty : CString := ⟨[], List.not_mem_nil⟩

def strlen (s : CString) : ℕ := s.bytes.length

def take (n : ℕ) (s : CString) : CString :=
  ⟨s.bytes.take n, fun h => s.nulFree (List.mem_of_mem_take h)⟩

def byteAt (s : CString) (k : ℕ) : UInt8 := s.bytes.getD k 0

@[simp] theorem strlen_empty : empty.strlen = 0 := rfl

theorem strlen_eq_zero {s : CString} : s.strlen = 0 ↔ s = empty := by
  rw [CString.ext_iff]
  exact List.length_eq_zero_iff

theorem byteAt_strlen (s : CString) : s.byteAt s.strlen = 0 := by
  simp [byteAt, strlen]

theorem take_of_strlen_le {n : ℕ} {s : CString} (h : s.strlen ≤ n) : s.take n = s :=
  CString.ext (List.take_of_length_le h)

end CString

section Memory

def readBytes (mem : ℤ → UInt8) (addr : ℤ) : ℕ → List UInt8
  | 0 => []
  | n + 1 => if mem addr = 0 then [] else mem addr :: readBytes mem (addr + 1) n

theorem zero_notMem_readBytes (mem : ℤ → UInt8) (addr : ℤ) (n : ℕ) :
    0 ∉ readBytes mem addr n := by
  induction n generalizing addr with
  | zero => exact List.not_mem_nil
  | succ n ih =>
      simp only [readBytes]
      split_ifs with h
      · exact List.not_mem_nil
      · simpa only [List.mem_cons, not_or] using ⟨fun h0 => h h0.symm, ih (addr + 1)⟩

def readString (mem : ℤ → UInt8) (addr : ℤ) (n : ℕ) : CString :=
  ⟨readBytes mem addr n, zero_notMem_readBytes mem addr n⟩

/-- The copying loop `addr[l++] = message[j]` and the final `addr[l] = NUL`. -/
def writeBytes (mem : ℤ → UInt8) (l : ℤ) : List UInt8 → ℤ → UInt8
  | [] => Function.update mem l 0
  | b :: bs => writeBytes (Function.update mem l b) (l + 1) bs

def writeString (mem : ℤ → UInt8) (l : ℤ) (message : CString) : ℤ → UInt8 :=
  writeBytes mem l message.bytes

def zeroFill (mem : ℤ → UInt8) (addr : ℤ) (n : ℕ) : ℤ → UInt8 :=
  fun a => if addr ≤ a ∧ a < addr + n then 0 else mem a

theorem writeBytes_apply (mem : ℤ → UInt8) (l : ℤ) (bs : List UInt8) (a : ℤ) :
    writeBytes mem l bs a =
      if l ≤ a ∧ a ≤ l + bs.length then bs.getD (a - l).toNat 0 else mem a := by
  induction bs generalizing mem l with
  | nil =>
      simp only [writeBytes, Function.update_apply, List.length_nil, List.getD_nil]
      split_ifs <;> first | rfl | omega
  | cons b bs ih =>
      rw [writeBytes, ih]
      simp only [List.length_cons, Function.update_apply]
      by_cases hl : a = l
      · subst hl
        rw [if_neg (by omega), if_pos rfl, if_pos (by omega)]
        simp
      · have hs : 0 < a - l → (a - l).toNat = (a - (l + 1)).toNat + 1 := by omega
        by_cases ha : l + 1 ≤ a ∧ a ≤ l + 1 + bs.length
        · rw [if_pos ha, if_pos (by push_cast; omega), hs (by omega), List.getD_cons_succ]
        · rw [if_neg ha, if_neg hl, if_neg (by push_cast; omega)]

theorem writeString_apply (mem : ℤ → UInt8) (l : ℤ) (s : CString) (a : ℤ) :
    writeString mem l s a =
      if l ≤ a ∧ a ≤ l + s.strlen then s.byteAt (a - l).toNat else mem a :=
  writeBytes_apply mem l s.bytes a

/-- The memory carries the string `s` and its terminator at `addr`. -/
def StringAt (mem : ℤ → UInt8) (addr : ℤ) (s : CString) : Prop :=
  ∀ k ≤ s.strlen, mem (addr + k) = s.byteAt k

theorem readBytes_of_agree {mem : ℤ → UInt8} {addr : ℤ} {bs : List UInt8} {n : ℕ}
    (hz : 0 ∉ bs) (h : ∀ k ≤ bs.length, mem (addr + k) = bs.getD k 0) (hn : bs.length < n) :
    readBytes mem addr n = bs := by
  induction bs generalizing addr n with
  | nil =>
      obtain ⟨n, rfl⟩ := Nat.exists_eq_succ_of_ne_zero (Nat.ne_zero_of_lt hn)
      have h0 : mem addr = 0 := by simpa using h 0 le_rfl
      simp [readBytes, h0]
  | cons b bs ih =>
      obtain ⟨n, rfl⟩ := Nat.exists_eq_succ_of_ne_zero (Nat.ne_zero_of_lt hn)
      have hb : mem addr = b := by simpa using h 0 (Nat.zero_le _)
      have hne : b ≠ 0 := fun e => hz (by simp [e])
      have ht : readBytes mem (addr + 1) n = bs := by
        refine ih (fun hm => hz (List.mem_cons_of_mem _ hm)) (fun k hk => ?_) (by simpa using hn)
        have hk' := h (k + 1) (by simpa using hk)
        rw [List.getD_cons_succ] at hk'
        rw [← hk']
        congr 1
        push_cast
        ring
      rw [readBytes, if_neg (by rw [hb]; exact hne), hb, ht]

/-- Reading ends at the latest at a NUL byte. -/
theorem length_readBytes_le {mem : ℤ → UInt8} {addr : ℤ} {k : ℕ} (h : mem (addr + k) = 0) (n : ℕ) :
    (readBytes mem addr n).length ≤ k := by
  induction n generalizing addr k with
  | zero => exact Nat.zero_le k
  | succ n ih =>
      rw [readBytes]
      split_ifs with h0
      · exact Nat.zero_le k
      · cases k with
        | zero => exact absurd (by simpa using h) h0
        | succ k =>
            have hrest : mem (addr + 1 + k) = 0 := by
              rw [← h]
              congr 1
              push_cast
              ring
            simpa using ih hrest

theorem readString_of_stringAt {mem : ℤ → UInt8} {addr : ℤ} {s : CString} {n : ℕ}
    (h : StringAt mem addr s) (hn : s.strlen < n) : readString mem addr n = s :=
  CString.ext (readBytes_of_agree s.nulFree h hn)

theorem stringAt_writeString (mem : ℤ → UInt8) (l : ℤ) (s : CString) :
    StringAt (writeString mem l s) l s := by
  intro k hk
  rw [writeString_apply, if_pos (by omega)]
  congr 1
  omega

theorem StringAt.congr {mem mem' : ℤ → UInt8} {addr : ℤ} {s : CString}
    (h : StringAt mem addr s) (he : ∀ k ≤ s.strlen, mem' (addr + k) = mem (addr + k)) :
    StringAt mem' addr s := fun k hk => (he k hk).trans (h k hk)

theorem stringAt_empty {mem : ℤ → UInt8} {addr : ℤ} (h : mem addr = 0) :
    StringAt mem addr CString.empty := by
  intro k hk
  obtain rfl : k = 0 := by simpa using hk
  simpa [CString.byteAt, CString.empty] using h

end Memory

section Conversions

def isDigit (b : UInt8) : Bool := 48 ≤ b && b ≤ 57

def isSpace (b : UInt8) : Bool := b == 32 || (9 ≤ b && b ≤ 13)

def digits (n : ℕ) : List UInt8 := (Nat.toDigits 10 n).map fun c => UInt8.ofNat c.toNat

/-- `"%d"`: a minus sign (byte 45) before the digits of a negative number. -/
def decimal (n : ℤ) : List UInt8 := if n < 0 then 45 :: digits n.natAbs else digits n.natAbs

def digitsValue (s : List UInt8) : ℕ :=
  (s.takeWhile isDigit).foldl (fun v b => 10 * v + (b.toNat - 48)) 0

/-- `atoi`: leading white space, an optional sign, then digits. -/
def atoi (s : List UInt8) : ℤ :=
  match s.dropWhile isSpace with
  | [] => 0
  | b :: bs => if b = 45 then -(digitsValue bs : ℤ) else
      if b = 43 then digitsValue bs else digitsValue (b :: bs)

/-- One call of `strtok`: leading delimiters are skipped, the token ends before
the next delimiter or at the end, and the rest is what the next call scans.
`none` is the NULL result. -/
def strtok (delim : UInt8) (s : List UInt8) : Option (List UInt8 × List UInt8) :=
  match s.dropWhile (· == delim) with
  | [] => none
  | b :: bs => some (b :: bs.takeWhile (· != delim), (bs.dropWhile (· != delim)).drop 1)

theorem isDigit_of_mem_digits {n : ℕ} {b : UInt8} (h : b ∈ digits n) : isDigit b := by
  obtain ⟨c, hc, rfl⟩ := List.mem_map.mp h
  have hd := Nat.isDigit_of_mem_toDigits (by decide) (by decide) hc
  simp only [Char.isDigit, Bool.and_eq_true, decide_eq_true_eq, UInt32.le_iff_toNat_le] at hd
  have h48 : 48 ≤ c.toNat := hd.1
  have h57 : c.toNat ≤ 57 := hd.2
  simp only [isDigit, Bool.and_eq_true, decide_eq_true_eq, UInt8.le_iff_toNat_le,
    UInt8.toNat_ofNat']
  constructor <;> simp <;> omega

theorem digits_ne_nil (n : ℕ) : digits n ≠ [] := by
  simp [digits, Nat.toDigits_ne_nil]

theorem digitsValue_digits (n : ℕ) : digitsValue (digits n) = n := by
  have ht : (digits n).takeWhile isDigit = digits n :=
    List.takeWhile_eq_self_iff.mpr fun b hb => isDigit_of_mem_digits hb
  have hf : ∀ (cs : List Char) (v : ℕ), (∀ c ∈ cs, c.isDigit) →
      (cs.map fun c => UInt8.ofNat c.toNat).foldl (fun v b => 10 * v + (b.toNat - 48)) v =
        Nat.ofDigitChars 10 cs v := by
    intro cs
    induction cs with
    | nil => intro v _; simp
    | cons c cs ih =>
        intro v hc
        have hd := hc c (by simp)
        simp only [Char.isDigit, Bool.and_eq_true, decide_eq_true_eq,
          UInt32.le_iff_toNat_le] at hd
        have h57 : c.toNat ≤ 57 := hd.2
        have hn : (UInt8.ofNat c.toNat).toNat = c.toNat := by
          rw [UInt8.toNat_ofNat', Nat.mod_eq_of_lt (by omega)]
        simp only [List.map_cons, List.foldl_cons, Nat.ofDigitChars_cons, hn]
        exact ih _ fun x hx => hc x (by simp [hx])
  rw [digitsValue, ht, digits, hf _ _ fun c hc =>
    Nat.isDigit_of_mem_toDigits (by decide) (by decide) hc]
  exact Nat.ofDigitChars_ten_toDigits

theorem not_isSpace_of_isDigit {b : UInt8} (h : isDigit b) : isSpace b = false := by
  simp only [isDigit, Bool.and_eq_true, decide_eq_true_eq, UInt8.le_iff_toNat_le] at h
  simp only [isSpace, Bool.or_eq_false_iff, Bool.and_eq_false_iff, decide_eq_false_iff_not,
    UInt8.le_iff_toNat_le, beq_eq_false_iff_ne, ne_eq, ← UInt8.toNat_inj]
  have h48 : (48 : UInt8).toNat = 48 := rfl
  have h32 : (32 : UInt8).toNat = 32 := rfl
  have h13 : (13 : UInt8).toNat = 13 := rfl
  omega

theorem ne_of_isDigit {b c : UInt8} (h : isDigit b) (hc : isDigit c = false) : b ≠ c := by
  rintro rfl
  simp [h] at hc

/-- `atoi` undoes the decimal printing of every integer. -/
theorem atoi_decimal (n : ℤ) : atoi (decimal n) = n := by
  obtain ⟨b, bs, hd⟩ := List.exists_cons_of_ne_nil (digits_ne_nil n.natAbs)
  have hb : isDigit b := isDigit_of_mem_digits (n := n.natAbs) (by simp [hd])
  have hv : digitsValue (b :: bs) = n.natAbs := by rw [← hd, digitsValue_digits]
  unfold decimal atoi
  split_ifs with hn
  · rw [List.dropWhile_cons_of_neg (by decide), hd]
    simp only [if_true, hv]
    omega
  · rw [hd, List.dropWhile_cons_of_neg (by simp [not_isSpace_of_isDigit hb])]
    simp only [ne_of_isDigit hb (by decide : isDigit 45 = false),
      ne_of_isDigit hb (by decide : isDigit 43 = false), if_false, hv]
    omega

theorem zero_notMem_decimal (n : ℤ) : 0 ∉ decimal n := by
  have hd : (0 : UInt8) ∉ digits n.natAbs := fun h =>
    ne_of_isDigit (isDigit_of_mem_digits h) (by decide : isDigit 0 = false) rfl
  unfold decimal
  split_ifs
  · simpa using hd
  · exact hd

theorem decimal_of_nonneg {n : ℤ} (h : 0 ≤ n) : decimal n = digits n.natAbs :=
  if_neg (by omega)

theorem decimal_ne_nil (n : ℤ) : decimal n ≠ [] := by
  unfold decimal
  split_ifs
  · exact List.cons_ne_nil _ _
  · exact digits_ne_nil _

/-- Only a negative number prints with a minus sign. -/
theorem minus_notMem_decimal {n : ℤ} (h : 0 ≤ n) : 45 ∉ decimal n := by
  rw [decimal_of_nonneg h]
  exact fun hd => ne_of_isDigit (isDigit_of_mem_digits hd) (by decide : isDigit 45 = false) rfl

/-- A token without delimiters, followed by one, is returned whole. -/
theorem strtok_append_cons {d : UInt8} {tok : List UInt8} (rest : List UInt8)
    (hne : tok ≠ []) (hd : d ∉ tok) : strtok d (tok ++ d :: rest) = some (tok, rest) := by
  obtain ⟨b, bs, rfl⟩ := List.exists_cons_of_ne_nil hne
  have hb : b ≠ d := fun e => hd (by simp [e])
  have hbs : ∀ x ∈ bs, (x != d) = true := fun x hx => by
    simpa using fun e : x = d => hd (by simp [← e, hx])
  rw [strtok, List.cons_append, List.dropWhile_cons_of_neg (by simpa using hb)]
  simp only [List.takeWhile_append_of_pos hbs, List.dropWhile_append_of_pos hbs]
  simp

theorem strtok_last {d : UInt8} {tok : List UInt8} (hne : tok ≠ []) (hd : d ∉ tok) :
    strtok d tok = some (tok, []) := by
  obtain ⟨b, bs, rfl⟩ := List.exists_cons_of_ne_nil hne
  have hb : b ≠ d := fun e => hd (by simp [e])
  have hbs : ∀ x ∈ bs, (x != d) = true := fun x hx => by
    simpa using fun e : x = d => hd (by simp [← e, hx])
  rw [strtok, List.dropWhile_cons_of_neg (by simpa using hb)]
  simp only [List.takeWhile_eq_self_iff.mpr hbs, List.dropWhile_eq_nil_iff.mpr hbs]
  rfl

/-- A text that is cut before its second token has no second token. -/
theorem strtok_strtok_take {d : UInt8} {tok r : List UInt8} {n : ℕ} (hne : tok ≠ [])
    (hd : d ∉ tok) (hn : n ≤ tok.length + 1) :
    ((strtok d ((tok ++ d :: r).take n)).bind fun token => strtok d token.2) = none := by
  by_cases hcut : n ≤ tok.length
  · rw [List.take_append_of_le_length hcut]
    by_cases hnil : tok.take n = []
    · rw [hnil]
      rfl
    · rw [strtok_last hnil fun h => hd (List.mem_of_mem_take h)]
      rfl
  · obtain rfl : n = tok.length + 1 := by omega
    rw [List.take_length_add_append, List.take_succ_cons, List.take_zero,
      strtok_append_cons _ hne hd]
    rfl

/-- A leading delimiter is skipped. -/
theorem strtok_cons_delim (d : UInt8) (s : List UInt8) : strtok d (d :: s) = strtok d s := by
  rw [strtok, List.dropWhile_cons_of_pos (by simp)]
  rfl

/-- The token of a text that does not start with a delimiter ends before the next one. -/
theorem strtok_cons {d b : UInt8} (hb : b ≠ d) (bs : List UInt8) :
    (strtok d (b :: bs)).map Prod.fst = some ((b :: bs).takeWhile (· != d)) := by
  rw [strtok, List.dropWhile_cons_of_neg (by simpa using hb),
    List.takeWhile_cons_of_pos (by simpa using hb)]
  rfl

end Conversions

end OperatingSystems.Library
