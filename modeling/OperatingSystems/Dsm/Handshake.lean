import OperatingSystems.Dsm.Node
import OperatingSystems.Library.Numerals

/-!
# Agreeing on the shared region

The first process multiplies the number of pages that its user typed by the page
size, maps that many bytes and sends the text `length-address`. The peer takes both
out of the text and divides the length by its page size.

Lengths, addresses and page counts are unsigned 64-bit values. `mmap` is a parameter;
it returns `MAP_FAILED` for the length 0. `strtoul` and `sscanf` get NULL when a token
is missing: `none`. If `sscanf` stores nothing, the peer goes on with the address of
the token in its own stack, and `Mapping.addr` is `none`.
-/
namespace OperatingSystems.Dsm
open Library

def buffSize : ℕ := 4096

/-- What the peer asks for in its first `read`. -/
def handshakeSize : ℕ := 1024

def mapFailed : UInt64 := -1

/-- `%p`: the text `(nil)` for NULL. -/
def pointerText (addr : UInt64) : List UInt8 :=
  if addr = 0 then [40, 110, 105, 108, 41] else 48 :: 120 :: numeral 16 addr.toNat

theorem pointerText_of_ne_zero {addr : UInt64} (h : addr ≠ 0) :
    pointerText addr = 48 :: 120 :: numeral 16 addr.toNat := if_neg h

/-- A byte without a digit value is not printed by `%p`, except for those of its prefix. -/
theorem notMem_pointerText {addr : UInt64} {c : UInt8} (hc : digitValue c = none)
    (h40 : c ≠ 40) (h41 : c ≠ 41) : c ∉ pointerText addr := by
  have hletter : ∀ x : UInt8, digitValue x ≠ none → c ≠ x := fun x hx hcx => hx (hcx ▸ hc)
  unfold pointerText
  split_ifs
  · simp only [List.mem_cons, List.not_mem_nil, or_false, not_or]
    exact ⟨h40, hletter 110 (by decide), hletter 105 (by decide), hletter 108 (by decide), h41⟩
  · simp only [List.mem_cons, not_or]
    exact ⟨hletter 48 (by decide), hletter 120 (by decide),
      notMem_numeral (by decide) (by decide) hc⟩

/-- The text `%lu-%p`. -/
def handshakeText (len addr : UInt64) : CString :=
  ⟨numeral 10 len.toNat ++ 45 :: pointerText addr, by
    have hzero : digitValue 0 = none := by decide
    simp [notMem_numeral (b := 10) (by decide) (by decide) hzero, notMem_pointerText hzero]⟩

structure Mapping where
  len : UInt64
  addr : Option UInt64
  numPages : UInt64
deriving DecidableEq, Repr

/-- The first process, and the text it sends. -/
def askPages (mmap : UInt64 → UInt64) (pageSize : ℕ) (numPages : UInt64) :
    Option (Mapping × CString) :=
  let len := numPages * UInt64.ofNat pageSize
  let addr := mmap len
  if addr = mapFailed then none
  else some (⟨len, some addr, numPages⟩, (handshakeText len addr).take (buffSize - 1))

/-- The length and the address that the peer takes from the bytes it has read. -/
def decodeHandshake (buffer : List UInt8) : Option (UInt64 × Option UInt64) := do
  let (token, rest) ← strtok 45 buffer
  let len := strtoul token
  let (token, _) ← strtok 45 rest
  some (len, scanPointer token)

def readHandshake (pageSize : ℕ) (buffer : List UInt8) : Option Mapping := do
  let (len, addr) ← decodeHandshake buffer
  some ⟨len, addr, len / UInt64.ofNat pageSize⟩

section Text
variable {len addr : UInt64}

theorem handshakeText_bytes (haddr : addr ≠ 0) :
    (handshakeText len addr).bytes =
      numeral 10 len.toNat ++ 45 :: 48 :: 120 :: numeral 16 addr.toNat := by
  simp only [handshakeText, pointerText_of_ne_zero haddr]

/-- Twenty decimal digits, a minus sign, a prefix and sixteen hexadecimal digits. -/
theorem strlen_handshakeText (haddr : addr ≠ 0) : (handshakeText len addr).strlen ≤ 39 := by
  have hlen : (numeral 10 len.toNat).length ≤ 20 :=
    length_numeral_le (by decide) (by decide) (len.toNat_lt.trans (by decide))
  have haddr16 : (numeral 16 addr.toNat).length ≤ 16 :=
    length_numeral_le (by decide) (by decide) (addr.toNat_lt.trans_le (by decide))
  rw [CString.strlen, handshakeText_bytes haddr]
  simp only [List.length_append, List.length_cons]
  omega

theorem minus_notMem_length (len : UInt64) : 45 ∉ numeral 10 len.toNat :=
  notMem_numeral (by decide) (by decide) (by decide)

/-- The first token of a text that starts with a length is that length. -/
theorem decodeHandshake_length (hlen : len ≠ 0) (rest : List UInt8) :
    decodeHandshake (numeral 10 len.toNat ++ 45 :: rest) =
      (strtok 45 rest).map fun token => (len, scanPointer token.1) := by
  have hpos : 0 < len.toNat := UInt64.pos_iff_ne_zero.mpr hlen
  have hvalue : strtoul (numeral 10 len.toNat) = len :=
    UInt64.toNat_inj.mp (strtoul_numeral hpos len.toNat_lt)
  simp only [decodeHandshake, strtok_append_cons _ (numeral_ne_nil 10 _) (minus_notMem_length len),
    Option.bind_eq_bind, Option.bind_some, hvalue]
  cases strtok 45 rest with
  | none => rfl
  | some token => rfl

theorem decodeHandshake_eq_none {buffer : List UInt8}
    (h : ((strtok 45 buffer).bind fun token => strtok 45 token.2) = none) :
    decodeHandshake buffer = none := by
  unfold decodeHandshake
  cases hs : strtok 45 buffer with
  | none => rfl
  | some token =>
      rw [hs, Option.bind_some] at h
      simp only [Option.bind_eq_bind, Option.bind_some, h, Option.bind_none]

theorem minus_notMem_pointer (addr : UInt64) : 45 ∉ 48 :: 120 :: numeral 16 addr.toNat := by
  have hdigits : 45 ∉ numeral 16 addr.toNat :=
    notMem_numeral (by decide) (by decide) (by decide)
  simpa using hdigits

theorem decodeHandshake_text (hlen : len ≠ 0) (haddr : addr ≠ 0) :
    decodeHandshake (handshakeText len addr).bytes = some (len, some addr) := by
  rw [handshakeText_bytes haddr, decodeHandshake_length hlen,
    strtok_last (List.cons_ne_nil _ _) (minus_notMem_pointer addr), Option.map_some,
    scanPointer_numeral]

end Text

/-- Both processes end up with the region that the user asked for. -/
def RegionAgreed (mmap : UInt64 → UInt64) (pageSize : ℕ) (numPages : UInt64) : Prop :=
  ∃ mapping text, askPages mmap pageSize numPages = some (mapping, text) ∧
    readHandshake pageSize (text.bytes.take handshakeSize) = some mapping ∧
    mapping.len.toNat = numPages.toNat * pageSize

section Agreement
variable {mmap : UInt64 → UInt64} {pageSize : ℕ} {numPages : UInt64}

/-- A handshake fits both buffers, and the peer reads back what was printed. -/
theorem readHandshake_askPages (hmmap : mmap 0 = mapFailed)
    (hok : mmap (numPages * UInt64.ofNat pageSize) ≠ mapFailed)
    (haddr : mmap (numPages * UInt64.ofNat pageSize) ≠ 0) :
    ∃ text, askPages mmap pageSize numPages = some
        (⟨numPages * UInt64.ofNat pageSize, some (mmap (numPages * UInt64.ofNat pageSize)),
          numPages⟩, text) ∧
      readHandshake pageSize (text.bytes.take handshakeSize) = some
        ⟨numPages * UInt64.ofNat pageSize, some (mmap (numPages * UInt64.ofNat pageSize)),
          numPages * UInt64.ofNat pageSize / UInt64.ofNat pageSize⟩ := by
  generalize hlen : numPages * UInt64.ofNat pageSize = len at *
  have hne : len ≠ 0 := fun h => hok (by rw [h, hmmap])
  have hfits : (handshakeText len (mmap len)).strlen ≤ 39 := strlen_handshakeText haddr
  have htext : (handshakeText len (mmap len)).take (buffSize - 1) = handshakeText len (mmap len) :=
    CString.take_of_strlen_le (by rw [buffSize]; omega)
  have hread : (handshakeText len (mmap len)).bytes.take handshakeSize =
      (handshakeText len (mmap len)).bytes :=
    List.take_of_length_le (by rw [CString.strlen] at hfits; rw [handshakeSize]; omega)
  refine ⟨handshakeText len (mmap len), ?_, ?_⟩
  · rw [askPages, hlen, if_neg hok, htext]
  · rw [readHandshake, hread, decodeHandshake_text hne haddr]
    rfl

theorem toNat_length (hsize : pageSize < 2 ^ 31) :
    (numPages * UInt64.ofNat pageSize).toNat = numPages.toNat * pageSize % 2 ^ 64 := by
  rw [UInt64.toNat_mul, UInt64.toNat_ofNat', Nat.mod_eq_of_lt (a := pageSize) (by omega)]

/-- The two processes agree on the region exactly if the length does not wrap. -/
theorem region_agreed_iff (hpos : 0 < pageSize) (hsize : pageSize < 2 ^ 31)
    (hmmap : mmap 0 = mapFailed)
    (hok : mmap (numPages * UInt64.ofNat pageSize) ≠ mapFailed)
    (haddr : mmap (numPages * UInt64.ofNat pageSize) ≠ 0) :
    RegionAgreed mmap pageSize numPages ↔ numPages.toNat * pageSize < 2 ^ 64 := by
  have hlen : (numPages * UInt64.ofNat pageSize).toNat = numPages.toNat * pageSize % 2 ^ 64 :=
    toNat_length hsize
  obtain ⟨text, hask, hread⟩ := readHandshake_askPages hmmap hok haddr
  constructor
  · rintro ⟨mapping, text', hask', -, hexact⟩
    obtain ⟨rfl, -⟩ := Prod.mk.inj (Option.some.inj (hask'.symm.trans hask))
    rw [hlen] at hexact
    exact hexact ▸ Nat.mod_lt _ (by decide)
  · intro hfits
    have hexact := hlen.trans (Nat.mod_eq_of_lt hfits)
    have hpages : numPages * UInt64.ofNat pageSize / UInt64.ofNat pageSize = numPages := by
      rw [← UInt64.toNat_inj, UInt64.toNat_div, hexact, UInt64.toNat_ofNat',
        Nat.mod_eq_of_lt (a := pageSize) (by omega), Nat.mul_div_cancel _ hpos]
    rw [hpages] at hread
    exact ⟨_, text, hask, hread, hexact⟩

end Agreement

/-- An `mmap` that puts every region at one place. -/
def fixedMmap (len : UInt64) : UInt64 := if len = 0 then mapFailed else 0x7f0000000000

theorem region_agreed_threePages :
    (0 < 4096 ∧ 4096 < 2 ^ 31 ∧ fixedMmap 0 = mapFailed ∧
      fixedMmap (3 * UInt64.ofNat 4096) ≠ mapFailed ∧ fixedMmap (3 * UInt64.ofNat 4096) ≠ 0) ∧
    (RegionAgreed fixedMmap 4096 3 ↔ (3 : UInt64).toNat * 4096 < 2 ^ 64) :=
  ⟨by decide, region_agreed_iff (by decide) (by decide) (by decide) (by decide) (by decide)⟩

/-- With 2 ^ 52 + 1 pages of 4096 bytes the length wraps to one page, which is mapped. -/
theorem wrappedLength_disagrees :
    ¬∀ (mmap : UInt64 → UInt64) (pageSize : ℕ) (numPages : UInt64), 0 < pageSize →
      pageSize < 2 ^ 31 → mmap 0 = mapFailed →
      mmap (numPages * UInt64.ofNat pageSize) ≠ mapFailed →
      mmap (numPages * UInt64.ofNat pageSize) ≠ 0 → RegionAgreed mmap pageSize numPages := by
  intro h
  obtain ⟨mapping, text, hask, -, hexact⟩ := h fixedMmap 4096 (UInt64.ofNat (2 ^ 52 + 1))
    (by decide) (by decide) (by decide) (by decide) (by decide)
  have hlen := congrArg (fun m => m.map fun m => m.1.len.toNat) hask
  have hwrap : (askPages fixedMmap 4096 (UInt64.ofNat (2 ^ 52 + 1))).map
      (fun m => m.1.len.toNat) = some 4096 := by decide
  rw [hwrap] at hlen
  have hone : mapping.len.toNat = 4096 := (Option.some.inj hlen).symm
  rw [hone] at hexact
  exact absurd hexact (by decide)

end OperatingSystems.Dsm
