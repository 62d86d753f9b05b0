import OperatingSystems.Syscall.Encrypt
import Mathlib.Data.List.GetD

/-!
# What is printed for a stable string

A string that does not change during the call is copied with its NUL, and the loop
adds the key to all of its bytes, since it looks at a byte before it changes it. The
printed string ends at the first NUL of the result, and a byte that the key takes to 0
is one.
-/
namespace OperatingSystems.Syscall
open Library

/-- The user memory has the string and its NUL, and they can be read. -/
def Holds (str : UserMemory) (s : CString) : Prop := ∀ k ≤ s.strlen, str k = some (s.byteAt k)

def KernelOp.text : KernelOp → Option CString
  | .printk text => some text
  | _ => none

def Outcome.printed (o : Outcome) : List CString := o.ops.filterMap KernelOp.text

/-- The call returns 0, and its text is the string with the key added to every byte, from
which subtracting the key gives back the string. -/
def Encrypts (fuel : ℕ) (c : Call) (s : CString) : Prop :=
  (s2Encrypt fuel c).code = some 0 ∧ ∃ text, (s2Encrypt fuel c).printed = [text] ∧
    text.strlen = s.strlen ∧ ∀ i < s.strlen,
      text.byteAt i = s.byteAt i + UInt8.ofInt c.key ∧
        text.byteAt i - UInt8.ofInt c.key = s.byteAt i

theorem byteAt_ne_zero {s : CString} {k : ℕ} (hk : k < s.strlen) : s.byteAt k ≠ 0 := by
  intro hzero
  rw [CString.byteAt, List.getD_eq_getElem _ _ hk] at hzero
  exact s.nulFree (hzero ▸ List.getElem_mem hk)

section Stable
variable {str : UserMemory} {s : CString}

theorem strnlenFrom_of_nul {n i m : ℕ} (hne : ∀ k < m, ∃ b, str (i + k) = some b ∧ b ≠ 0)
    (hnul : str (i + m) = some 0) (hm : m < n) : strnlenFrom str n i = i + m + 1 := by
  induction m generalizing n i with
  | zero =>
      obtain ⟨n, rfl⟩ := Nat.exists_eq_succ_of_ne_zero (Nat.ne_zero_of_lt hm)
      have hzero : str i = some 0 := hnul
      rw [strnlenFrom, hzero]
      rfl
  | succ m ih =>
      obtain ⟨n, rfl⟩ := Nat.exists_eq_succ_of_ne_zero (Nat.ne_zero_of_lt hm)
      obtain ⟨b, hb, hb0⟩ := hne 0 (Nat.succ_pos m)
      rw [Nat.add_zero] at hb
      have hshift : ∀ k : ℕ, i + 1 + k = i + (k + 1) := fun k => by omega
      have hrest := ih
        (fun k hk => by rw [hshift]; exact hne (k + 1) (Nat.succ_lt_succ hk))
        (by rw [hshift]; exact hnul) (Nat.lt_of_succ_lt_succ hm)
      rw [strnlenFrom, hb]
      simp only [if_neg hb0, hrest]
      omega

theorem Holds.strnlenUser (h : Holds str s) {count : ℕ} (hc : s.strlen < count) :
    strnlenUser str count = s.strlen + 1 := by
  unfold Syscall.strnlenUser
  have hnul : str (0 + s.strlen) = some 0 := by
    rw [Nat.zero_add, h s.strlen le_rfl, CString.byteAt_strlen]
  rw [strnlenFrom_of_nul (fun k hk => ?_) hnul hc, Nat.zero_add]
  rw [Nat.zero_add]
  exact ⟨s.byteAt k, h k hk.le, byteAt_ne_zero hk⟩

theorem Holds.copyFromUser (h : Holds str s) :
    ∃ bytes, copyFromUser str (s.strlen + 1) = some bytes ∧ bytes.length = s.strlen + 1 ∧
      ∀ k ≤ s.strlen, bytes.getD k 0 = s.byteAt k := by
  have hread : ∀ k < s.strlen + 1, ∃ b, str (0 + k) = some b := by
    intro k hk
    rw [Nat.zero_add]
    exact ⟨s.byteAt k, h k (Nat.le_of_lt_succ hk)⟩
  obtain ⟨bytes, hb⟩ := exists_copyFrom hread
  refine ⟨bytes, hb, length_copyFrom hb, fun k hk => ?_⟩
  have hbyte := copyFrom_getD hb (Nat.lt_succ_of_le hk)
  rw [Nat.zero_add, h k hk] at hbyte
  exact (Option.some.inj hbyte).symm

end Stable

theorem text_indices (indices : List ℤ) :
    (indices.map KernelOp.access).filterMap KernelOp.text = [] := by
  rw [List.filterMap_eq_nil_iff]
  intro op hop
  obtain ⟨i, -, rfl⟩ := List.mem_map.mp hop
  rfl

theorem text_accesses (n : ℕ) : (accesses n).filterMap KernelOp.text = [] := by
  rw [accesses_eq, text_indices]

section Call
variable {c : Call} {s : CString} {fuel : ℕ}

/-- The text is read from the encrypted string. -/
theorem s2Encrypt_stable (hm : Holds c.measured s) (hc : Holds c.atCopy s) (hpos : 1 ≤ s.strlen)
    (hmax : s.strlen ≤ 255) (hkey : 1 ≤ c.key ∧ c.key ≤ 5) (hfuel : s.strlen < fuel) :
    ∃ input : ℤ → UInt8, (∀ k < s.strlen, input k = s.byteAt k + UInt8.ofInt c.key) ∧
      input s.strlen = 0 ∧ (s2Encrypt fuel c).code = some 0 ∧
      (s2Encrypt fuel c).printed = [readString input 0 fuel] := by
  obtain ⟨bytes, hbytes, hlength, hvalue⟩ := hc.copyFromUser
  have hmeasured : strnlenUser c.measured MAX = s.strlen + 1 :=
    hm.strnlenUser (by rw [MAX]; omega)
  have hinput : ∀ k ≤ s.strlen, copied c.heap bytes (k : ℤ) = s.byteAt k := by
    intro k hk
    rw [copied_apply (by omega), hvalue k hk]
  have hfirst : copied c.heap bytes 0 ≠ 0 := by
    have hzero := hinput 0 (Nat.zero_le _)
    rw [Nat.cast_zero] at hzero
    rw [hzero]
    exact byteAt_ne_zero hpos
  have hloop : (encryptLoop c.key fuel (copied c.heap bytes) 0).1 =
      some (encrypted c.key (copied c.heap bytes) 0 s.strlen) := by
    apply encryptLoop_of_nul
    · intro k hk
      rw [zero_add, hinput k hk.le]
      exact byteAt_ne_zero hk
    · rw [zero_add, hinput s.strlen le_rfl, CString.byteAt_strlen]
    · exact hfuel
  refine ⟨encrypted c.key (copied c.heap bytes) 0 s.strlen, ?_, ?_, ?_⟩
  · intro k hk
    rw [encrypted, if_pos (by omega), hinput k hk.le]
  · rw [encrypted, if_neg (by omega), hinput s.strlen le_rfl, CString.byteAt_strlen]
  · have hcall : s2Encrypt fuel c = _ := s2Encrypt_copied (by rw [hmeasured, MAX]; omega)
      (by rw [hmeasured]; exact hbytes)
    have hchecks : ¬ (copied c.heap bytes 0 = 0 ∨ c.key < 1 ∨ c.key > 5) := by
      simp only [hfirst, false_or]
      omega
    rw [encryptBuffer_ended hchecks hloop] at hcall
    rw [hcall]
    refine ⟨rfl, ?_⟩
    simp only [Outcome.printed, copyOps, List.cons_append, List.filterMap_cons,
      List.filterMap_append, KernelOp.text, text_accesses, text_indices, List.nil_append,
      List.filterMap_nil]

/-- If no byte goes to 0, all of them are in the text. -/
theorem bytes_readString_encrypted {key : ℤ} {input : ℤ → UInt8}
    (hinput : ∀ k < s.strlen, input k = s.byteAt k + UInt8.ofInt key)
    (hnul : input s.strlen = 0) (hne : ∀ b ∈ s.bytes, b + UInt8.ofInt key ≠ 0)
    (hfuel : s.strlen < fuel) :
    (readString input 0 fuel).bytes = s.bytes.map fun b => b + UInt8.ofInt key := by
  apply readBytes_of_agree
  · intro hmem
    obtain ⟨b, hb, hzero⟩ := List.mem_map.mp hmem
    exact hne b hb hzero
  · intro k hk
    rw [List.length_map] at hk
    rw [zero_add]
    rcases Nat.lt_or_eq_of_le hk with hlt | rfl
    · rw [hinput k hlt, CString.byteAt, List.getD_eq_getElem _ _ hlt,
        List.getD_eq_getElem _ _ (by rwa [List.length_map]), List.getElem_map]
    · rw [List.getD_eq_default _ _ (by rw [List.length_map])]
      exact hnul
  · rwa [List.length_map]

/-- A call on a stable string is undone by subtracting the key exactly if the key takes no
byte to 0. -/
theorem encrypts_iff (hm : Holds c.measured s) (hc : Holds c.atCopy s) (hpos : 1 ≤ s.strlen)
    (hmax : s.strlen ≤ 255) (hkey : 1 ≤ c.key ∧ c.key ≤ 5) (hfuel : s.strlen < fuel) :
    Encrypts fuel c s ↔ ∀ b ∈ s.bytes, b + UInt8.ofInt c.key ≠ 0 := by
  obtain ⟨input, hinput, hnul, hcode, hprinted⟩ := s2Encrypt_stable hm hc hpos hmax hkey hfuel
  constructor
  · rintro ⟨-, text, htext, hlength, -⟩ b hb hzero
    rw [hprinted, List.singleton_inj] at htext
    obtain ⟨k, hk, rfl⟩ := List.getElem_of_mem hb
    have hcut : input (0 + (k : ℕ)) = 0 := by
      rw [zero_add, hinput k hk, CString.byteAt, List.getD_eq_getElem _ _ hk]
      exact hzero
    have hshort : text.strlen ≤ k := by
      rw [← htext]
      exact length_readBytes_le hcut fuel
    rw [hlength] at hshort
    exact absurd hk (Nat.not_lt.mpr hshort)
  · intro hne
    have hbytes := bytes_readString_encrypted hinput hnul hne hfuel
    refine ⟨hcode, readString input 0 fuel, hprinted, ?_, ?_⟩
    · rw [CString.strlen, hbytes, List.length_map]
      rfl
    · intro i hi
      have hbyte : (readString input 0 fuel).byteAt i = s.byteAt i + UInt8.ofInt c.key := by
        rw [CString.byteAt, CString.byteAt, hbytes, List.getD_eq_getElem _ _ hi,
          List.getD_eq_getElem _ _ (by rwa [List.length_map]), List.getElem_map]
        rfl
      refine ⟨hbyte, ?_⟩
      rw [hbyte]
      exact UInt8.add_sub_cancel _ _

end Call

/-- A call whose string can be read up to its NUL and does not change. -/
def stableCall (s : CString) (key : ℤ) : Call :=
  let str : UserMemory := fun k => if k ≤ s.strlen then some (s.byteAt k) else none
  ⟨key, str, str, fun _ => 0⟩

theorem holds_stableCall (s : CString) (key : ℤ) :
    Holds (stableCall s key).measured s ∧ Holds (stableCall s key).atCopy s :=
  ⟨fun _ hk => if_pos hk, fun _ hk => if_pos hk⟩

/-- The text `AZ`. -/
def letters : CString := ⟨[65, 90], by decide⟩

theorem encrypts_iff_letters : Encrypts 3 (stableCall letters 5) letters ↔
    ∀ b ∈ letters.bytes, b + UInt8.ofInt 5 ≠ 0 :=
  encrypts_iff (holds_stableCall letters 5).1 (holds_stableCall letters 5).2 (by decide)
    (by decide) (by decide) (by decide)

/-- One byte that the key 1 takes to 0. -/
def lastByte : CString := ⟨[255], by decide⟩

theorem lastByte_lost :
    (Holds (stableCall lastByte 1).measured lastByte ∧
      Holds (stableCall lastByte 1).atCopy lastByte) ∧
      (s2Encrypt 2 (stableCall lastByte 1)).code = some 0 ∧
      ¬ Encrypts 2 (stableCall lastByte 1) lastByte := by
  have hprinted : (s2Encrypt 2 (stableCall lastByte 1)).printed = [CString.empty] := by
    decide +kernel
  refine ⟨holds_stableCall lastByte 1, by decide +kernel, ?_⟩
  rintro ⟨-, text, htext, hlength, -⟩
  rw [hprinted, List.singleton_inj] at htext
  rw [← htext] at hlength
  cases hlength

end OperatingSystems.Syscall
