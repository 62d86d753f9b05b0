import OperatingSystems.Library.CString

/-!
# The encryption system call

`s2_encrypt` measures the string of the caller, allocates a buffer of that length and
copies the string into it. It then adds the key to every byte in place, up to the NUL
that it finds in the buffer, prints the buffer and frees it.

The caller's memory may change between the measuring and the copying: a call has one
content for each. `heap` is the kernel memory from the address of the buffer on, before
the copy; what is behind the buffer belongs to others. A call leaves the list of what
it did with its buffer. The loop may run past the buffer, so that it has fuel, and a
call has no result while its loop goes on.

`strnlen_user` returns 0 for a string that cannot be read and a length above the bound
if there is no NUL within it. `kmalloc` succeeds, and for a length of 0 it allocates
nothing, which `kfree` knows.
-/
namespace OperatingSystems.Syscall
open Library

def MAX : ℕ := 256

/-- The bytes from a user address on; `none` where they cannot be read. -/
abbrev UserMemory := ℕ → Option UInt8

/-- `n` bytes are left to look at, from offset `i`. -/
def strnlenFrom (str : UserMemory) : ℕ → ℕ → ℕ
  | 0, i => i + 1
  | n + 1, i =>
      match str i with
      | none => 0
      | some b => if b = 0 then i + 1 else strnlenFrom str n (i + 1)

def strnlenUser (str : UserMemory) (count : ℕ) : ℕ := strnlenFrom str count 0

def copyFrom (str : UserMemory) : ℕ → ℕ → Option (List UInt8)
  | 0, _ => some []
  | n + 1, i => do
      let b ← str i
      let bs ← copyFrom str n (i + 1)
      some (b :: bs)

/-- The copied bytes; `none` stands for a result other than 0. -/
def copyFromUser (str : UserMemory) (length : ℕ) : Option (List UInt8) := copyFrom str length 0

/-- Kernel memory after the bytes were copied to the buffer. -/
def copied (heap : ℤ → UInt8) (bytes : List UInt8) : ℤ → UInt8 :=
  fun a => if 0 ≤ a ∧ a < bytes.length then bytes.getD a.toNat 0 else heap a

structure Call where
  key : ℤ
  measured : UserMemory
  atCopy : UserMemory
  heap : ℤ → UInt8

/-- What a call does with its buffer: `access` reads or writes the byte of an index. -/
inductive KernelOp where
  | kmalloc (size : ℕ)
  | access (index : ℤ)
  | printk (text : CString)
  | kfree (size : ℕ)
deriving DecidableEq

structure Outcome where
  code : Option ℤ
  ops : List KernelOp

def EFAULT : ℤ := 14
def EINVAL : ℤ := 22

/-- `while (input[i] != '\0')`, with the indices it looks at. The sum is cut to a `char`. -/
def encryptLoop (key : ℤ) : ℕ → (ℤ → UInt8) → ℤ → Option (ℤ → UInt8) × List ℤ
  | 0, _, _ => (none, [])
  | fuel + 1, input, i =>
      if input i = 0 then (some input, [i])
      else
        let (input, indices) :=
          encryptLoop key fuel (Function.update input i (input i + UInt8.ofInt key)) (i + 1)
        (input, i :: indices)

/-- The accesses of a loop over the first `n` bytes. -/
def accesses (n : ℕ) : List KernelOp := (List.range n).map fun i : ℕ => .access i

theorem accesses_eq (n : ℕ) :
    accesses n = ((List.range n).map fun i : ℕ => (i : ℤ)).map KernelOp.access :=
  List.map_map.symm

/-- The allocation and the copy. -/
def copyOps (length : ℕ) : List KernelOp := .kmalloc length :: accesses length

/-- From the check of the first byte and the key on; `ops` were done before. -/
def encryptBuffer (fuel : ℕ) (key : ℤ) (length : ℕ) (input : ℤ → UInt8) (ops : List KernelOp) :
    Outcome :=
  -- A buffer of 0 bytes has no address that can be read, so that the kernel faults here. The
  -- access is recorded, which tells such a call, and what follows is that of a readable byte.
  let ops := ops ++ [.access 0]
  if input 0 = 0 ∨ key < 1 ∨ key > 5 then ⟨some (-EINVAL), ops⟩
  else
    let loop := encryptLoop key fuel input 0
    let ops := ops ++ loop.2.map .access
    match loop.1 with
    | none => ⟨none, ops⟩
    | some input =>
        let text := readString input 0 fuel
        ⟨some 0, ops ++ accesses (text.strlen + 1) ++ [.printk text, .kfree length]⟩

def s2Encrypt (fuel : ℕ) (c : Call) : Outcome :=
  let length := strnlenUser c.measured MAX
  if length > MAX then ⟨some (-EINVAL), []⟩
  else
    match copyFromUser c.atCopy length with
    | none => ⟨some (-EFAULT), copyOps length⟩
    | some bytes => encryptBuffer fuel c.key length (copied c.heap bytes) (copyOps length)

section Paths
variable {fuel : ℕ} {c : Call} {key : ℤ} {length : ℕ} {input : ℤ → UInt8} {ops : List KernelOp}

theorem s2Encrypt_tooLong (h : MAX < strnlenUser c.measured MAX) :
    s2Encrypt fuel c = ⟨some (-EINVAL), []⟩ :=
  if_pos h

theorem s2Encrypt_fault (h : strnlenUser c.measured MAX ≤ MAX)
    (hcopy : copyFromUser c.atCopy (strnlenUser c.measured MAX) = none) :
    s2Encrypt fuel c = ⟨some (-EFAULT), copyOps (strnlenUser c.measured MAX)⟩ := by
  unfold s2Encrypt
  rw [if_neg (Nat.not_lt.mpr h), hcopy]

theorem s2Encrypt_copied (h : strnlenUser c.measured MAX ≤ MAX) {bytes : List UInt8}
    (hcopy : copyFromUser c.atCopy (strnlenUser c.measured MAX) = some bytes) :
    s2Encrypt fuel c = encryptBuffer fuel c.key (strnlenUser c.measured MAX)
      (copied c.heap bytes) (copyOps (strnlenUser c.measured MAX)) := by
  unfold s2Encrypt
  rw [if_neg (Nat.not_lt.mpr h), hcopy]

theorem encryptBuffer_rejected (h : input 0 = 0 ∨ key < 1 ∨ key > 5) :
    encryptBuffer fuel key length input ops = ⟨some (-EINVAL), ops ++ [.access 0]⟩ :=
  if_pos h

theorem encryptBuffer_running (h : ¬ (input 0 = 0 ∨ key < 1 ∨ key > 5))
    (hloop : (encryptLoop key fuel input 0).1 = none) :
    encryptBuffer fuel key length input ops =
      ⟨none, ops ++ [.access 0] ++ (encryptLoop key fuel input 0).2.map .access⟩ := by
  unfold encryptBuffer
  rw [if_neg h]
  dsimp only
  rw [hloop]

theorem encryptBuffer_ended (h : ¬ (input 0 = 0 ∨ key < 1 ∨ key > 5)) {input' : ℤ → UInt8}
    (hloop : (encryptLoop key fuel input 0).1 = some input') :
    encryptBuffer fuel key length input ops =
      ⟨some 0, ops ++ [.access 0] ++ (encryptLoop key fuel input 0).2.map .access ++
        accesses ((readString input' 0 fuel).strlen + 1) ++
        [.printk (readString input' 0 fuel), .kfree length]⟩ := by
  unfold encryptBuffer
  rw [if_neg h]
  dsimp only
  rw [hloop]

/-- What was done before stays, the first byte is looked at, and no other buffer is allocated. -/
theorem exists_encryptBuffer_ops (fuel : ℕ) (key : ℤ) (length : ℕ) (input : ℤ → UInt8)
    (ops : List KernelOp) : ∃ rest, (encryptBuffer fuel key length input ops).ops =
      ops ++ .access 0 :: rest ∧ ∀ size, .kmalloc size ∉ rest := by
  have hindices : ∀ (is : List ℤ) size, .kmalloc size ∉ is.map KernelOp.access := by
    intro is size hmem
    obtain ⟨i, -, he⟩ := List.mem_map.mp hmem
    cases he
  by_cases hchecks : input 0 = 0 ∨ key < 1 ∨ key > 5
  · exact ⟨[], by rw [encryptBuffer_rejected hchecks], fun size => List.not_mem_nil⟩
  · cases hloop : (encryptLoop key fuel input 0).1 with
    | none =>
        refine ⟨(encryptLoop key fuel input 0).2.map .access, ?_, hindices _⟩
        rw [encryptBuffer_running hchecks hloop, List.append_assoc]
        rfl
    | some input' =>
        refine ⟨(encryptLoop key fuel input 0).2.map .access ++
          accesses ((readString input' 0 fuel).strlen + 1) ++
          [.printk (readString input' 0 fuel), .kfree length], ?_, ?_⟩
        · rw [encryptBuffer_ended hchecks hloop]
          simp only [List.append_assoc, List.cons_append, List.nil_append]
        · intro size hmem
          rw [List.mem_append, List.mem_append, accesses_eq] at hmem
          rcases hmem with (hmem | hmem) | hmem
          · exact hindices _ size hmem
          · exact hindices _ size hmem
          · simp at hmem

end Paths

theorem length_copyFrom {str : UserMemory} {n i : ℕ} {bytes : List UInt8}
    (h : copyFrom str n i = some bytes) : bytes.length = n := by
  induction n generalizing i bytes with
  | zero =>
      obtain rfl := Option.some.inj h
      rfl
  | succ n ih =>
      obtain ⟨b, -, hrest⟩ := Option.bind_eq_some_iff.mp h
      obtain ⟨bs, hbs, he⟩ := Option.bind_eq_some_iff.mp hrest
      obtain rfl := Option.some.inj he
      rw [List.length_cons, ih hbs]

theorem exists_copyFrom {str : UserMemory} {n i : ℕ} (h : ∀ k < n, ∃ b, str (i + k) = some b) :
    ∃ bytes, copyFrom str n i = some bytes := by
  induction n generalizing i with
  | zero => exact ⟨[], rfl⟩
  | succ n ih =>
      obtain ⟨b, hb⟩ := h 0 (Nat.succ_pos n)
      rw [Nat.add_zero] at hb
      obtain ⟨bs, hbs⟩ := ih fun k hk => by
        rw [show i + 1 + k = i + (k + 1) by omega]
        exact h (k + 1) (Nat.succ_lt_succ hk)
      exact ⟨b :: bs, by rw [copyFrom, hb, Option.bind_eq_bind, Option.bind_some, hbs]; rfl⟩

theorem copyFrom_getD {str : UserMemory} {n i : ℕ} {bytes : List UInt8}
    (h : copyFrom str n i = some bytes) {k : ℕ} (hk : k < n) :
    str (i + k) = some (bytes.getD k 0) := by
  induction n generalizing i bytes k with
  | zero => exact absurd hk (Nat.not_lt_zero k)
  | succ n ih =>
      obtain ⟨b, hb, hrest⟩ := Option.bind_eq_some_iff.mp h
      obtain ⟨bs, hbs, he⟩ := Option.bind_eq_some_iff.mp hrest
      obtain rfl := Option.some.inj he
      cases k with
      | zero => exact hb
      | succ k =>
          rw [List.getD_cons_succ, ← ih hbs (Nat.lt_of_succ_lt_succ hk)]
          congr 1
          omega

theorem copied_apply {heap : ℤ → UInt8} {bytes : List UInt8} {k : ℕ} (hk : k < bytes.length) :
    copied heap bytes k = bytes.getD k 0 := by
  rw [copied, if_pos (by omega), Int.toNat_natCast]

section Loop
variable {key : ℤ} {fuel n : ℕ} {input : ℤ → UInt8} {i a : ℤ}

/-- The buffer whose `n` bytes from `i` on are encrypted. -/
def encrypted (key : ℤ) (input : ℤ → UInt8) (i : ℤ) (n : ℕ) : ℤ → UInt8 :=
  fun a => if i ≤ a ∧ a < i + n then input a + UInt8.ofInt key else input a

theorem encrypted_zero (key : ℤ) (input : ℤ → UInt8) (i : ℤ) : encrypted key input i 0 = input := by
  funext a
  rw [encrypted, if_neg (by omega)]

theorem encrypted_succ (key : ℤ) (input : ℤ → UInt8) (i : ℤ) (n : ℕ) :
    encrypted key (Function.update input i (input i + UInt8.ofInt key)) (i + 1) n =
      encrypted key input i (n + 1) := by
  funext a
  unfold encrypted
  by_cases ha : a = i
  · subst ha
    rw [if_neg (by omega), if_pos (by omega), Function.update_self]
  · rw [Function.update_of_ne ha]
    by_cases hin : i + 1 ≤ a ∧ a < i + 1 + n
    · rw [if_pos hin, if_pos (by omega)]
    · rw [if_neg hin, if_neg (by omega)]

theorem update_ahead {x : UInt8} (k : ℕ) :
    Function.update input i x (i + 1 + k) = input (i + 1 + k) :=
  Function.update_of_ne (by omega) _ _

/-- The loop ends at the first NUL, if it has the fuel. -/
theorem encryptLoop_of_nul (hn : ∀ k < n, input (i + k) ≠ 0) (hnul : input (i + n) = 0)
    (hfuel : n < fuel) : (encryptLoop key fuel input i).1 = some (encrypted key input i n) := by
  induction n generalizing fuel input i with
  | zero =>
      obtain ⟨fuel, rfl⟩ := Nat.exists_eq_succ_of_ne_zero (Nat.ne_zero_of_lt hfuel)
      have hzero : input i = 0 := by simpa using hnul
      rw [encryptLoop, if_pos hzero, encrypted_zero]
  | succ n ih =>
      obtain ⟨fuel, rfl⟩ := Nat.exists_eq_succ_of_ne_zero (Nat.ne_zero_of_lt hfuel)
      have hfirst : input i ≠ 0 := by simpa using hn 0 (Nat.succ_pos n)
      have hshift : ∀ k : ℕ, i + 1 + k = i + (k + 1 : ℕ) := fun k => by omega
      rw [encryptLoop, if_neg hfirst, ← encrypted_succ]
      apply ih
      · intro k hk
        rw [update_ahead, hshift]
        exact hn (k + 1) (Nat.succ_lt_succ hk)
      · rw [update_ahead, hshift]
        exact hnul
      · exact Nat.lt_of_succ_lt_succ hfuel

/-- A loop that has ended has met a NUL. -/
theorem encryptLoop_some {input' : ℤ → UInt8}
    (h : (encryptLoop key fuel input i).1 = some input') :
    ∃ n : ℕ, n < fuel ∧ (∀ k < n, input (i + k) ≠ 0) ∧ input (i + n) = 0 ∧
      input' = encrypted key input i n := by
  induction fuel generalizing input i with
  | zero => cases h
  | succ fuel ih =>
      rw [encryptLoop] at h
      split_ifs at h with hzero
      · obtain rfl := Option.some.inj h
        exact ⟨0, Nat.succ_pos fuel, fun k hk => absurd hk (Nat.not_lt_zero k),
          by simpa using hzero, (encrypted_zero key input i).symm⟩
      · obtain ⟨n, hlt, hne, hnul, rfl⟩ := ih h
        have hshift : ∀ k : ℕ, i + 1 + k = i + (k + 1 : ℕ) := fun k => by omega
        refine ⟨n + 1, Nat.succ_lt_succ hlt, ?_, ?_, encrypted_succ key input i n⟩
        · intro k hk
          cases k with
          | zero => simpa using hzero
          | succ k =>
              have hrest := hne k (Nat.lt_of_succ_lt_succ hk)
              rwa [update_ahead, hshift] at hrest
        · rwa [update_ahead, hshift] at hnul

/-- The loop looks at a byte exactly if there is no NUL before it. -/
theorem mem_indices_iff :
    a ∈ (encryptLoop key fuel input i).2 ↔
      i ≤ a ∧ a < i + fuel ∧ ∀ b, i ≤ b → b < a → input b ≠ 0 := by
  induction fuel generalizing input i with
  | zero =>
      rw [encryptLoop]
      constructor
      · intro ha
        cases ha
      · intro ⟨hge, hlt, _⟩
        omega
  | succ fuel ih =>
      rw [encryptLoop]
      split_ifs with hzero
      · rw [List.mem_singleton]
        constructor
        · rintro rfl
          exact ⟨le_rfl, by omega, fun b hge hlt => by omega⟩
        · intro ⟨hge, _, hne⟩
          by_contra hlt
          exact hne i le_rfl (by omega) hzero
      · have hahead : ∀ b, i + 1 ≤ b →
            Function.update input i (input i + UInt8.ofInt key) b = input b := fun b hb =>
          Function.update_of_ne (by omega) _ _
        rw [List.mem_cons, ih]
        constructor
        · rintro (rfl | ⟨hge, hlt, hne⟩)
          · exact ⟨le_rfl, by omega, fun b hge hlt => by omega⟩
          · refine ⟨by omega, by omega, fun b hb hba => ?_⟩
            by_cases hbi : b = i
            · rwa [hbi]
            · rw [← hahead b (by omega)]
              exact hne b (by omega) hba
        · intro ⟨hge, hlt, hne⟩
          by_cases hai : a = i
          · exact .inl hai
          · refine .inr ⟨by omega, by push_cast at hlt; omega, fun b hb hba => ?_⟩
            rw [hahead b hb]
            exact hne b (by omega) hba

end Loop

end OperatingSystems.Syscall
