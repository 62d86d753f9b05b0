import OperatingSystems.Library.GuardedRun
import OperatingSystems.Syscall.Bounds

/-!
# Which calls free their buffer

Only the last path of `s2_encrypt` reaches `kfree`. The returns for a string that cannot
be copied, an empty string and a refused key come after the allocation, and so the
number of buffers grows by one with each such call.

A buffer of length 0 is none: the allocator hands out no memory for it.
-/
namespace OperatingSystems.Syscall
open Library

/-- The number of buffers that are allocated and not freed. -/
def KernelOp.live (n : ℕ) : KernelOp → ℕ
  | .kmalloc size => if size = 0 then n else n + 1
  | .kfree size => if size = 0 then n else n - 1
  | .access _ => n
  | .printk _ => n

def liveAfter (n : ℕ) (ops : List KernelOp) : ℕ := ops.foldl KernelOp.live n

/-- A call whose loop ends, with fuel for it. -/
structure Returned extends Call where
  fuel : ℕ
  returns : (s2Encrypt fuel toCall).code.isSome = true

/-- One call after the other. -/
def liveRun (n : ℕ) (calls : List Returned) : ℕ :=
  calls.foldl (fun n call => liveAfter n (s2Encrypt call.fuel call.toCall).ops) n

/-- The call allocates nothing or reaches the end. -/
def Releases (c : Call) : Prop :=
  let length := strnlenUser c.measured MAX
  MAX < length ∨ length = 0 ∨
    ((∀ k < length, c.atCopy k ≠ none) ∧ c.atCopy 0 ≠ some 0 ∧ 1 ≤ c.key ∧ c.key ≤ 5)

section Paths
variable {n length : ℕ}

theorem liveAfter_append (n : ℕ) (ops ops' : List KernelOp) :
    liveAfter n (ops ++ ops') = liveAfter (liveAfter n ops) ops' :=
  List.foldl_append

theorem liveAfter_map_access (n : ℕ) (indices : List ℤ) :
    liveAfter n (indices.map .access) = n := by
  induction indices with
  | nil => rfl
  | cons i indices ih => exact ih

theorem liveAfter_accesses (n m : ℕ) : liveAfter n (accesses m) = n := by
  rw [accesses_eq, liveAfter_map_access]

theorem liveAfter_access (n : ℕ) (i : ℤ) : liveAfter n [.access i] = n := rfl

theorem liveAfter_copyOps_zero (n : ℕ) : liveAfter n (copyOps 0) = n := rfl

theorem liveAfter_copyOps (hlength : length ≠ 0) : liveAfter n (copyOps length) = n + 1 := by
  have hmalloc : liveAfter n (copyOps length) = liveAfter (KernelOp.live n (.kmalloc length))
      (accesses length) := rfl
  rw [hmalloc, liveAfter_accesses, KernelOp.live, if_neg hlength]

/-- The buffer of a call that has come to its end is freed. -/
theorem liveAfter_released (n length : ℕ) (indices : List ℤ) (text : CString) :
    liveAfter n (copyOps length ++ [.access 0] ++ indices.map .access ++
      accesses (text.strlen + 1) ++ [.printk text, .kfree length]) = n := by
  have hfree : ∀ m, liveAfter m [.printk text, .kfree length] = KernelOp.live m (.kfree length) :=
    fun m => rfl
  rw [liveAfter_append, liveAfter_append, liveAfter_append, liveAfter_append, hfree,
    liveAfter_accesses, liveAfter_map_access, liveAfter_access]
  by_cases hlength : length = 0
  · rw [hlength, liveAfter_copyOps_zero]
    rfl
  · rw [liveAfter_copyOps hlength, KernelOp.live, if_neg hlength, Nat.add_sub_cancel]

end Paths

section Calls
variable {n fuel : ℕ} {c : Call}

theorem liveAfter_encryptBuffer {input : ℤ → UInt8} {length : ℕ} {key : ℤ}
    (h : (encryptBuffer fuel key length input (copyOps length)).code.isSome = true) :
    liveAfter n (encryptBuffer fuel key length input (copyOps length)).ops =
      if input 0 = 0 ∨ key < 1 ∨ key > 5 then liveAfter n (copyOps length) else n := by
  split_ifs with hchecks
  · rw [encryptBuffer_rejected hchecks, liveAfter_append, liveAfter_access]
  · cases hloop : (encryptLoop key fuel input 0).1 with
    | none =>
        rw [encryptBuffer_running hchecks hloop] at h
        cases h
    | some input' =>
        rw [encryptBuffer_ended hchecks hloop]
        exact liveAfter_released n length _ _

/-- The three conditions of the last path, for a string that was measured and copied. -/
theorem releases_of_copied {bytes : List UInt8} (hshort : strnlenUser c.measured MAX ≤ MAX)
    (hpos : strnlenUser c.measured MAX ≠ 0)
    (hcopy : copyFromUser c.atCopy (strnlenUser c.measured MAX) = some bytes) :
    Releases c ↔ ¬ (copied c.heap bytes 0 = 0 ∨ c.key < 1 ∨ c.key > 5) := by
  have hread : ∀ k < strnlenUser c.measured MAX, c.atCopy k ≠ none := by
    intro k hk
    rw [copied_eq hcopy c.heap hk]
    exact Option.some_ne_none _
  have hfirst : c.atCopy 0 = some (copied c.heap bytes 0) :=
    copied_eq hcopy c.heap (Nat.pos_of_ne_zero hpos)
  unfold Releases
  simp only [Nat.not_lt.mpr hshort, hpos, false_or]
  rw [hfirst, not_or, not_or, not_lt, not_lt, ne_eq, Option.some_inj]
  exact and_iff_right hread

/-- A call that returns leaves as many buffers as there were exactly if it releases its own. -/
theorem liveAfter_s2Encrypt_iff (h : (s2Encrypt fuel c).code.isSome = true) :
    liveAfter n (s2Encrypt fuel c).ops = n ↔ Releases c := by
  by_cases hlong : MAX < strnlenUser c.measured MAX
  · rw [s2Encrypt_tooLong hlong]
    exact iff_of_true rfl (.inl hlong)
  have hshort := Nat.not_lt.mp hlong
  cases hcopy : copyFromUser c.atCopy (strnlenUser c.measured MAX) with
  | none =>
      obtain ⟨k, hk, hnone⟩ := copyFromUser_eq_none_iff.mp hcopy
      have hpos : strnlenUser c.measured MAX ≠ 0 := Nat.ne_zero_of_lt hk
      rw [s2Encrypt_fault hshort hcopy, liveAfter_copyOps hpos]
      apply iff_of_false (Nat.succ_ne_self n)
      rintro (hgt | hzero | hlast)
      · exact hlong hgt
      · exact hpos hzero
      · exact hlast.1 k hk hnone
  | some bytes =>
      rw [s2Encrypt_copied hshort hcopy] at h ⊢
      rw [liveAfter_encryptBuffer h]
      by_cases hpos : strnlenUser c.measured MAX = 0
      · rw [hpos, liveAfter_copyOps_zero, ite_self]
        exact iff_of_true rfl (.inr (.inl hpos))
      · rw [releases_of_copied hshort hpos hcopy, liveAfter_copyOps hpos]
        split_ifs with hchecks
        · exact iff_of_false (Nat.succ_ne_self n) (not_not_intro hchecks)
        · exact iff_of_true rfl hchecks

end Calls

/-- After each call there are as many buffers as before the first. -/
def KeepsLive (n : ℕ) (calls : List Returned) : Prop :=
  ∀ before, before <+: calls → liveRun n before = n

theorem keeps_live_iff (n : ℕ) (calls : List Returned) :
    KeepsLive n calls ↔ ∀ call ∈ calls, Releases call.toCall := by
  unfold KeepsLive liveRun
  rw [foldl_isPrefix_iff]
  constructor
  · intro h call hcall
    exact (liveAfter_s2Encrypt_iff call.returns).mp (h call hcall)
  · intro h call hcall
    exact (liveAfter_s2Encrypt_iff call.returns).mpr (h call hcall)

/-- The string `A` with a key that is refused. -/
def refusedKey : Returned where
  key := 6
  measured k := if k = 0 then some 65 else some 0
  atCopy k := if k = 0 then some 65 else some 0
  heap _ := 0
  fuel := 0
  returns := by decide +kernel

theorem refusedKey_leaks :
    (s2Encrypt refusedKey.fuel refusedKey.toCall).code = some (-EINVAL) ∧
      liveRun 0 [refusedKey] = 1 ∧ ¬ KeepsLive 0 [refusedKey] := by
  have hlive : liveRun 0 [refusedKey] = 1 := by decide +kernel
  refine ⟨by decide +kernel, hlive, ?_⟩
  intro h
  have hzero := h [refusedKey] List.prefix_rfl
  rw [hlive] at hzero
  cases hzero

end OperatingSystems.Syscall
