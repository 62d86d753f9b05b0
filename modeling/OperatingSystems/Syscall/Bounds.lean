import OperatingSystems.Syscall.Encrypt

/-!
# Which bytes of the buffer are used

The length of the buffer was measured before the copy, and the loop ends at a NUL of the
copy. Two contents of the caller's memory can therefore lead behind the buffer: a copy
without a NUL, and a string that could not be read when it was measured, for which the
buffer is empty and the first byte is still looked at.
-/
namespace OperatingSystems.Syscall
open Library

/-- Every byte that the call uses has an index below the allocated length. -/
def InBounds (c : Call) : Prop :=
  ∀ fuel (size : ℕ), .kmalloc size ∈ (s2Encrypt fuel c).ops →
    ∀ i : ℤ, .access i ∈ (s2Encrypt fuel c).ops → 0 ≤ i ∧ i < size

/-- Nothing is copied, or something is and the loop is not reached or meets a NUL. -/
def Contained (c : Call) : Prop :=
  let length := strnlenUser c.measured MAX
  MAX < length ∨ (∃ k < length, c.atCopy k = none) ∨
    (0 < length ∧ (c.key < 1 ∨ c.key > 5 ∨ ∃ k < length, c.atCopy k = some 0))

section Copying
variable {str : UserMemory} {length k : ℕ} {bytes : List UInt8}

theorem copyFrom_eq_none_iff {n i : ℕ} :
    copyFrom str n i = none ↔ ∃ k < n, str (i + k) = none := by
  constructor
  · intro h
    by_contra hall
    have hread : ∀ k < n, ∃ b, str (i + k) = some b := by
      intro k hk
      apply Option.ne_none_iff_exists'.mp
      exact fun hnone => hall ⟨k, hk, hnone⟩
    obtain ⟨bytes, hb⟩ := exists_copyFrom hread
    rw [h] at hb
    cases hb
  · rintro ⟨k, hk, hnone⟩
    cases h : copyFrom str n i with
    | none => rfl
    | some bytes =>
        have hbyte := copyFrom_getD h hk
        rw [hnone] at hbyte
        cases hbyte

theorem copyFromUser_eq_none_iff :
    copyFromUser str length = none ↔ ∃ k < length, str k = none := by
  rw [copyFromUser, copyFrom_eq_none_iff]
  simp only [Nat.zero_add]

/-- The byte at an index of the buffer is the copied one. -/
theorem copied_eq (h : copyFromUser str length = some bytes) (heap : ℤ → UInt8)
    (hk : k < length) : str k = some (copied heap bytes k) := by
  have hlength := length_copyFrom h
  have hbyte := copyFrom_getD h hk
  rw [Nat.zero_add] at hbyte
  rw [copied_apply (by omega), hbyte]

end Copying

theorem mem_indices {indices : List ℤ} {i : ℤ} :
    .access i ∈ indices.map KernelOp.access ↔ i ∈ indices := by
  rw [List.mem_map]
  constructor
  · rintro ⟨k, hk, he⟩
    obtain rfl := KernelOp.access.inj he
    exact hk
  · intro hi
    exact ⟨i, hi, rfl⟩

theorem mem_accesses {n : ℕ} {i : ℤ} : .access i ∈ accesses n ↔ 0 ≤ i ∧ i < n := by
  rw [accesses_eq, mem_indices, List.mem_map]
  constructor
  · intro ⟨k, hk, he⟩
    have hlt := List.mem_range.mp hk
    omega
  · intro ⟨h₀, hlt⟩
    exact ⟨i.toNat, List.mem_range.mpr (by omega), Int.toNat_of_nonneg h₀⟩

theorem access_mem_copyOps {n : ℕ} {i : ℤ} : .access i ∈ copyOps n ↔ 0 ≤ i ∧ i < n := by
  rw [copyOps, List.mem_cons, mem_accesses]
  exact or_iff_right (by simp only [reduceCtorEq, not_false_eq_true])

section Buffer
variable {fuel length : ℕ} {key : ℤ} {input : ℤ → UInt8} {i : ℤ}

theorem mem_encryptBuffer_zero {ops : List KernelOp} :
    .access 0 ∈ (encryptBuffer fuel key length input ops).ops := by
  obtain ⟨rest, hops, -⟩ := exists_encryptBuffer_ops fuel key length input ops
  rw [hops]
  exact List.mem_append_right ops List.mem_cons_self

/-- Without a NUL in the buffer the loop looks at the byte behind it. -/
theorem mem_encryptBuffer_behind {ops : List KernelOp}
    (hchecks : ¬ (input 0 = 0 ∨ key < 1 ∨ key > 5)) (hne : ∀ k < length, input (k : ℕ) ≠ 0)
    (hfuel : length < fuel) :
    .access length ∈ (encryptBuffer fuel key length input ops).ops := by
  have hmem : (length : ℤ) ∈ (encryptLoop key fuel input 0).2 := by
    rw [mem_indices_iff]
    refine ⟨by omega, by omega, fun b h₀ hlt => ?_⟩
    obtain ⟨k, rfl⟩ := Int.eq_ofNat_of_zero_le h₀
    exact hne k (by omega)
  cases hloop : (encryptLoop key fuel input 0).1 with
  | none =>
      rw [encryptBuffer_running hchecks hloop]
      simp [hmem]
  | some input' =>
      rw [encryptBuffer_ended hchecks hloop]
      simp [hmem]

/-- A call that is refused has copied the string and looked at its first byte. -/
theorem encryptBuffer_inBounds_of_rejected (hpos : 0 < length)
    (hchecks : input 0 = 0 ∨ key < 1 ∨ key > 5)
    (hi : .access i ∈ (encryptBuffer fuel key length input (copyOps length)).ops) :
    0 ≤ i ∧ i < length := by
  rw [encryptBuffer_rejected hchecks, List.mem_append, access_mem_copyOps, List.mem_singleton,
    KernelOp.access.injEq] at hi
  omega

/-- With a NUL in the buffer the loop and the printing stay before or at it. -/
theorem encryptBuffer_inBounds {k : ℕ} (hk : k < length) (hnul : input k = 0)
    (hi : .access i ∈ (encryptBuffer fuel key length input (copyOps length)).ops) :
    0 ≤ i ∧ i < length := by
  have hlooked : ∀ a ∈ (encryptLoop key fuel input 0).2, 0 ≤ a ∧ a ≤ k := by
    intro a ha
    obtain ⟨h₀, -, hne⟩ := mem_indices_iff.mp ha
    refine ⟨h₀, ?_⟩
    by_contra hlt
    exact hne k (by omega) (by omega) hnul
  by_cases hchecks : input 0 = 0 ∨ key < 1 ∨ key > 5
  · exact encryptBuffer_inBounds_of_rejected (Nat.zero_lt_of_lt hk) hchecks hi
  · cases hloop : (encryptLoop key fuel input 0).1 with
    | none =>
        rw [encryptBuffer_running hchecks hloop] at hi
        simp only [List.mem_append, access_mem_copyOps, mem_indices, List.mem_singleton,
          KernelOp.access.injEq] at hi
        rcases hi with (hcopy | hfirst) | hloop
        · exact hcopy
        · omega
        · have hle := hlooked i hloop
          omega
    | some input' =>
        obtain ⟨n, -, hne, hzero, rfl⟩ := encryptLoop_some hloop
        have hn : n ≤ k := by
          by_contra hlt
          exact hne k (by omega) (by simpa using hnul)
        have htext : (readString (encrypted key input 0 n) 0 fuel).strlen ≤ n := by
          apply length_readBytes_le
          rw [encrypted, if_neg (by omega)]
          exact hzero
        rw [encryptBuffer_ended hchecks hloop] at hi
        simp only [List.mem_append, access_mem_copyOps, mem_accesses, mem_indices, List.mem_cons,
          reduceCtorEq, KernelOp.access.injEq, List.not_mem_nil, or_false] at hi
        rcases hi with ((hcopy | hfirst) | hloop) | hprint
        · exact hcopy
        · omega
        · have hle := hlooked i hloop
          omega
        · omega

/-- Only the allocation of the measured length is made. -/
theorem size_eq {c : Call} {size : ℕ} (h : .kmalloc size ∈ (s2Encrypt fuel c).ops) :
    size = strnlenUser c.measured MAX := by
  have hcopyOps : ∀ n, KernelOp.kmalloc size ∈ copyOps n → size = n := by
    intro n hn
    simpa [copyOps, accesses] using hn
  have hbuffer : ∀ n input, KernelOp.kmalloc size ∈
      (encryptBuffer fuel c.key n input (copyOps n)).ops → size = n := by
    intro n input hn
    obtain ⟨rest, hops, hrest⟩ := exists_encryptBuffer_ops fuel c.key n input (copyOps n)
    rw [hops, List.mem_append] at hn
    apply hcopyOps
    apply hn.resolve_right
    intro hmem
    exact hrest size ((List.mem_cons.mp hmem).resolve_left (by simp only [reduceCtorEq,
      not_false_eq_true]))
  by_cases hlong : MAX < strnlenUser c.measured MAX
  · rw [s2Encrypt_tooLong hlong] at h
    cases h
  · cases hcopy : copyFromUser c.atCopy (strnlenUser c.measured MAX) with
    | none =>
        rw [s2Encrypt_fault (Nat.not_lt.mp hlong) hcopy] at h
        exact hcopyOps _ h
    | some bytes =>
        rw [s2Encrypt_copied (Nat.not_lt.mp hlong) hcopy] at h
        exact hbuffer _ _ h

end Buffer

section Calls
variable {c : Call} {bytes : List UInt8}

theorem mem_kmalloc (hshort : strnlenUser c.measured MAX ≤ MAX)
    (hcopy : copyFromUser c.atCopy (strnlenUser c.measured MAX) = some bytes) (fuel : ℕ) :
    .kmalloc (strnlenUser c.measured MAX) ∈ (s2Encrypt fuel c).ops := by
  rw [s2Encrypt_copied hshort hcopy]
  obtain ⟨rest, hops, -⟩ := exists_encryptBuffer_ops fuel c.key (strnlenUser c.measured MAX)
    (copied c.heap bytes) (copyOps (strnlenUser c.measured MAX))
  rw [hops]
  exact List.mem_append_left _ List.mem_cons_self

/-- The byte behind the buffer is used if the buffer is empty, and if the key is accepted and no
NUL was copied. -/
theorem contained_of_inBounds (hshort : strnlenUser c.measured MAX ≤ MAX)
    (hcopy : copyFromUser c.atCopy (strnlenUser c.measured MAX) = some bytes) (h : InBounds c) :
    0 < strnlenUser c.measured MAX ∧ (c.key < 1 ∨ c.key > 5 ∨
      ∃ k < strnlenUser c.measured MAX, c.atCopy k = some 0) := by
  have hbelow : ∀ fuel (i : ℤ), .access i ∈ (encryptBuffer fuel c.key (strnlenUser c.measured MAX)
      (copied c.heap bytes) (copyOps (strnlenUser c.measured MAX))).ops →
      i < strnlenUser c.measured MAX := by
    intro fuel i hi
    rw [← s2Encrypt_copied hshort hcopy] at hi
    exact (h fuel _ (mem_kmalloc hshort hcopy fuel) i hi).2
  have hpos : 0 < strnlenUser c.measured MAX := by
    have hfirst := hbelow 0 0 mem_encryptBuffer_zero
    omega
  refine ⟨hpos, ?_⟩
  by_contra hcond
  rw [not_or, not_or] at hcond
  obtain ⟨hlow, hhigh, hnul⟩ := hcond
  have hne : ∀ k < strnlenUser c.measured MAX, copied c.heap bytes (k : ℕ) ≠ 0 := by
    intro k hk hzero
    apply hnul
    refine ⟨k, hk, ?_⟩
    rw [copied_eq hcopy c.heap hk, hzero]
  have hchecks : ¬ (copied c.heap bytes 0 = 0 ∨ c.key < 1 ∨ c.key > 5) := by
    rintro (hzero | hkey | hkey)
    · exact hne 0 hpos hzero
    · exact hlow hkey
    · exact hhigh hkey
  exact absurd (hbelow _ _ (mem_encryptBuffer_behind hchecks hne (Nat.lt_succ_self _)))
    (lt_irrefl _)

theorem inBounds_of_contained (hshort : strnlenUser c.measured MAX ≤ MAX)
    (hcopy : copyFromUser c.atCopy (strnlenUser c.measured MAX) = some bytes)
    (hpos : 0 < strnlenUser c.measured MAX) (hcond : c.key < 1 ∨ c.key > 5 ∨
      ∃ k < strnlenUser c.measured MAX, c.atCopy k = some 0) : InBounds c := by
  intro fuel size hsize i hi
  rw [size_eq hsize]
  rw [s2Encrypt_copied hshort hcopy] at hi
  rcases hcond with hkey | hkey | ⟨k, hk, hzero⟩
  · exact encryptBuffer_inBounds_of_rejected hpos (.inr (.inl hkey)) hi
  · exact encryptBuffer_inBounds_of_rejected hpos (.inr (.inr hkey)) hi
  · rw [copied_eq hcopy c.heap hk] at hzero
    exact encryptBuffer_inBounds hk (Option.some.inj hzero) hi

/-- A call stays inside its buffer exactly if the string is too long or cannot be copied, or
its measured length is not 0 and the key is refused or the copy has a NUL. -/
theorem in_bounds_iff (c : Call) : InBounds c ↔ Contained c := by
  unfold Contained
  by_cases hlong : MAX < strnlenUser c.measured MAX
  · simp only [hlong, true_or, iff_true]
    intro fuel size hsize
    rw [s2Encrypt_tooLong hlong] at hsize
    cases hsize
  · have hshort := Nat.not_lt.mp hlong
    simp only [hlong, false_or]
    rw [← copyFromUser_eq_none_iff]
    cases hcopy : copyFromUser c.atCopy (strnlenUser c.measured MAX) with
    | none =>
        simp only [true_or, iff_true]
        intro fuel size hsize i hi
        rw [size_eq hsize]
        rw [s2Encrypt_fault hshort hcopy] at hi
        exact access_mem_copyOps.mp hi
    | some bytes =>
        simp only [reduceCtorEq, false_or]
        constructor
        · exact contained_of_inBounds hshort hcopy
        · intro ⟨hpos, hcond⟩
          exact inBounds_of_contained hshort hcopy hpos hcond

end Calls

/-- A string of one letter that has no NUL any more when it is copied, and a string that
cannot be read. -/
theorem behind_accessed :
    ¬ InBounds ⟨1, fun k => if k = 0 then some 65 else some 0, fun _ => some 65, fun _ => 0⟩ ∧
      ¬ InBounds ⟨1, fun _ => none, fun _ => none, fun _ => 0⟩ := by
  constructor
  · intro h
    exact absurd (h 3 2 (by decide +kernel) 2 (by decide +kernel)).2 (by decide)
  · intro h
    exact absurd (h 0 0 (by decide +kernel) 0 (by decide +kernel)).2 (by decide)

end OperatingSystems.Syscall
