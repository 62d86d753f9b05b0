import OperatingSystems.Dsm.PageLoop

/-!
# What a write should change

A write of a message to a page should put the message, or the part of it that fits
with its NUL, into the page and leave all other bytes alone. `main` announces that
a longer message is cut, but no code cuts it: the copying loop ends at the NUL of
the message only. So the law holds exactly for messages that fit, at offsets that
an `int` cursor reaches.

For the converse the memory is chosen: a byte that a write sets does not depend on
the memory before it, and no cursor reaches a byte at `2^31` or above.
-/
namespace OperatingSystems.Dsm
open Library

section Cursor

/-- A byte written, or unwritten, is so whatever the rest of the memory is. -/
theorem copyBytes_agree {mem mem' : ℤ → UInt8} {a : ℤ} (h : mem' a = mem a) (l : ℤ)
    (bs : List UInt8) : copyBytes mem' l bs a = copyBytes mem l bs a := by
  have hupdate : ∀ b, Function.update mem' l b a = Function.update mem l b a := by
    intro b
    simp only [Function.update_apply, h]
  induction bs generalizing mem mem' l with
  | nil => exact hupdate 0
  | cons b bs ih =>
      rw [copyBytes, copyBytes]
      apply ih (hupdate b)
      intro c
      simp only [Function.update_apply, h]

/-- The cursor writes each byte of the message and the NUL. -/
theorem copyBytes_written (mem mem' : ℤ → UInt8) {l : ℤ} (hl : toInt l = l) {bs : List UInt8}
    {k : ℕ} (hk : k ≤ bs.length) :
    copyBytes mem' l bs (toInt (l + k)) = copyBytes mem l bs (toInt (l + k)) := by
  induction bs generalizing mem mem' l k with
  | nil =>
      obtain rfl : k = 0 := by simpa using hk
      simp [copyBytes, hl]
  | cons b bs ih =>
      rw [copyBytes, copyBytes]
      cases k with
      | zero =>
          apply copyBytes_agree
          simp [hl]
      | succ k =>
          have hwrap : toInt (toInt (l + 1)) = toInt (l + 1) := Int.bmod_bmod
          have haddr : toInt (l + (k + 1 : ℕ)) = toInt (toInt (l + 1) + k) := by
            unfold toInt
            rw [Int.bmod_add_bmod]
            congr 1
            push_cast
            ring
          rw [haddr]
          exact ih _ _ hwrap (by simpa using hk)

theorem copyBytes_unreached {mem : ℤ → UInt8} {l a : ℤ} (hl : l < 2 ^ 31) (ha : 2 ^ 31 ≤ a)
    (bs : List UInt8) : copyBytes mem l bs a = mem a := by
  induction bs generalizing mem l with
  | nil => exact Function.update_of_ne (by omega) ..
  | cons b bs ih =>
      rw [copyBytes, ih (toInt_lt _).2]
      exact Function.update_of_ne (by omega) ..

end Cursor

namespace Region

/-- Byte `a` of the region belongs to page `i`. -/
def InPage (r : Region) (i a : ℤ) : Prop := i * r.pageSize ≤ a ∧ a < i * r.pageSize + r.pageSize

/-- The message, or the prefix of it that fits into a page with its NUL. -/
def fitting (r : Region) (message : CString) : CString := message.take (r.pageSize - 1)

structure WriteLaw (r : Region) (requestPage : ℤ) (message : CString) (mem mem' : ℤ → UInt8) :
    Prop where
  frame : ∀ a, (∀ i ∈ r.pagesOf requestPage, ¬ r.InPage i a) → mem' a = mem a
  text : ∀ i ∈ r.pagesOf requestPage, StringAt mem' (i * r.pageSize) (r.fitting message)

variable {r : Region} {p : ℤ} {message : CString}

section Fits
variable {is : List ℤ} (hoff : ∀ i ∈ is, r.pageOffset i = i * r.pageSize)
  (hfit : message.strlen < r.pageSize)
include hoff hfit

theorem foldl_copyMessage_frame {mem : ℤ → UInt8} {a : ℤ} (ha : ∀ i ∈ is, ¬ r.InPage i a) :
    is.foldl (r.copyMessage message) mem a = mem a := by
  induction is generalizing mem with
  | nil => rfl
  | cons i is ih =>
      have hout := ha i (by simp)
      rw [List.foldl_cons, ih (fun j hj => hoff j (by simp [hj])) (fun j hj => ha j (by simp [hj]))]
      rw [copyMessage, writeString_apply, hoff i (by simp), if_neg]
      unfold InPage at hout
      omega

theorem foldl_copyMessage_text {mem : ℤ → UInt8} {i : ℤ} (hi : i ∈ is) :
    StringAt (is.foldl (r.copyMessage message) mem) (i * r.pageSize) message := by
  induction is generalizing mem with
  | nil => cases hi
  | cons j is ih =>
      have hrest : ∀ k ∈ is, r.pageOffset k = k * r.pageSize := fun k hk => hoff k (by simp [hk])
      rw [List.foldl_cons]
      by_cases hmem : i ∈ is
      · exact ih hrest hmem
      · obtain rfl : i = j := by simpa [hmem] using hi
        have hhead := stringAt_writeString mem (r.pageOffset i) message
        rw [hoff i (by simp)] at hhead
        refine hhead.congr fun k hk => ?_
        rw [foldl_copyMessage_frame hrest hfit, copyMessage, hoff i (by simp)]
        intro n hn hin
        have hapart := pages_apart (r := r) (i := i) (j := n) fun e => hmem (e ▸ hn)
        unfold InPage at hin
        omega

end Fits

theorem updateLoop_eq {mem mem' : ℤ → UInt8} {fuel : ℕ}
    (h : r.updateLoop mem p message fuel = some mem') :
    ∃ is, Visits (fun i => UInt64.ofInt i ≤ r.lastPage p) (fun i => toInt (i + 1)) (firstPage p)
        is ∧
      is.foldl (fun mem i => copyBytes mem (r.pageOffset i) message.bytes) mem = mem' :=
  exists_pageLoop_iff.mp ⟨fuel, h⟩

theorem updateLoop_unreached {mem mem' : ℤ → UInt8} {fuel : ℕ}
    (h : r.updateLoop mem p message fuel = some mem') {a : ℤ} (ha : 2 ^ 31 ≤ a) :
    mem' a = mem a := by
  obtain ⟨is, -, rfl⟩ := updateLoop_eq h
  clear h
  induction is generalizing mem with
  | nil => rfl
  | cons i is ih =>
      rw [List.foldl_cons, ih]
      exact copyBytes_unreached (toInt_lt _).2 ha _

theorem pagesOf_last (hp : r.IsRequest p) :
    ∃ is i, r.pagesOf p = is ++ [i] ∧ ∀ j ∈ r.pagesOf p, j ≤ i := by
  rcases hp with rfl | hp
  · obtain ⟨m, hm⟩ := Nat.exists_eq_succ_of_ne_zero r.numPages_pos.ne'
    refine ⟨(List.range m).map (↑), m, ?_, fun j hj => ?_⟩
    · rw [pagesOf, if_pos rfl, hm, List.range_succ, List.map_append]
      rfl
    · have hlt := (isPage_of_mem_pagesOf (.inl rfl) hj).2
      omega
  · exact ⟨[], p, pagesOf_of_isPage hp, fun j hj => by simp [pagesOf_of_isPage hp] at hj; omega⟩

theorem strlen_fitting : (r.fitting message).strlen = min (r.pageSize - 1) message.strlen :=
  List.length_take

/-- The text of a page that a write sets ends below `2^31`. -/
theorem text_end_lt (h : ∀ mem, ∃ fuel mem', r.updateLoop mem p message fuel = some mem' ∧
      r.WriteLaw p message mem mem') {i : ℤ} (hi : i ∈ r.pagesOf p) :
    i * r.pageSize + (r.fitting message).strlen < 2 ^ 31 := by
  by_contra hge
  obtain ⟨fuel, mem', hrun, hlaw⟩ := h fun _ => 1
  have hnul := hlaw.text i hi _ le_rfl
  rw [updateLoop_unreached hrun (by omega), CString.byteAt_strlen] at hnul
  exact absurd hnul (by decide)

/-- The byte behind the last page is written by a message that does not fit. -/
theorem strlen_lt_of_law (hps : 0 < r.pageSize) (hp : r.IsRequest p)
    (h : ∀ mem, ∃ fuel mem', r.updateLoop mem p message fuel = some mem' ∧
      r.WriteLaw p message mem mem') : message.strlen < r.pageSize := by
  by_contra hlong
  have hlen : (r.fitting message).strlen = r.pageSize - 1 := by
    rw [strlen_fitting]
    omega
  have hbound : ∀ i ∈ r.pagesOf p, 0 ≤ i ∧ i * r.pageSize + r.pageSize ≤ 2 ^ 31 := by
    intro i hi
    have hend := text_end_lt h hi
    rw [hlen] at hend
    exact ⟨(isPage_of_mem_pagesOf hp hi).1, by omega⟩
  have hint : ∀ i ∈ r.pagesOf p, i < 2 ^ 31 := fun i hi =>
    lt_of_offset_lt hps (hbound i hi).1 (by have := hbound i hi; omega)
  obtain ⟨is, i, hpages, hlast⟩ := pagesOf_last hp
  obtain ⟨h₀, hend⟩ := hbound i (by simp [hpages])
  have hoff : r.pageOffset i = i * r.pageSize := pageOffset_of_lt h₀ (by omega)
  -- This byte is behind page `i`, or it is the one at which the cursor wraps.
  have hout : ∀ j ∈ r.pagesOf p, ¬ r.InPage j (toInt (i * r.pageSize + r.pageSize)) := by
    intro j hj hin
    have hj₀ : 0 ≤ j * (r.pageSize : ℤ) := mul_nonneg (hbound j hj).1 (Int.natCast_nonneg _)
    have hji : j * (r.pageSize : ℤ) ≤ i * r.pageSize :=
      mul_le_mul_of_nonneg_right (hlast j hj) (Int.natCast_nonneg _)
    unfold InPage at hin
    rcases hend.lt_or_eq with hlt | heq
    · rw [toInt_eq (by omega) hlt] at hin
      omega
    · have hneg : toInt (2 ^ 31) = -2 ^ 31 := by decide
      rw [heq, hneg] at hin
      omega
  have hbyte : ∀ mem : ℤ → UInt8, ∃ mem', copyBytes mem' (r.pageOffset i) message.bytes
      (toInt (i * r.pageSize + r.pageSize)) = mem (toInt (i * r.pageSize + r.pageSize)) := by
    intro mem
    obtain ⟨fuel, mem', hrun, hlaw⟩ := h mem
    obtain ⟨js, hjs, rfl⟩ := updateLoop_eq hrun
    obtain rfl := hjs.unique (visits_pages hp hint)
    refine ⟨is.foldl (fun mem i => copyBytes mem (r.pageOffset i) message.bytes) mem, ?_⟩
    have hframe := hlaw.frame _ hout
    rwa [hpages, List.foldl_append] at hframe
  obtain ⟨mem₀, hzero⟩ := hbyte fun _ => 0
  obtain ⟨mem₁, hone⟩ := hbyte fun _ => 1
  have hlength : r.pageSize ≤ message.bytes.length := by simpa [CString.strlen] using hlong
  have hsame := copyBytes_written mem₀ mem₁ (l := r.pageOffset i) Int.bmod_bmod hlength
  rw [hoff] at hzero hone hsame
  rw [hzero, hone] at hsame
  exact absurd hsame (by decide)

/-- A write obeys the law in every memory exactly if its message fits into a page and no
page that it covers ends its text at `2^31` or above. -/
theorem write_law_iff (r : Region) (hps : 0 < r.pageSize) {p : ℤ} (hp : r.IsRequest p)
    (message : CString) :
    (∀ mem, ∃ fuel mem', r.updateLoop mem p message fuel = some mem' ∧
        r.WriteLaw p message mem mem') ↔
      message.strlen < r.pageSize ∧
        ∀ i ∈ r.pagesOf p, i * r.pageSize + message.strlen < 2 ^ 31 := by
  constructor
  · intro h
    have hfit := strlen_lt_of_law hps hp h
    have hwhole : r.fitting message = message := CString.take_of_strlen_le (by omega)
    refine ⟨hfit, fun i hi => ?_⟩
    have hend := text_end_lt h hi
    rwa [hwhole] at hend
  · rintro ⟨hfit, hlt⟩ mem
    have hwhole : r.fitting message = message := CString.take_of_strlen_le (by omega)
    have hoff : ∀ i ∈ r.pagesOf p, r.pageOffset i = i * r.pageSize := by
      intro i hi
      have hend := hlt i hi
      exact pageOffset_of_lt (isPage_of_mem_pagesOf hp hi).1 (by omega)
    obtain ⟨fuel, hrun⟩ := updateLoop_ends hps hp mem hlt
    refine ⟨fuel, _, hrun, ?_, ?_⟩
    · exact fun a ha => foldl_copyMessage_frame hoff hfit ha
    · intro i hi
      rw [hwhole]
      exact foldl_copyMessage_text hoff hfit hi

theorem write_law_iff_twoPages :
    (∀ mem, ∃ fuel mem', twoPages.updateLoop mem (-1) textA fuel = some mem' ∧
        twoPages.WriteLaw (-1) textA mem mem') ↔
      textA.strlen < twoPages.pageSize ∧
        ∀ i ∈ twoPages.pagesOf (-1), i * twoPages.pageSize + textA.strlen < 2 ^ 31 :=
  write_law_iff twoPages.toRegion (by decide) (by decide) textA

/-- A message as long as a page. -/
def pageOfA : CString :=
  ⟨List.replicate 4096 97, fun h => absurd (List.eq_of_mem_replicate h) (by decide)⟩

/-- Its NUL is the first byte of the next page. -/
theorem pageOfA_spills :
    twoPages.IsPage 0 ∧ ¬ ∀ mem, ∃ fuel mem',
      twoPages.updateLoop mem 0 pageOfA fuel = some mem' ∧
        twoPages.WriteLaw 0 pageOfA mem mem' := by
  refine ⟨by decide, fun h => ?_⟩
  have hlt := strlen_lt_of_law (by decide) (by decide) h
  rw [CString.strlen, pageOfA, List.length_replicate] at hlt
  exact absurd hlt (by decide)

end Region

end OperatingSystems.Dsm
