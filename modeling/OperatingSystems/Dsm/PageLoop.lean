import OperatingSystems.Dsm.PageStore
import OperatingSystems.Library.ForLoop

/-!
# The page loops in machine arithmetic

`printPageContents` and `updatePageContents` share the header of their loop. Its
counter is an `int` and the bound of the test has type `unsigned long`, so that
the counter is converted to an unsigned 64-bit value in every test. The offset of
a page and the cursor of the copying loop are `int` values, which wrap.

A region may be too large for that: the loops visit the requested pages at their
offsets exactly as long as the offsets are below `2^31`. Where no cursor passes
that bound, the loops are the functions of the page store.
-/
namespace OperatingSystems.Dsm
open Library

/-- `addr[l++] = message[j]` up to the NUL, with an `int` cursor. -/
def copyBytes (mem : ℤ → UInt8) (l : ℤ) : List UInt8 → ℤ → UInt8
  | [] => Function.update mem l 0
  | b :: bs => copyBytes (Function.update mem l b) (toInt (l + 1)) bs

namespace Region
variable {σ : Type*}

def firstPage (requestPage : ℤ) : ℤ := if requestPage = -1 then 0 else requestPage

/-- `(request_page == -1) ? num_pages - 1 : request_page`, an `unsigned long`. -/
def lastPage (r : Region) (requestPage : ℤ) : UInt64 :=
  if requestPage = -1 then UInt64.ofNat r.numPages - 1 else UInt64.ofInt requestPage

/-- The body is given the page and its offset. -/
def pageLoop (r : Region) (requestPage : ℤ) (body : σ → ℤ → ℤ → σ) (fuel : ℕ) (s : σ) :
    Option σ :=
  forLoop (fun i => UInt64.ofInt i ≤ r.lastPage requestPage) (fun i => toInt (i + 1))
    (fun s i => body s i (r.pageOffset i)) fuel (firstPage requestPage) s

def updateLoop (r : Region) (mem : ℤ → UInt8) (requestPage : ℤ) (message : CString)
    (fuel : ℕ) : Option (ℤ → UInt8) :=
  r.pageLoop requestPage (fun mem _ offset => copyBytes mem offset message.bytes) fuel mem

def printLoop (r : Region) (mem : ℤ → UInt8) (requestPage : ℤ) (fuel : ℕ) :
    Option (List (ℤ × CString)) :=
  r.pageLoop requestPage
    (fun out i offset => out ++ [(i, readString mem offset (r.len - offset).toNat)]) fuel []

/-- Whatever the body does with a page and its offset, the loop ends after running it
for the requested pages in order, with offsets in the region that are exact. -/
def OffsetsExact (r : Region) (requestPage : ℤ) : Prop :=
  (∀ {σ : Type} (body : σ → ℤ → ℤ → σ) (s : σ), ∃ fuel,
    r.pageLoop requestPage body fuel s =
      some ((r.pagesOf requestPage).foldl (fun s i => body s i (i * r.pageSize)) s)) ∧
    ∀ i ∈ r.pagesOf requestPage, 0 ≤ r.pageOffset i ∧ r.pageOffset i < r.len

end Region

section Header

theorem toInt_eq {x : ℤ} (h₀ : -2 ^ 31 ≤ x) (h : x < 2 ^ 31) : toInt x = x :=
  Int.bmod_eq_of_le (by norm_num at *; omega) (by norm_num at *; omega)

theorem toInt_lt (x : ℤ) : -2 ^ 31 ≤ toInt x ∧ toInt x < 2 ^ 31 := by
  have hle := Int.le_bmod (x := x) (m := 2 ^ 32) (by norm_num)
  have hlt := Int.bmod_lt (x := x) (m := 2 ^ 32) (by norm_num)
  unfold toInt
  norm_num at *
  omega

/-- The counter after `n` turns. -/
theorem iterate_toInt (n : ℕ) : (fun i => toInt (i + 1))^[n] 0 = toInt n := by
  induction n with
  | zero => rfl
  | succ n ih =>
      rw [Function.iterate_succ_apply', ih]
      exact Int.bmod_add_bmod

theorem ofInt_toNat (i : ℤ) : (UInt64.ofInt i).toNat = (i % 2 ^ 64).toNat := by
  rw [UInt64.ofInt, UInt64.toNat_ofNat']
  omega

/-- The test converts the counter, so a negative one is above every page number. -/
theorem ofInt_le_ofInt {i last : ℤ} (hi : -2 ^ 31 ≤ i) (hi' : i < 2 ^ 31) (h₀ : 0 ≤ last)
    (hl : last < 2 ^ 31) : UInt64.ofInt i ≤ UInt64.ofInt last ↔ 0 ≤ i ∧ i ≤ last := by
  rw [UInt64.le_iff_toNat_le, ofInt_toNat, ofInt_toNat]
  omega

theorem visits_range (last : ℤ) (h₀ : 0 ≤ last) (hl : last < 2 ^ 31) (m : ℕ) {k : ℤ}
    (hk : 0 ≤ k) (hm : k + m = last + 1) :
    Visits (fun i => UInt64.ofInt i ≤ UInt64.ofInt last) (fun i => toInt (i + 1)) (toInt k)
      ((List.range m).map fun n : ℕ => k + n) := by
  induction m generalizing k with
  | zero =>
      apply Visits.done
      obtain rfl : k = last + 1 := by omega
      obtain ⟨hge, hlt⟩ := toInt_lt (last + 1)
      have hwrap : last + 1 < 2 ^ 31 → toInt (last + 1) = last + 1 :=
        toInt_eq (by omega)
      -- Behind the last page number of all, the counter becomes negative.
      have hneg : last + 1 = 2 ^ 31 → toInt (last + 1) = -2 ^ 31 := by
        intro h
        rw [h]
        rfl
      rw [decide_eq_false_iff_not, ofInt_le_ofInt hge hlt h₀ hl]
      omega
  | succ m ih =>
      have hstay : toInt k = k := toInt_eq (by omega) (by omega)
      have htail := ih (k := k + 1) (by omega) (by omega)
      have hgo : UInt64.ofInt k ≤ UInt64.ofInt last :=
        (ofInt_le_ofInt (by omega) (by omega) h₀ hl).mpr (by omega)
      have hlist : ((List.range (m + 1)).map fun n : ℕ => k + n) =
          k :: (List.range m).map fun n : ℕ => k + 1 + n := by
        rw [List.range_succ_eq_map, List.map_cons, List.map_map]
        congr 1
        · simp
        · apply List.map_congr_left
          intro n hn
          simp only [Function.comp_apply]
          omega
      rw [hlist, hstay]
      exact .turn (by simpa using hgo) htail

end Header

namespace Region
variable {r : Region} {p : ℤ}

/-- The requested pages are visited, each once and in order, if their numbers are `int`
values. -/
theorem visits_pages (hp : r.IsRequest p) (hint : ∀ i ∈ r.pagesOf p, i < 2 ^ 31) :
    Visits (fun i => UInt64.ofInt i ≤ r.lastPage p) (fun i => toInt (i + 1)) (firstPage p)
      (r.pagesOf p) := by
  have hpos := r.numPages_pos
  rcases hp with rfl | hp
  · have hlast : ((r.numPages - 1 : ℕ) : ℤ) < 2 ^ 31 :=
      hint _ ((mem_pagesOf (.inl rfl)).mpr ⟨⟨by omega, by omega⟩, .inl rfl⟩)
    have hbound : r.lastPage (-1) = UInt64.ofInt (r.numPages - 1) := by
      rw [lastPage, if_pos rfl, ← UInt64.toNat_inj, ofInt_toNat]
      rw [UInt64.toNat_sub_of_le _ _ (by rw [UInt64.le_iff_toNat_le]; simp; omega)]
      simp
      omega
    have hv := visits_range (r.numPages - 1) (by omega) (by omega) r.numPages
      (k := 0) le_rfl (by omega)
    have hzero : ((List.range r.numPages).map fun n : ℕ => (0 : ℤ) + n) = r.pagesOf (-1) := by
      rw [pagesOf, if_pos rfl]
      exact List.map_congr_left fun n _ => zero_add _
    rw [hbound, ← hzero]
    exact hv
  · have hlt : p < 2 ^ 31 := hint p (by simp [pagesOf_of_isPage hp])
    have hne : p ≠ -1 := by have := hp.1; omega
    have hv := visits_range p hp.1 hlt 1 (k := p) hp.1 (by omega)
    rw [toInt_eq (by have := hp.1; omega) hlt] at hv
    simpa [firstPage, lastPage, hne, pagesOf_of_isPage hp] using hv

theorem exists_pageLoop_iff {σ : Type*} {body : σ → ℤ → ℤ → σ} {s t : σ} :
    (∃ fuel, r.pageLoop p body fuel s = some t) ↔
      ∃ is, Visits (fun i => UInt64.ofInt i ≤ r.lastPage p) (fun i => toInt (i + 1)) (firstPage p)
        is ∧ is.foldl (fun s i => body s i (r.pageOffset i)) s = t :=
  exists_forLoop_iff

theorem pageLoop_ends (hp : r.IsRequest p) (hint : ∀ i ∈ r.pagesOf p, i < 2 ^ 31) {σ : Type*}
    (body : σ → ℤ → ℤ → σ) (s : σ) :
    ∃ fuel, r.pageLoop p body fuel s =
      some ((r.pagesOf p).foldl (fun s i => body s i (r.pageOffset i)) s) :=
  exists_pageLoop_iff.mpr ⟨_, visits_pages hp hint, rfl⟩

/-- The `int` product is exact if it is below `2^31`. -/
theorem pageOffset_of_lt {i : ℤ} (hi : 0 ≤ i) (hlt : i * r.pageSize < 2 ^ 31) :
    r.pageOffset i = i * r.pageSize := by
  have hpos : 0 ≤ i * (r.pageSize : ℤ) := by positivity
  exact toInt_eq (by omega) hlt

theorem lt_of_offset_lt (hps : 0 < r.pageSize) {i : ℤ} (hi : 0 ≤ i)
    (hlt : i * r.pageSize < 2 ^ 31) : i < 2 ^ 31 := by
  have hmul : i * 1 ≤ i * (r.pageSize : ℤ) := mul_le_mul_of_nonneg_left (by omega) hi
  omega

/-- The loops use exact offsets exactly if no requested page starts at `2^31` or above. -/
theorem offsets_exact_iff (r : Region) (hps : 0 < r.pageSize) {p : ℤ} (hp : r.IsRequest p) :
    r.OffsetsExact p ↔ ∀ i ∈ r.pagesOf p, i * r.pageSize < 2 ^ 31 := by
  constructor
  · rintro ⟨hloop, -⟩ i hi
    obtain ⟨is, -, his⟩ := exists_pageLoop_iff.mp
      (hloop (fun (out : List (ℤ × ℤ)) i offset => out ++ [(i, offset)]) [])
    replace his : is.map (fun i => (i, r.pageOffset i)) =
        (r.pagesOf p).map fun i => (i, i * (r.pageSize : ℤ)) := by
      rwa [List.foldl_append_eq_append, List.foldl_append_eq_append, List.nil_append,
        List.nil_append, ← List.flatMap_def, ← List.flatMap_def, ← List.map_eq_flatMap,
        ← List.map_eq_flatMap] at his
    have hmem : (i, i * (r.pageSize : ℤ)) ∈ is.map fun i => (i, r.pageOffset i) :=
      his ▸ List.mem_map.mpr ⟨i, hi, rfl⟩
    obtain ⟨j, -, hj⟩ := List.mem_map.mp hmem
    obtain ⟨rfl, hoff⟩ := Prod.mk.inj hj
    rw [← hoff]
    exact (toInt_lt _).2
  · intro hlt
    have hoff : ∀ i ∈ r.pagesOf p, r.pageOffset i = i * r.pageSize := fun i hi =>
      pageOffset_of_lt (isPage_of_mem_pagesOf hp hi).1 (hlt i hi)
    constructor
    · intro σ body s
      obtain ⟨fuel, h⟩ := pageLoop_ends hp
        (fun i hi => lt_of_offset_lt hps (isPage_of_mem_pagesOf hp hi).1 (hlt i hi)) body s
      refine ⟨fuel, h.trans (congrArg some ?_)⟩
      exact List.foldl_ext _ _ s fun s i hi => by rw [hoff i hi]
    · intro i hi
      have hend := page_end_le (isPage_of_mem_pagesOf hp hi)
      rw [hoff i hi]
      omega

/-- A region of two gigabytes and one page. -/
theorem lastOffset_wraps :
    let r : Region := ⟨4096, 2 ^ 19 + 1, by decide⟩
    r.IsRequest (2 ^ 19) ∧ r.len < 2 ^ 63 ∧ ¬ r.OffsetsExact (2 ^ 19) := by
  refine ⟨by decide, by decide, fun h => ?_⟩
  exact absurd (h.2 (2 ^ 19) (by decide)).1 (by decide)

theorem offsets_exact_twoPages : twoPages.OffsetsExact (-1) ↔
    ∀ i ∈ twoPages.pagesOf (-1), i * twoPages.pageSize < 2 ^ 31 :=
  offsets_exact_iff twoPages.toRegion (by decide) (by decide)

theorem copyBytes_eq {mem : ℤ → UInt8} {l : ℤ} {bs : List UInt8} (h₀ : 0 ≤ l)
    (h : l + bs.length < 2 ^ 31) : copyBytes mem l bs = writeBytes mem l bs := by
  induction bs generalizing mem l with
  | nil => rfl
  | cons b bs ih =>
      rw [List.length_cons] at h
      rw [copyBytes, writeBytes, toInt_eq (by omega) (by omega)]
      exact ih (by omega) (by omega)

theorem updateLoop_ends (hps : 0 < r.pageSize) (hp : r.IsRequest p) (mem : ℤ → UInt8)
    {message : CString} (hlt : ∀ i ∈ r.pagesOf p, i * r.pageSize + message.strlen < 2 ^ 31) :
    ∃ fuel, r.updateLoop mem p message fuel = some (r.updatePageContents mem p message) := by
  have hpage : ∀ i ∈ r.pagesOf p, 0 ≤ i := fun i hi => (isPage_of_mem_pagesOf hp hi).1
  have hstart : ∀ i ∈ r.pagesOf p, i * r.pageSize < 2 ^ 31 := fun i hi => by
    have := hlt i hi
    omega
  obtain ⟨fuel, h⟩ := pageLoop_ends hp
    (fun i hi => lt_of_offset_lt hps (hpage i hi) (hstart i hi))
    (fun mem _ offset => copyBytes mem offset message.bytes) mem
  refine ⟨fuel, h.trans (congrArg some (List.foldl_ext _ _ mem fun mem i hi => ?_))⟩
  have hoff := pageOffset_of_lt (hpage i hi) (hstart i hi)
  have hpos : 0 ≤ i * (r.pageSize : ℤ) := mul_nonneg (hpage i hi) (Int.natCast_nonneg _)
  exact copyBytes_eq (hoff ▸ hpos) (hoff ▸ hlt i hi)

theorem printLoop_ends (hps : 0 < r.pageSize) (hp : r.IsRequest p) (mem : ℤ → UInt8)
    (hlt : ∀ i ∈ r.pagesOf p, i * r.pageSize < 2 ^ 31) :
    ∃ fuel, r.printLoop mem p fuel = some (r.printPageContents mem p) := by
  obtain ⟨fuel, h⟩ := pageLoop_ends hp
    (fun i hi => lt_of_offset_lt hps (isPage_of_mem_pagesOf hp hi).1 (hlt i hi))
    (fun out i offset => out ++ [(i, readString mem offset (r.len - offset).toNat)]) []
  refine ⟨fuel, h.trans (congrArg some ?_)⟩
  rw [List.foldl_append_eq_append, List.nil_append, ← List.flatMap_def, ← List.map_eq_flatMap]
  rfl

end Region

end OperatingSystems.Dsm
