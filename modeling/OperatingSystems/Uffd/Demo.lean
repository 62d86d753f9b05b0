import OperatingSystems.Dsm.PageLoop
import OperatingSystems.Uffd.FaultHandler
import Mathlib.Order.Interval.Finset.Nat

/-!
# The page-fault demonstration

`main` of `uffd.c` reads and writes the mapping at every 1024th byte in eight passes,
with a `madvise(MADV_DONTNEED)` of everything before the third and the fifth. The
handler fills the n-th page that faults with the n-th of twenty letters.

The counter `l` is an `int` that is compared with an `unsigned long`. The mapping is
shorter than 2^31 bytes, so that `l += 1024` does not overflow and a pass visits all
of it.
-/
namespace OperatingSystems.Uffd
open Library Dsm

/-- `'A' + fault_cnt % 20` -/
def letter (faultCnt : ℕ) : UInt8 := 65 + UInt8.ofNat (faultCnt % 20)

abbrev Memory := PagedMemory ℤ ℕ UInt8

/-- The memory and the lines of a pass, each an address and a character. -/
abbrev Pass := Memory × List (BitVec 64 × UInt8)

section Program
variable (mp : FaultRange)

def readLine (s : Pass) (l : ℤ) : Pass :=
  let (c, mem) := (mp.pager letter).read s.1 l
  (mem, s.2 ++ [(mp.address l, c)])

/-- `memset(addr + l, c, 1024)` -/
def setChunk (c : UInt8) (mem : Memory) (l : ℤ) : Memory :=
  (List.range 1024).foldl (fun mem (k : ℕ) => (mp.pager letter).write mem (l + k) c) mem

def writeLine (c : UInt8) (s : Pass) (l : ℤ) : Pass := readLine mp (setChunk mp c s.1 l, s.2) l

/-- `l = 0x0; while (l < len) { ...; l += 1024; }` -/
def pass (body : Pass → ℤ → Pass) (fuel : ℕ) (mem : Memory) : Option Pass :=
  forLoop (fun l => UInt64.ofInt l < UInt64.ofNat mp.len) (fun l => toInt (l + 1024)) body fuel 0
    (mem, [])

def firstPage : ℕ := mp.addr.toNat / mp.pageSize

/-- `madvise(addr, len, MADV_DONTNEED)` -/
def dontNeed (mem : Memory) : Memory :=
  mem.drop fun p => decide (firstPage mp ≤ p ∧ p < firstPage mp + mp.pages)

/-- The lines of the eight passes, each with the number of faults so far. -/
def demo (fuel : ℕ) (mem : Memory) : Option (List (List (BitVec 64 × UInt8) × ℕ)) := do
  let one ← pass mp (readLine mp) fuel mem
  let two ← pass mp (readLine mp) fuel one.1
  let three ← pass mp (readLine mp) fuel (dontNeed mp two.1)
  let four ← pass mp (readLine mp) fuel three.1
  let five ← pass mp (writeLine mp 64) fuel (dontNeed mp four.1)
  let six ← pass mp (readLine mp) fuel five.1
  let seven ← pass mp (writeLine mp 94) fuel six.1
  let eight ← pass mp (readLine mp) fuel seven.1
  pure ([one, two, three, four, five, six, seven, eight].map fun s => (s.2, s.1.faults))

/-- The chunks of a page. -/
def chunks : ℕ := 2 ^ (mp.shift - 10)

/-- The offsets in page `p` that a pass visits. -/
def block (p : ℕ) : List ℤ :=
  (List.range (chunks mp)).map fun i => ((p * mp.pageSize + 1024 * i : ℕ) : ℤ)

def offsets : List ℤ := (List.range (mp.pages)).flatMap (block mp)

/-- The lines of a pass that finds `c p` in page `p`. -/
def lines (c : ℕ → UInt8) : List (BitVec 64 × UInt8) :=
  (List.range (mp.pages)).flatMap fun p => (block mp p).map fun l => (mp.address l, c p)

end Program

theorem continues_iff (mp : FaultRange) {x : ℕ} (hx : x < 2 ^ 31) :
    UInt64.ofInt x < UInt64.ofNat mp.len ↔ x < mp.len := by
  have hlen : mp.len ≤ 2 ^ 63 := (Nat.le_add_left _ _).trans mp.fits
  rw [UInt64.lt_iff_toNat_lt, ofInt_toNat, UInt64.toNat_ofNat']
  omega

section Loop
variable {mp : FaultRange} (hshift : 10 ≤ mp.shift)
include hshift

theorem pageSize_eq : mp.pageSize = 1024 * chunks mp := by
  have hsplit : mp.shift = 10 + (mp.shift - 10) := by omega
  calc mp.pageSize = 2 ^ (10 + (mp.shift - 10)) := congrArg (2 ^ ·) hsplit
    _ = 1024 * chunks mp := Nat.pow_add 2 10 _

theorem offsets_eq :
    offsets mp = (List.range (mp.pages * chunks mp)).map fun i => ((1024 * i : ℕ) : ℤ) := by
  unfold offsets
  induction mp.pages with
  | zero => simp
  | succ n ih =>
      rw [List.range_succ, List.flatMap_append, List.flatMap_singleton, ih, Nat.succ_mul,
        List.range_add, List.map_append, List.map_map]
      congr 1
      apply List.map_congr_left
      intro i _
      simp only [Function.comp_apply]
      rw [pageSize_eq hshift]
      congr 1
      ring

theorem len_eq : mp.len = 1024 * (mp.pages * chunks mp) := by
  rw [FaultRange.len, pageSize_eq hshift]
  ring

variable (hlen : mp.len < 2 ^ 31)
include hlen

/-- The loop from the chunk `i` on. -/
theorem visits_chunks (m i : ℕ) (hi : i + m = mp.pages * chunks mp) :
    Visits (fun l => UInt64.ofInt l < UInt64.ofNat mp.len) (fun l => toInt (l + 1024))
      (toInt (1024 * i : ℕ)) ((List.range' i m).map fun i => ((1024 * i : ℕ) : ℤ)) := by
  have hbytes := len_eq hshift
  induction m generalizing i with
  | zero =>
      apply Visits.done
      rw [decide_eq_false_iff_not, toInt_eq (by omega) (by omega), continues_iff mp (by omega)]
      omega
  | succ m ih =>
      have hint : toInt (1024 * i : ℕ) = (1024 * i : ℕ) := toInt_eq (by omega) (by omega)
      have hrest := ih (i + 1) (by omega)
      rw [List.range'_succ, List.map_cons, hint]
      apply Visits.turn
      · rw [decide_eq_true_iff, continues_iff mp (by omega)]
        omega
      · have hnext : ((1024 * i : ℕ) : ℤ) + 1024 = ((1024 * (i + 1) : ℕ) : ℤ) := by
          push_cast
          ring
        rw [hnext]
        exact hrest

theorem pass_eq (body : Pass → ℤ → Pass) (mem : Memory) :
    pass mp body (mp.pages * chunks mp + 1) mem = some ((offsets mp).foldl body (mem, [])) := by
  have hvisits := visits_chunks hshift hlen _ 0 (Nat.zero_add _)
  rw [← List.range_eq_range', ← offsets_eq hshift] at hvisits
  have hloop : forLoop _ _ body _ _ _ = _ := hvisits.forLoop (mem, [])
  rw [offsets_eq hshift, List.length_map, List.length_range, ← offsets_eq hshift] at hloop
  exact hloop

end Loop

section Pages
variable {mp : FaultRange} {p : ℕ}

theorem page_chunk (hshift : 10 ≤ mp.shift) (hp : p < mp.pages) {l : ℤ} (hl : l ∈ block mp p)
    {k : ℕ} (hk : k < 1024) : (mp.pager letter).page (l + k) = firstPage mp + p := by
  obtain ⟨i, hi, rfl⟩ := List.mem_map.mp hl
  have hi := List.mem_range.mp hi
  have hin : 1024 * i + k < mp.pageSize := by
    rw [pageSize_eq hshift]
    omega
  have hend : (p + 1) * mp.pageSize ≤ mp.len := Nat.mul_le_mul_right _ hp
  have hcast : (((p * mp.pageSize + 1024 * i : ℕ) : ℤ) + (k : ℤ)) =
      ((p * mp.pageSize + (1024 * i + k) : ℕ) : ℤ) := by
    push_cast
    ring
  rw [hcast, FaultRange.page_eq letter (by rw [Nat.succ_mul] at hend; omega), firstPage,
    Nat.mul_comm p, Nat.mul_add_div mp.pageSize_pos, Nat.div_eq_of_lt hin, Nat.add_zero]

theorem page_block (hshift : 10 ≤ mp.shift) (hp : p < mp.pages) {l : ℤ} (hl : l ∈ block mp p) :
    (mp.pager letter).page l = firstPage mp + p := by
  have h := page_chunk hshift hp hl (k := 0) (by norm_num)
  rwa [Nat.cast_zero, add_zero] at h

theorem block_ne_nil (mp : FaultRange) (p : ℕ) : block mp p ≠ [] := by
  rw [block, Ne, List.map_eq_nil_iff, List.range_eq_nil]
  exact Nat.ne_of_gt (Nat.two_pow_pos _)

end Pages

section Reading
variable {mp : FaultRange} {mem : Memory}

theorem readLine_of_shows {l : ℤ} {c : UInt8} (h : (mp.pager letter).Shows mem l c)
    (out : List (BitVec 64 × UInt8)) :
    readLine mp (mem, out) l = (mem, out ++ [(mp.address l, c)]) := by
  rw [readLine, h.read]

/-- Reading what is present changes nothing. -/
theorem foldl_readLine {ls : List ℤ} {c : UInt8}
    (h : ∀ l ∈ ls, (mp.pager letter).Shows mem l c) (out : List (BitVec 64 × UInt8)) :
    ls.foldl (readLine mp) (mem, out) = (mem, out ++ ls.map fun l => (mp.address l, c)) := by
  induction ls generalizing out with
  | nil => simp
  | cons l ls ih =>
      rw [List.foldl_cons, readLine_of_shows (h l List.mem_cons_self),
        ih fun l hl => h l (List.mem_cons_of_mem _ hl), List.map_cons, List.append_assoc,
        List.singleton_append]

/-- The offsets visited in the first `n` pages show `c`. -/
def Filled (mp : FaultRange) (mem : Memory) (n : ℕ) (c : ℕ → UInt8) : Prop :=
  ∀ p < n, ∀ l ∈ block mp p, (mp.pager letter).Shows mem l (c p)

theorem read_filled {c : ℕ → UInt8} (h : Filled mp mem (mp.pages) c) :
    (offsets mp).foldl (readLine mp) (mem, []) = (mem, lines mp c) := by
  have hpages : ∀ n ≤ mp.pages, ((List.range n).flatMap (block mp)).foldl (readLine mp)
      (mem, []) = (mem, (List.range n).flatMap fun p =>
        (block mp p).map fun l => (mp.address l, c p)) := by
    intro n hn
    induction n with
    | zero => rfl
    | succ n ih =>
        rw [List.range_succ, List.flatMap_append, List.flatMap_singleton, List.foldl_append,
          ih (by omega), foldl_readLine (h n (by omega)), List.flatMap_append,
          List.flatMap_singleton]
  exact hpages _ (Nat.le_refl _)

/-- The first byte of a page faults, the others are read from what the handler copied. -/
theorem read_block {p : ℕ} (hpage : ∀ l ∈ block mp p, (mp.pager letter).page l = firstPage mp + p)
    (habsent : mem.present (firstPage mp + p) = false) (out : List (BitVec 64 × UInt8)) :
    ∃ l ∈ block mp p, (block mp p).foldl (readLine mp) (mem, out) =
      ((mp.pager letter).touch mem l,
        out ++ (block mp p).map fun l => (mp.address l, letter mem.faults)) := by
  obtain ⟨l, rest, hblock⟩ := List.exists_cons_of_ne_nil (block_ne_nil mp p)
  have hl : l ∈ block mp p := by rw [hblock]; exact List.mem_cons_self
  have hfirst : readLine mp (mem, out) l = readLine mp ((mp.pager letter).touch mem l, out) l := by
    rw [readLine, readLine, Pager.read, Pager.read, Pager.touch_touch]
  have hshows : ∀ b ∈ block mp p,
      (mp.pager letter).Shows ((mp.pager letter).touch mem l) b (letter mem.faults) := by
    intro b hb
    exact Pager.shows_touch (by rw [hpage l hl, habsent]) (by rw [hpage b hb, hpage l hl])
  have hread := foldl_readLine hshows out
  refine ⟨l, hl, ?_⟩
  rw [← hread, hblock, List.foldl_cons, hfirst, List.foldl_cons]

/-- Reading when nothing is present. -/
theorem read_absent (hshift : 10 ≤ mp.shift) {base : ℕ} (h : mem.Resident base ∅) :
    ∃ mem', (offsets mp).foldl (readLine mp) (mem, []) =
        (mem', lines mp fun p => letter (base + p)) ∧
      mem'.Resident base (Finset.Ico (firstPage mp) (firstPage mp + mp.pages)) ∧
      Filled mp mem' (mp.pages) fun p => letter (base + p) := by
  have hpages : ∀ n ≤ mp.pages, ∃ mem', ((List.range n).flatMap (block mp)).foldl
        (readLine mp) (mem, []) = (mem', (List.range n).flatMap fun p =>
          (block mp p).map fun l => (mp.address l, letter (base + p))) ∧
      mem'.Resident base (Finset.Ico (firstPage mp) (firstPage mp + n)) ∧
      Filled mp mem' n fun p => letter (base + p) := by
    intro n hn
    induction n with
    | zero => exact ⟨mem, rfl, by simpa using h, fun p hp => absurd hp (Nat.not_lt_zero p)⟩
    | succ n ih =>
        obtain ⟨mem', hfold, hres, hfilled⟩ := ih (by omega)
        have habsent : mem'.present (firstPage mp + n) = false := by
          rw [Bool.eq_false_iff, Ne, hres.present]
          simp
        have hfaults : mem'.faults = base + n := by simpa using hres.faults
        obtain ⟨l, hl, hblock⟩ := read_block (fun l hl => page_block hshift hn hl) habsent
          ((List.range n).flatMap fun p =>
            (block mp p).map fun l => (mp.address l, letter (base + p)))
        refine ⟨(mp.pager letter).touch mem' l, ?_, ?_, ?_⟩
        · rw [List.range_succ, List.flatMap_append, List.flatMap_singleton, List.foldl_append,
            hfold, hblock, List.flatMap_append, List.flatMap_singleton, hfaults]
        · have htouch := hres.touch (mp.pager letter) l
          rwa [page_block hshift hn hl,
            ← Nat.Ico_succ_right_eq_insert_Ico (Nat.le_add_right _ _)] at htouch
        · intro p hp b hb
          rcases Nat.lt_succ_iff_lt_or_eq.mp hp with hlt | rfl
          · exact (hfilled p hlt b hb).touch l
          · have hshow : (mp.pager letter).Shows ((mp.pager letter).touch mem' l) b
                (letter mem'.faults) := Pager.shows_touch
              (by rw [page_block hshift hn hl, habsent])
              (by rw [page_block hshift hn hl, page_block hshift hn hb])
            rw [hfaults] at hshow
            exact hshow
  exact hpages _ (Nat.le_refl _)

end Reading

section Writing
variable {mp : FaultRange} {mem : Memory} {c : UInt8}

/-- What shows the character goes on to show it. -/
theorem shows_setChunk {l : ℤ} (h : (mp.pager letter).Shows mem l c) (b : ℤ) :
    (mp.pager letter).Shows (setChunk mp c mem b) l c := by
  unfold setChunk
  induction List.range 1024 generalizing mem with
  | nil => exact h
  | cons k ks ih =>
      rw [List.foldl_cons]
      apply ih
      by_cases he : l = b + k
      · rw [he]
        exact Pager.shows_write _ c
      · exact h.write he

theorem setChunk_cons (mem : Memory) (l : ℤ) :
    setChunk mp c mem l = ((List.range 1023).map Nat.succ).foldl
      (fun mem (k : ℕ) => (mp.pager letter).write mem (l + k) c)
      ((mp.pager letter).write mem l c) := by
  rw [setChunk, List.range_succ_eq_map, List.foldl_cons, Nat.cast_zero, add_zero]

theorem setChunk_shows (l : ℤ) : (mp.pager letter).Shows (setChunk mp c mem l) l c := by
  have hfirst : (mp.pager letter).Shows ((mp.pager letter).write mem l c) l c :=
    Pager.shows_write l c
  rw [setChunk_cons]
  generalize (mp.pager letter).write mem l c = mem' at hfirst
  generalize (List.range 1023).map Nat.succ = ks
  induction ks generalizing mem' with
  | nil => exact hfirst
  | cons k ks ih =>
      rw [List.foldl_cons]
      apply ih
      by_cases he : l = l + k
      · rw [← he]
        exact Pager.shows_write l c
      · exact hfirst.write he

theorem writeLine_eq (mem : Memory) (out : List (BitVec 64 × UInt8)) (l : ℤ) :
    writeLine mp c (mem, out) l = (setChunk mp c mem l, out ++ [(mp.address l, c)]) :=
  readLine_of_shows (setChunk_shows l) out

/-- A chunk lies in one page. -/
theorem resident_setChunk (hshift : 10 ≤ mp.shift) {base p : ℕ} {F : Finset ℕ}
    (h : mem.Resident base F) (hp : p < mp.pages) {l : ℤ} (hl : l ∈ block mp p) :
    (setChunk mp c mem l).Resident base (insert (firstPage mp + p) F) := by
  have hfirst := h.write (mp.pager letter) l c
  rw [page_block hshift hp hl] at hfirst
  rw [setChunk_cons]
  have hks : ∀ k ∈ (List.range 1023).map Nat.succ, k < 1024 := by
    intro k hk
    obtain ⟨j, hj, rfl⟩ := List.mem_map.mp hk
    exact Nat.succ_lt_succ (List.mem_range.mp hj)
  generalize (mp.pager letter).write mem l c = mem' at hfirst
  generalize (List.range 1023).map Nat.succ = ks at hks
  induction ks generalizing mem' with
  | nil => exact hfirst
  | cons k ks ih =>
      rw [List.foldl_cons]
      apply ih
      · have hnext := hfirst.write (mp.pager letter) (l + k) c
        rwa [page_chunk hshift hp hl (hks k List.mem_cons_self),
          Finset.insert_eq_of_mem (Finset.mem_insert_self _ _)] at hnext
      · exact fun k hk => hks k (List.mem_cons_of_mem _ hk)

theorem foldl_writeLine (ls : List ℤ) (mem : Memory) (out : List (BitVec 64 × UInt8)) :
    ls.foldl (writeLine mp c) (mem, out) =
      (ls.foldl (setChunk mp c) mem, out ++ ls.map fun l => (mp.address l, c)) := by
  induction ls generalizing mem out with
  | nil => simp
  | cons l ls ih =>
      rw [List.foldl_cons, writeLine_eq, ih, List.foldl_cons, List.map_cons, List.append_assoc,
        List.singleton_append]

theorem shows_foldl_setChunk {ls : List ℤ} {l : ℤ}
    (h : l ∈ ls ∨ (mp.pager letter).Shows mem l c) :
    (mp.pager letter).Shows (ls.foldl (setChunk mp c) mem) l c := by
  induction ls generalizing mem with
  | nil => exact h.resolve_left List.not_mem_nil
  | cons b ls ih =>
      rw [List.foldl_cons]
      apply ih
      rcases h with hmem | hshow
      · rcases List.mem_cons.mp hmem with rfl | hmem
        · exact .inr (setChunk_shows l)
        · exact .inl hmem
      · exact .inr (shows_setChunk hshow b)

theorem resident_block (hshift : 10 ≤ mp.shift) {base p : ℕ} {F : Finset ℕ}
    (h : mem.Resident base F) (hp : p < mp.pages) {ls : List ℤ} (hls : ls ⊆ block mp p)
    (hne : ls ≠ []) :
    (ls.foldl (setChunk mp c) mem).Resident base (insert (firstPage mp + p) F) := by
  induction ls generalizing mem F with
  | nil => exact absurd rfl hne
  | cons l ls ih =>
      have hfirst := resident_setChunk (c := c) hshift h hp (hls List.mem_cons_self)
      rw [List.foldl_cons]
      cases ls with
      | nil => rwa [List.foldl_nil]
      | cons b ls =>
          have hrest := ih hfirst (fun x hx => hls (List.mem_cons_of_mem l hx))
            (List.cons_ne_nil b ls)
          rwa [Finset.insert_eq_of_mem (Finset.mem_insert_self _ _)] at hrest

/-- Writing brings in the pages that are not present. -/
theorem write_pass (hshift : 10 ≤ mp.shift) {base : ℕ} {F : Finset ℕ} (h : mem.Resident base F)
    (c : UInt8) :
    ∃ mem', (offsets mp).foldl (writeLine mp c) (mem, []) = (mem', lines mp fun _ => c) ∧
      mem'.Resident base (F ∪ Finset.Ico (firstPage mp) (firstPage mp + mp.pages)) ∧
      Filled mp mem' (mp.pages) fun _ => c := by
  refine ⟨(offsets mp).foldl (setChunk mp c) mem, ?_, ?_, ?_⟩
  · rw [foldl_writeLine, List.nil_append, offsets, lines, List.map_flatMap]
  · have hpages : ∀ n ≤ mp.pages,
        (((List.range n).flatMap (block mp)).foldl (setChunk mp c) mem).Resident base
          (F ∪ Finset.Ico (firstPage mp) (firstPage mp + n)) := by
      intro n hn
      induction n with
      | zero => simpa using h
      | succ n ih =>
          have hblock := resident_block (c := c) hshift (ih (by omega)) hn (List.Subset.refl _)
            (block_ne_nil mp n)
          rw [List.range_succ, List.flatMap_append, List.flatMap_singleton, List.foldl_append]
          rwa [← Finset.union_insert,
            ← Nat.Ico_succ_right_eq_insert_Ico (Nat.le_add_right _ _)] at hblock
    exact hpages _ (Nat.le_refl _)
  · intro p hp l hl
    apply shows_foldl_setChunk
    exact .inl (List.mem_flatMap.mpr ⟨p, List.mem_range.mpr hp, hl⟩)

end Writing

theorem dontNeed_resident {mp : FaultRange} {mem : Memory} {base : ℕ}
    (h : mem.Resident base (Finset.Ico (firstPage mp) (firstPage mp + mp.pages))) :
    (dontNeed mp mem).Resident (base + mp.pages) ∅ := by
  have hall : ∀ p ∈ Finset.Ico (firstPage mp) (firstPage mp + mp.pages),
      decide (firstPage mp ≤ p ∧ p < firstPage mp + mp.pages) := by
    intro p hp
    exact decide_eq_true (Finset.mem_Ico.mp hp)
  have hdrop := h.drop_all hall
  rw [h.faults, Nat.card_Ico, Nat.add_sub_cancel_left] at hdrop
  exact hdrop

theorem demo_lines (mp : FaultRange) (hshift : 10 ≤ mp.shift) (hlen : mp.len < 2 ^ 31)
    (mem : ℤ → UInt8) :
    let v := mp.pages
    ∃ fuel, demo mp fuel (.mapped mem) = some
      [(lines mp letter, v), (lines mp letter, v),
        (lines mp fun p => letter (v + p), 2 * v), (lines mp fun p => letter (v + p), 2 * v),
        (lines mp fun _ => 64, 3 * v), (lines mp fun _ => 64, 3 * v),
        (lines mp fun _ => 94, 3 * v), (lines mp fun _ => 94, 3 * v)] := by
  intro v
  obtain ⟨one, hone, hres, hfill⟩ := read_absent hshift (PagedMemory.Resident.mapped mem)
  have htwo := read_filled hfill
  have honefaults : one.faults = v := by simpa using hres.faults
  obtain ⟨three, hthree, hres, hfill⟩ := read_absent hshift (dontNeed_resident hres)
  have hfour := read_filled hfill
  have hthreefaults : three.faults = 2 * v := by
    have hfaults := hres.faults
    rw [Nat.card_Ico] at hfaults
    omega
  obtain ⟨five, hfive, hres, hfill⟩ := write_pass hshift (dontNeed_resident hres) 64
  have hsix := read_filled hfill
  have hfivefaults : five.faults = 3 * v := by
    have hfaults := hres.faults
    rw [Finset.empty_union, Nat.card_Ico] at hfaults
    omega
  obtain ⟨seven, hseven, hres, hfill⟩ := write_pass hshift hres 94
  have height := read_filled hfill
  have hsevenfaults : seven.faults = 3 * v := by
    have hfaults := hres.faults
    rw [Finset.empty_union, Finset.union_self, Nat.card_Ico] at hfaults
    omega
  refine ⟨mp.pages * chunks mp + 1, ?_⟩
  simp only [demo, pass_eq hshift hlen, hone, htwo, hthree, hfour, hfive, hsix, hseven, height,
    Option.bind_eq_bind, Option.bind_some, Option.pure_def, List.map_cons, List.map_nil,
    honefaults, hthreefaults, hfivefaults, hsevenfaults, zero_add]
  rfl

theorem demo_lines_twoPages :
    ∃ fuel, demo twoPageRange fuel (.mapped fun _ => 0) = some
      [(lines twoPageRange letter, 2), (lines twoPageRange letter, 2),
        (lines twoPageRange fun p => letter (2 + p), 4),
        (lines twoPageRange fun p => letter (2 + p), 4),
        (lines twoPageRange fun _ => 64, 6), (lines twoPageRange fun _ => 64, 6),
        (lines twoPageRange fun _ => 94, 6), (lines twoPageRange fun _ => 94, 6)] :=
  demo_lines twoPageRange (by decide) (by decide) fun _ => 0

end OperatingSystems.Uffd
