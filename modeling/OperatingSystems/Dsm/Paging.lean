import OperatingSystems.Dsm.LocalStore
import OperatingSystems.Uffd.FaultHandler

/-!
# The region is filled by page faults

The region of s2dsm is registered with `userfaultfd`: its first access and the first
after `madvise(MADV_DONTNEED)` fault, the handler prints a line and copies a page of
zeros. The other modules take the region to be flat, with zeros where nothing was
written, and an invalidated page to be zeroed at once.

`PagedOp` are the accesses that the program makes to the region. They show the same
texts in both memories, and a page faults when it is accessed for the first time or for
the first time since it was invalidated.
-/
namespace OperatingSystems.Dsm
open Library Uffd

abbrev PagedRegion := PagedMemory ℤ ℕ UInt8

/-- `sprintf` with `"%s"`, `strcpy` byte by byte, and `madvise` on one page. -/
inductive PagedOp where
  | print (i : ℤ)
  | store (i : ℤ) (message : CString)
  | invalidate (i : ℤ)
deriving DecidableEq

namespace PagedOp

def page : PagedOp → ℤ
  | .print i | .store i _ | .invalidate i => i

/-- The text that an operation shows in the flat memory, and the memory after it. -/
def run (r : Region) (mem : ℤ → UInt8) : PagedOp → Option (List UInt8) × (ℤ → UInt8)
  | .print i => (some (r.pageText mem i).bytes, mem)
  | .store i message => (none, r.copyMessage message mem i)
  | .invalidate i => (none, r.dontNeed mem i)

def Fits (r : Region) : PagedOp → Prop
  | .print i | .invalidate i => r.IsPage i
  | .store i message => r.IsPage i ∧ message.strlen < r.pageSize

instance (r : Region) : DecidablePred (Fits r)
  | .print i | .invalidate i => inferInstanceAs (Decidable (r.IsPage i))
  | .store i m => inferInstanceAs (Decidable (r.IsPage i ∧ m.strlen < r.pageSize))

end PagedOp

def runOps {σ : Type*} (run : σ → PagedOp → Option (List UInt8) × σ) :
    σ → List PagedOp → List (List UInt8) × σ
  | s, [] => ([], s)
  | s, op :: ops =>
      let (text, s) := run s op
      let (texts, s) := runOps run s ops
      (text.toList ++ texts, s)

section Paged
variable (mp : FaultRange)

/-- `memset(page, 0, page_size)` -/
def zeroPager : Pager ℤ ℕ UInt8 := mp.pager fun _ => 0

def pagedReadBytes (s : PagedRegion) (addr : ℤ) : ℕ → List UInt8 × PagedRegion
  | 0 => ([], s)
  | n + 1 =>
      let (b, s) := (zeroPager mp).read s addr
      if b = 0 then ([], s) else
        let (bs, s) := pagedReadBytes s (addr + 1) n
        (b :: bs, s)

def pagedWriteBytes (s : PagedRegion) (l : ℤ) : List UInt8 → PagedRegion
  | [] => (zeroPager mp).write s l 0
  | b :: bs => pagedWriteBytes ((zeroPager mp).write s l b) (l + 1) bs

/-- `madvise(addr + i * page_size, page_size, MADV_DONTNEED)` drops the page there. -/
def pagedDontNeed (r : Region) (s : PagedRegion) (i : ℤ) : PagedRegion :=
  s.drop fun p => decide (p = (zeroPager mp).page (r.pageOffset i))

def PagedOp.runPaged (r : Region) (s : PagedRegion) :
    PagedOp → Option (List UInt8) × PagedRegion
  | .print i =>
      let (text, s) := pagedReadBytes mp s (r.pageOffset i) (r.len - r.pageOffset i).toNat
      (some text, s)
  | .store i message => (none, pagedWriteBytes mp s (r.pageOffset i) message.bytes)
  | .invalidate i => (none, pagedDontNeed mp r s i)

end Paged

/-- The region of a mapping. -/
def regionOf (mp : FaultRange) : Region := ⟨mp.pageSize, mp.pages, mp.pages_pos⟩

/-- No access since the page was mapped or invalidated; the newest operation first. -/
def fresh (i : ℤ) : List PagedOp → Bool
  | [] => true
  | .invalidate j :: done => if j = i then true else fresh i done
  | .print j :: done | .store j _ :: done => if j = i then false else fresh i done

def faultCount : List PagedOp → ℕ
  | [] => 0
  | .invalidate _ :: done => faultCount done
  | .print i :: done | .store i _ :: done => faultCount done + if fresh i done then 1 else 0

theorem readBytes_congr {mem mem' : ℤ → UInt8} {addr : ℤ} {n : ℕ}
    (h : ∀ k < n, mem (addr + k) = mem' (addr + k)) :
    readBytes mem addr n = readBytes mem' addr n := by
  induction n generalizing addr with
  | zero => rfl
  | succ n ih =>
      have hfirst : mem addr = mem' addr := by simpa using h 0 (Nat.succ_pos n)
      have hrest : readBytes mem (addr + 1) n = readBytes mem' (addr + 1) n := by
        apply ih
        intro k hk
        have hk' := h (k + 1) (Nat.succ_lt_succ hk)
        rwa [Nat.cast_succ, ← add_assoc, add_right_comm] at hk'
      rw [readBytes, readBytes, hfirst, hrest]

section Bytes
variable {mp : FaultRange} {s : PagedRegion}

theorem zeroPager_uniform (mp : FaultRange) : (zeroPager mp).Uniform 0 := fun _ => rfl

theorem pagedReadBytes_flat (mp : FaultRange) (s : PagedRegion) (addr : ℤ) (n : ℕ) :
    (pagedReadBytes mp s addr n).1 = readBytes ((zeroPager mp).flat 0 s) addr n ∧
      (zeroPager mp).flat 0 (pagedReadBytes mp s addr n).2 = (zeroPager mp).flat 0 s := by
  induction n generalizing s addr with
  | zero => exact ⟨rfl, rfl⟩
  | succ n ih =>
      have hbyte := Pager.read_fst (s := s) (zeroPager_uniform mp) addr
      have hflat := Pager.flat_read (s := s) (zeroPager_uniform mp) addr
      obtain ⟨htexts, hmem⟩ := ih ((zeroPager mp).read s addr).2 (addr + 1)
      rw [hflat] at htexts hmem
      rw [pagedReadBytes, readBytes]
      dsimp only
      rw [hbyte]
      split_ifs with hzero
      · exact ⟨rfl, hflat⟩
      · exact ⟨by rw [htexts], hmem⟩

theorem pagedWriteBytes_flat (s : PagedRegion) (l : ℤ) (bs : List UInt8) :
    (zeroPager mp).flat 0 (pagedWriteBytes mp s l bs) =
      writeBytes ((zeroPager mp).flat 0 s) l bs := by
  induction bs generalizing s l with
  | nil => exact Pager.flat_write (zeroPager_uniform mp) l 0
  | cons b bs ih =>
      rw [pagedWriteBytes, ih, Pager.flat_write (zeroPager_uniform mp)]
      rfl

/-- Reading a text that ends in the page accesses nothing else. -/
theorem resident_pagedReadBytes {base m n p : ℕ} {F : Finset ℕ} {addr : ℤ}
    (h : s.Resident base F) (hpage : ∀ k ≤ m, (zeroPager mp).page (addr + k) = p)
    (hnul : (zeroPager mp).flat 0 s (addr + m) = 0) (hn : 0 < n) :
    (pagedReadBytes mp s addr n).2.Resident base (insert p F) := by
  induction n generalizing s addr m F with
  | zero => exact absurd hn (Nat.lt_irrefl 0)
  | succ n ih =>
      have hread := h.read (zeroPager mp) addr
      have hfirst : (zeroPager mp).page addr = p := by simpa using hpage 0 (Nat.zero_le m)
      rw [hfirst] at hread
      rw [pagedReadBytes]
      dsimp only
      rw [Pager.read_fst (zeroPager_uniform mp)]
      split_ifs with hzero
      · exact hread
      · cases m with
        | zero => exact absurd (by simpa using hnul) hzero
        | succ m =>
            rcases Nat.eq_zero_or_pos n with rfl | hpos
            · exact hread
            · have hpage' : ∀ k ≤ m, (zeroPager mp).page (addr + 1 + k) = p := by
                intro k hk
                have hk' := hpage (k + 1) (Nat.succ_le_succ hk)
                rwa [Nat.cast_succ, ← add_assoc, add_right_comm] at hk'
              have hnul' : (zeroPager mp).flat 0 ((zeroPager mp).read s addr).2 (addr + 1 + m) =
                  0 := by
                rw [Pager.flat_read (zeroPager_uniform mp), add_right_comm, add_assoc]
                exact hnul
              have hrest := ih hread hpage' hnul' hpos
              rwa [Finset.insert_idem] at hrest

theorem resident_pagedWriteBytes {base p : ℕ} {F : Finset ℕ} {l : ℤ} {bs : List UInt8}
    (h : s.Resident base F) (hpage : ∀ k ≤ bs.length, (zeroPager mp).page (l + k) = p) :
    (pagedWriteBytes mp s l bs).Resident base (insert p F) := by
  have hfirst : (zeroPager mp).page l = p := by simpa using hpage 0 (Nat.zero_le _)
  induction bs generalizing s l F with
  | nil =>
      have hwrite := h.write (zeroPager mp) l 0
      rwa [hfirst] at hwrite
  | cons b bs ih =>
      have hwrite := h.write (zeroPager mp) l b
      rw [hfirst] at hwrite
      have hshift : ∀ k ≤ bs.length, (zeroPager mp).page (l + 1 + k) = p := by
        intro k hk
        have hk' := hpage (k + 1) (Nat.succ_le_succ hk)
        rwa [Nat.cast_succ, ← add_assoc, add_right_comm] at hk'
      have hrest := ih hwrite hshift (by simpa using hshift 0 (Nat.zero_le _))
      rwa [Finset.insert_idem] at hrest

end Bytes

section Pages
variable {mp : FaultRange} (ha : (regionOf mp).Addressable) {i : ℤ}
  (hi : (regionOf mp).IsPage i)
include ha hi

theorem page_region {a : ℕ} (hlt : a < (regionOf mp).len) :
    (zeroPager mp).page a = mp.addr.toNat / mp.pageSize + i.toNat ↔
      (regionOf mp).pageOffset i ≤ a ∧ a < (regionOf mp).pageOffset i + mp.pageSize := by
  have hps := mp.pageSize_pos
  obtain ⟨n, rfl⟩ := Int.eq_ofNat_of_zero_le hi.1
  have hoff : (regionOf mp).pageOffset n = (n * mp.pageSize : ℕ) := by
    rw [Region.pageOffset_eq ha hi]
    push_cast
    rfl
  have hpage : (zeroPager mp).page a = mp.addr.toNat / mp.pageSize + a / mp.pageSize :=
    FaultRange.page_eq _ hlt
  rw [hpage, hoff, Int.toNat_natCast, Nat.add_left_cancel_iff, Nat.div_eq_iff hps]
  omega

theorem page_offset {k : ℕ} (hk : k < mp.pageSize) :
    (zeroPager mp).page ((regionOf mp).pageOffset i + k) =
      mp.addr.toNat / mp.pageSize + i.toNat := by
  obtain ⟨h0, hend⟩ := Region.page_end_le hi
  have hoff := Region.pageOffset_eq ha hi
  have hps : (regionOf mp).pageSize = mp.pageSize := rfl
  rw [hps] at h0 hend hoff
  obtain ⟨off, he⟩ := Int.eq_ofNat_of_zero_le h0
  have hcast : (regionOf mp).pageOffset i + (k : ℤ) = ((off + k : ℕ) : ℤ) := by
    rw [hoff, he]
    push_cast
    rfl
  rw [hcast, page_region ha hi (by omega), hoff, he]
  omega

end Pages

/-- The faulting memory, the flat one, and the operations so far, the newest first. -/
structure Mirrors (mp : FaultRange) (s : PagedRegion) (mem : ℤ → UInt8)
    (done : List PagedOp) : Prop where
  agree : ∀ a : ℕ, a < (regionOf mp).len → (zeroPager mp).flat 0 s a = mem a
  texts : ∃ texts, (regionOf mp).Represents mem texts
  resident : ∃ base F, s.Resident base F ∧ ∀ i, (regionOf mp).IsPage i →
    (mp.addr.toNat / mp.pageSize + i.toNat ∈ F ↔ fresh i done = false)
  faults : s.faults = faultCount done

section Access
variable {mp : FaultRange} {s : PagedRegion} {mem : ℤ → UInt8}
  {done : List PagedOp} {i : ℤ}

theorem fresh_access {op : PagedOp} (hop : op = .print i ∨ ∃ message, op = .store i message)
    (j : ℤ) : fresh j (op :: done) = if i = j then false else fresh j done := by
  rcases hop with rfl | ⟨message, rfl⟩
  · rfl
  · rfl

theorem faultCount_access {op : PagedOp} (hop : op = .print i ∨ ∃ message, op = .store i message) :
    faultCount (op :: done) = faultCount done + if fresh i done then 1 else 0 := by
  rcases hop with rfl | ⟨message, rfl⟩
  · rfl
  · rfl

/-- Page numbers of different pages are different. -/
theorem toNat_ne {i j : ℤ} (hi : (regionOf mp).IsPage i) (hj : (regionOf mp).IsPage j)
    (hne : i ≠ j) : j.toNat ≠ i.toNat := by
  have h₀ := hi.1
  have h₁ := hj.1
  omega

/-- An access to one page brings it in if it is not there. -/
theorem Mirrors.counts (h : Mirrors mp s mem done) (hi : (regionOf mp).IsPage i)
    (s' : PagedRegion) (hs : ∀ base F, s.Resident base F →
      s'.Resident base (insert (mp.addr.toNat / mp.pageSize + i.toNat) F))
    (op : PagedOp) (hop : op = .print i ∨ ∃ message, op = .store i message) :
    (∃ base F, s'.Resident base F ∧ ∀ j, (regionOf mp).IsPage j →
      (mp.addr.toNat / mp.pageSize + j.toNat ∈ F ↔ fresh j (op :: done) = false)) ∧
      s'.faults = faultCount (op :: done) := by
  obtain ⟨base, F, hres, hfresh⟩ := h.resident
  have hres' := hs base F hres
  constructor
  · refine ⟨base, _, hres', ?_⟩
    intro j hj
    rw [fresh_access hop, Finset.mem_insert]
    by_cases he : i = j
    · subst he
      simp
    · rw [if_neg he, hfresh j hj]
      simp [toNat_ne hi hj he]
  · rw [faultCount_access hop, ← h.faults, hres'.faults, hres.faults]
    by_cases hin : mp.addr.toNat / mp.pageSize + i.toNat ∈ F
    · rw [Finset.insert_eq_of_mem hin, (hfresh i hi).mp hin]
      simp
    · have hnew : fresh i done = true := by
        rw [← Bool.not_eq_false, ← hfresh i hi]
        exact hin
      rw [Finset.card_insert_of_notMem hin, hnew, if_pos rfl, Nat.add_assoc]

variable (ha : (regionOf mp).Addressable)
include ha

theorem Mirrors.print (h : Mirrors mp s mem done) (hi : (regionOf mp).IsPage i) :
    (PagedOp.runPaged mp (regionOf mp) s (.print i)).1 = some ((regionOf mp).pageText mem i).bytes ∧
      Mirrors mp (PagedOp.runPaged mp (regionOf mp) s (.print i)).2 mem (.print i :: done) := by
  obtain ⟨texts, hrep⟩ := h.texts
  have hholds := hrep i hi
  obtain ⟨h0, hend⟩ := Region.page_end_le hi
  have hoff := Region.pageOffset_eq ha hi
  have hps := ha.pageSize_pos
  obtain ⟨off, he⟩ := Int.eq_ofNat_of_zero_le h0
  have hread : ∀ k : ℕ, off + k < (regionOf mp).len →
      (zeroPager mp).flat 0 s ((regionOf mp).pageOffset i + k) =
        mem ((regionOf mp).pageOffset i + k) := by
    intro k hk
    have hcast : (regionOf mp).pageOffset i + (k : ℤ) = ((off + k : ℕ) : ℤ) := by
      rw [hoff, he]
      push_cast
      rfl
    rw [hcast]
    exact h.agree _ hk
  obtain ⟨htext, hflat⟩ := pagedReadBytes_flat mp s ((regionOf mp).pageOffset i)
    ((regionOf mp).len - (regionOf mp).pageOffset i).toNat
  have hnul : (zeroPager mp).flat 0 s ((regionOf mp).pageOffset i + (texts i).strlen) = 0 := by
    have hfits := hholds.1
    rw [hread _ (by omega), hholds.2 _ (Nat.le_refl _), CString.byteAt_strlen]
  obtain ⟨hres, hfaults⟩ := h.counts hi (PagedOp.runPaged mp (regionOf mp) s (.print i)).2
    (fun base F hF => resident_pagedReadBytes hF
      (fun k hk => page_offset ha hi (Nat.lt_of_le_of_lt hk hholds.1)) hnul (by omega))
    (.print i) (.inl rfl)
  refine ⟨?_, ⟨?_, ⟨texts, hrep⟩, hres, hfaults⟩⟩
  · change some (pagedReadBytes mp s _ _).1 = _
    rw [htext]
    exact congrArg some (readBytes_congr fun k hk => hread k (by omega))
  · intro a hlt
    change (zeroPager mp).flat 0 (pagedReadBytes mp s _ _).2 a = _
    rw [hflat]
    exact h.agree a hlt

theorem Mirrors.store (h : Mirrors mp s mem done) (hi : (regionOf mp).IsPage i)
    {message : CString} (hfit : message.strlen < (regionOf mp).pageSize) :
    Mirrors mp (pagedWriteBytes mp s ((regionOf mp).pageOffset i) message.bytes)
      ((regionOf mp).copyMessage message mem i) (.store i message :: done) := by
  obtain ⟨texts, hrep⟩ := h.texts
  obtain ⟨hres, hfaults⟩ := h.counts hi _
    (fun base F hF => resident_pagedWriteBytes hF fun k hk =>
      page_offset ha hi (Nat.lt_of_le_of_lt hk hfit)) (.store i message) (.inr ⟨message, rfl⟩)
  refine ⟨?_, ⟨_, hrep.copyMessage ha hi hfit⟩, hres, hfaults⟩
  intro a hlt
  rw [pagedWriteBytes_flat, Region.copyMessage, writeString_apply, writeBytes_apply,
    h.agree a hlt]
  rfl

theorem Mirrors.invalidate (h : Mirrors mp s mem done) (hi : (regionOf mp).IsPage i) :
    Mirrors mp (pagedDontNeed mp (regionOf mp) s i) ((regionOf mp).dontNeed mem i)
      (.invalidate i :: done) := by
  obtain ⟨texts, hrep⟩ := h.texts
  obtain ⟨base, F, hres, hfresh⟩ := h.resident
  have hps := mp.pageSize_pos
  have hpage := page_offset ha hi hps
  rw [Nat.cast_zero, add_zero] at hpage
  refine ⟨?_, ⟨Function.update texts i CString.empty, ?_⟩, ⟨?_, ?_⟩, h.faults⟩
  · intro a hlt
    rw [pagedDontNeed, Pager.flat_drop, Region.dontNeed, zeroFill, hpage]
    dsimp only
    rw [h.agree a hlt]
    exact if_congr (by rw [decide_eq_true_eq, page_region ha hi hlt]; rfl) rfl rfl
  · intro j hj
    by_cases hji : j = i
    · rw [hji, Function.update_self]
      exact (Region.blank_dontNeed mem i).holds hps
    · rw [Function.update_of_ne hji]
      exact (hrep j hj).congr (Region.samePage_dontNeed ha hi hj (Ne.symm hji) mem)
  · exact base + (F.filter fun p => p = (zeroPager mp).page
      ((regionOf mp).pageOffset i)).card
  · have hdrop := hres.drop fun p =>
      decide (p = (zeroPager mp).page ((regionOf mp).pageOffset i))
    simp only [decide_eq_true_eq] at hdrop
    refine ⟨_, hdrop, ?_⟩
    intro j hj
    rw [hpage, Finset.mem_filter, hfresh j hj, fresh]
    by_cases hji : j = i
    · simp [hji]
    · simp [Ne.symm hji, toNat_ne hi hj (Ne.symm hji)]

end Access

theorem mirrors_mapped (mp : FaultRange) (mem : ℤ → UInt8) :
    Mirrors mp (.mapped mem) (fun _ => 0) [] where
  agree _ _ := rfl
  texts := ⟨fun _ => CString.empty, Region.represents_zero mp.pageSize_pos⟩
  resident := ⟨0, ∅, PagedMemory.Resident.mapped mem, fun i _ => by simp [fresh]⟩
  faults := rfl

theorem Mirrors.run {mp : FaultRange} (ha : (regionOf mp).Addressable) {s : PagedRegion}
    {mem : ℤ → UInt8} {done : List PagedOp} (h : Mirrors mp s mem done) {op : PagedOp}
    (hop : op.Fits (regionOf mp)) :
    (op.runPaged mp (regionOf mp) s).1 = (op.run (regionOf mp) mem).1 ∧
      Mirrors mp (op.runPaged mp (regionOf mp) s).2 (op.run (regionOf mp) mem).2 (op :: done) := by
  cases op with
  | print i => exact h.print ha hop
  | store i message => exact ⟨rfl, h.store ha hop.1 hop.2⟩
  | invalidate i => exact ⟨rfl, h.invalidate ha hop⟩

theorem Mirrors.runOps {mp : FaultRange} (ha : (regionOf mp).Addressable) {s : PagedRegion}
    {mem : ℤ → UInt8} {done ops : List PagedOp} (h : Mirrors mp s mem done)
    (hops : ∀ op ∈ ops, op.Fits (regionOf mp)) :
    (Dsm.runOps (PagedOp.runPaged mp (regionOf mp)) s ops).1 =
        (Dsm.runOps (PagedOp.run (regionOf mp)) mem ops).1 ∧
      Mirrors mp (Dsm.runOps (PagedOp.runPaged mp (regionOf mp)) s ops).2
        (Dsm.runOps (PagedOp.run (regionOf mp)) mem ops).2 (ops.reverse ++ done) := by
  induction ops generalizing s mem done with
  | nil => exact ⟨rfl, h⟩
  | cons op ops ih =>
      obtain ⟨htext, hnext⟩ := h.run ha (hops op List.mem_cons_self)
      obtain ⟨htexts, hend⟩ := ih hnext fun o ho => hops o (List.mem_cons_of_mem op ho)
      rw [List.reverse_cons, List.append_assoc]
      exact ⟨congrArg₂ (fun a b => a.toList ++ b) htext htexts, hend⟩

/-- The texts are those of the flat memory, and a page faults at its first access since it was
mapped or invalidated. -/
theorem paged_region_flat (mp : FaultRange) (hlen : mp.len ≤ 2 ^ 31) (mem : ℤ → UInt8)
    (ops : List PagedOp) (hops : ∀ op ∈ ops, op.Fits (regionOf mp)) :
    let paged := runOps (PagedOp.runPaged mp (regionOf mp)) (.mapped mem) ops
    paged.1 = (runOps (PagedOp.run (regionOf mp)) (fun _ => 0) ops).1 ∧
      paged.2.faults = faultCount ops.reverse := by
  intro paged
  obtain ⟨htexts, hend⟩ := (mirrors_mapped mp mem).runOps ⟨mp.pageSize_pos, hlen⟩ hops
  rw [List.append_nil] at hend
  exact ⟨htexts, hend.faults⟩

theorem paged_region_flat_twoPages :
    let ops : List PagedOp :=
      [.print 0, .store 0 textA, .print 0, .invalidate 0, .print 0, .print 1]
    let paged := runOps (PagedOp.runPaged twoPageRange (regionOf twoPageRange))
      (.mapped fun _ => 7) ops
    paged.1 = (runOps (PagedOp.run (regionOf twoPageRange)) (fun _ => 0) ops).1 ∧
      paged.2.faults = faultCount ops.reverse :=
  paged_region_flat twoPageRange (by decide) _ _ (by decide)

example :
    faultCount [.print 1, .print 0, .invalidate 0, .print 0, .store 0 textA, .print 0] = 3 := by
  decide

/-- The accesses of a command: it stores in each of its pages and then shows each. -/
def Command.ops (r : Region) : Command → List PagedOp
  | .read p => (r.pagesOf p).map .print
  | .write p message => (r.pagesOf p).map (.store · message) ++ (r.pagesOf p).map .print

section Local
variable {r : Region} {mem : ℤ → UInt8}

theorem runOps_append {σ : Type*} (run : σ → PagedOp → Option (List UInt8) × σ) (s : σ)
    (ops ops' : List PagedOp) :
    runOps run s (ops ++ ops') =
      ((runOps run s ops).1 ++ (runOps run (runOps run s ops).2 ops').1,
        (runOps run (runOps run s ops).2 ops').2) := by
  induction ops generalizing s with
  | nil => rfl
  | cons op ops ih => simp only [List.cons_append, runOps, ih, List.append_assoc]

theorem runOps_print (is : List ℤ) (mem : ℤ → UInt8) :
    runOps (PagedOp.run r) mem (is.map .print) =
      (is.map fun i => (r.pageText mem i).bytes, mem) := by
  induction is with
  | nil => rfl
  | cons i is ih =>
      rw [List.map_cons, runOps]
      simp only [PagedOp.run, ih, Option.toList_some, List.singleton_append, List.map_cons]

theorem runOps_store (is : List ℤ) (message : CString) (mem : ℤ → UInt8) :
    runOps (PagedOp.run r) mem (is.map (.store · message)) =
      ([], is.foldl (r.copyMessage message) mem) := by
  induction is generalizing mem with
  | nil => rfl
  | cons i is ih =>
      rw [List.map_cons, runOps]
      simp only [PagedOp.run, ih, Option.toList_none, List.nil_append, List.foldl_cons]

/-- A command is its accesses. -/
theorem runOps_command (c : Command) (mem : ℤ → UInt8) :
    runOps (PagedOp.run r) mem (c.ops r) =
      ((r.execute mem c).2.map fun x => x.2.bytes, (r.execute mem c).1) := by
  cases c with
  | read p =>
      simp only [Command.ops, runOps_print, Region.execute, Region.printPageContents, List.map_map]
      rfl
  | write p message =>
      simp only [Command.ops, runOps_append, runOps_store, runOps_print, Region.execute,
        Region.printPageContents, Region.updatePageContents, List.map_map, List.nil_append]
      rfl

theorem runOps_commands (cmds : List Command) (mem : ℤ → UInt8) :
    (runOps (PagedOp.run r) mem (cmds.flatMap (Command.ops r))).1 =
      (r.transcript mem cmds).flatten.map fun x => x.2.bytes := by
  induction cmds generalizing mem with
  | nil => rfl
  | cons c cmds ih =>
      rw [List.flatMap_cons, runOps_append, runOps_command, ih, Region.transcript,
        List.flatten_cons, List.map_append]

theorem fits_ops {c : Command} (hc : r.Fits c) : ∀ op ∈ c.ops r, op.Fits r := by
  intro op hop
  cases c with
  | read p =>
      obtain ⟨i, hi, rfl⟩ := List.mem_map.mp hop
      exact Region.isPage_of_mem_pagesOf hc hi
  | write p message =>
      rcases List.mem_append.mp hop with hop | hop
      · obtain ⟨i, hi, rfl⟩ := List.mem_map.mp hop
        exact ⟨Region.isPage_of_mem_pagesOf hc.1 hi, hc.2⟩
      · obtain ⟨i, hi, rfl⟩ := List.mem_map.mp hop
        exact Region.isPage_of_mem_pagesOf hc.1 hi

/-- Without invalidations every page that is accessed faults once. -/
theorem fresh_of_accesses {i : ℤ} {done : List PagedOp} (hdone : ∀ op ∈ done, ∀ j,
    op ≠ .invalidate j) : fresh i done = true ↔ i ∉ done.map PagedOp.page := by
  induction done with
  | nil => simp [fresh]
  | cons op done ih =>
      have hrest := ih fun o ho => hdone o (List.mem_cons_of_mem op ho)
      cases op with
      | print j =>
          rw [fresh, List.map_cons, List.mem_cons]
          by_cases he : j = i
          · simp [he, PagedOp.page]
          · simp [he, hrest, PagedOp.page, Ne.symm he]
      | store j message =>
          rw [fresh, List.map_cons, List.mem_cons]
          by_cases he : j = i
          · simp [he, PagedOp.page]
          · simp [he, hrest, PagedOp.page, Ne.symm he]
      | invalidate j => exact absurd rfl (hdone _ List.mem_cons_self j)

theorem faultCount_of_accesses {done : List PagedOp} (hdone : ∀ op ∈ done, ∀ j,
    op ≠ .invalidate j) : faultCount done = (done.map PagedOp.page).toFinset.card := by
  induction done with
  | nil => rfl
  | cons op done ih =>
      have hdone' : ∀ o ∈ done, ∀ j, o ≠ .invalidate j :=
        fun o ho => hdone o (List.mem_cons_of_mem op ho)
      have hfresh := fresh_of_accesses (i := op.page) hdone'
      have hcount : faultCount (op :: done) =
          faultCount done + if fresh op.page done then 1 else 0 := by
        cases op with
        | print j => rfl
        | store j message => rfl
        | invalidate j => exact absurd rfl (hdone _ List.mem_cons_self j)
      rw [hcount, ih hdone', List.map_cons, List.toFinset_cons]
      by_cases hnew : op.page ∈ done.map PagedOp.page
      · rw [Finset.insert_eq_of_mem (List.mem_toFinset.mpr hnew), if_neg (by simp [hfresh, hnew]),
          Nat.add_zero]
      · rw [Finset.card_insert_of_notMem (by simpa using hnew), if_pos (hfresh.mpr hnew)]

theorem map_page_ops (c : Command) (i : ℤ) :
    i ∈ (c.ops r).map PagedOp.page ↔ i ∈ r.pagesOf c.requestPage := by
  cases c with
  | read p => simp [Command.ops, PagedOp.page, Command.requestPage]
  | write p message => simp [Command.ops, PagedOp.page, Command.requestPage]

theorem ops_ne_invalidate (c : Command) : ∀ op ∈ c.ops r, ∀ j, op ≠ .invalidate j := by
  intro op hop j
  cases c with
  | read p =>
      obtain ⟨i, -, rfl⟩ := List.mem_map.mp hop
      exact PagedOp.noConfusion
  | write p message =>
      rcases List.mem_append.mp hop with hop | hop
      · obtain ⟨i, -, rfl⟩ := List.mem_map.mp hop
        exact PagedOp.noConfusion
      · obtain ⟨i, -, rfl⟩ := List.mem_map.mp hop
        exact PagedOp.noConfusion

end Local

/-- Part 1-2 on the faulting region prints what it prints on a flat one, and the handler reports
one fault for each page that a command has covered. -/
theorem local_session_faults (mp : FaultRange) (hlen : mp.len ≤ 2 ^ 31) (mem : ℤ → UInt8)
    (cmds : List Command) (hv : ∀ c ∈ cmds, (regionOf mp).Fits c) :
    let r := regionOf mp
    let paged := runOps (PagedOp.runPaged mp r) (.mapped mem) (cmds.flatMap (Command.ops r))
    paged.1 = (r.transcript (fun _ => 0) cmds).flatten.map (fun x => x.2.bytes) ∧
      paged.2.faults = (cmds.flatMap fun c => r.pagesOf c.requestPage).toFinset.card := by
  intro r paged
  have hops : ∀ op ∈ cmds.flatMap (Command.ops r), op.Fits r := by
    intro op hop
    obtain ⟨c, hc, hop⟩ := List.mem_flatMap.mp hop
    exact fits_ops (hv c hc) op hop
  obtain ⟨htexts, hend⟩ := (mirrors_mapped mp mem).runOps ⟨mp.pageSize_pos, hlen⟩ hops
  rw [runOps_commands] at htexts
  refine ⟨htexts, ?_⟩
  have hnone : ∀ op ∈ (cmds.flatMap (Command.ops r)).reverse, ∀ j, op ≠ .invalidate j := by
    intro op hop
    obtain ⟨c, -, hop⟩ := List.mem_flatMap.mp (List.mem_reverse.mp hop)
    exact ops_ne_invalidate c op hop
  have hfaults := hend.faults
  rw [List.append_nil, faultCount_of_accesses hnone] at hfaults
  rw [hfaults]
  congr 1
  ext i
  rw [List.mem_toFinset, List.mem_toFinset, List.map_reverse, List.mem_reverse, List.map_flatMap,
    List.mem_flatMap, List.mem_flatMap]
  exact exists_congr fun c => and_congr_right fun _ => map_page_ops c i

theorem local_session_faults_twoPages :
    let r := regionOf twoPageRange
    let cmds : List Command := [.read 1, .write (-1) textA, .read 0]
    let paged := runOps (PagedOp.runPaged twoPageRange r) (.mapped fun _ => 7)
      (cmds.flatMap (Command.ops r))
    paged.1 = (r.transcript (fun _ => 0) cmds).flatten.map (fun x => x.2.bytes) ∧
      paged.2.faults = (cmds.flatMap fun c => r.pagesOf c.requestPage).toFinset.card :=
  local_session_faults twoPageRange (by decide) _ _ (by decide)

end OperatingSystems.Dsm
