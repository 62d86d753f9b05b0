import OperatingSystems.Dsm.PageStore
import Mathlib.Data.List.Induction

/-!
# The page store of one process is an array of texts

What the program of Part 1-2 is for: `w` sets the entries that it covers, `r` shows
entries. The memory represents an array of texts if every page holds its entry; what
a longer message left behind the NUL of a shorter one does not matter. Each command
keeps this and prints the entries.
-/
namespace OperatingSystems.Dsm
open Library

abbrev TextArray := ℤ → CString

def TextArray.execute (r : Region) (texts : TextArray) :
    Command → TextArray × List (ℤ × CString)
  | .read p => (texts, (r.pagesOf p).map fun i => (i, texts i))
  | .write p message =>
      let texts : TextArray := fun i => if i ∈ r.pagesOf p then message else texts i
      (texts, (r.pagesOf p).map fun i => (i, texts i))

/-- The message of the last `w` that covered page `p`, or the empty text. -/
def lastMessage (r : Region) (cmds : List Command) (p : ℤ) : CString :=
  (cmds.reverse.findSome? fun c => match c with
    | .read _ => none
    | .write q message => if p ∈ r.pagesOf q then some message else none).getD CString.empty

namespace Region

/-- A message that fits into a page; it may be empty. -/
def Fits (r : Region) : Command → Prop
  | .read p => r.IsRequest p
  | .write p message => r.IsRequest p ∧ message.strlen < r.pageSize

instance (r : Region) : DecidablePred r.Fits
  | .read p => inferInstanceAs (Decidable (r.IsRequest p))
  | .write p m => inferInstanceAs (Decidable (r.IsRequest p ∧ m.strlen < r.pageSize))

/-- The zero-initialised region after the commands. -/
def memAfter (r : Region) (cmds : List Command) : ℤ → UInt8 :=
  cmds.foldl (fun mem c => (r.execute mem c).1) fun _ => 0

def Represents (r : Region) (mem : ℤ → UInt8) (texts : TextArray) : Prop :=
  ∀ i, r.IsPage i → r.Holds mem i (texts i)

variable {r : Region} {mem : ℤ → UInt8} {texts : TextArray}

theorem represents_zero (hps : 0 < r.pageSize) :
    r.Represents (fun _ => 0) fun _ => CString.empty :=
  fun _ _ => Blank.holds (fun _ _ => rfl) hps

theorem Represents.copyMessage (h : r.Represents mem texts) (ha : r.Addressable) {i : ℤ}
    (hi : r.IsPage i) {message : CString} (hm : message.strlen < r.pageSize) :
    r.Represents (r.copyMessage message mem i) (Function.update texts i message) := by
  intro j hj
  by_cases hji : j = i
  · subst hji
    rw [Function.update_self]
    exact holds_copyMessage hm mem j
  · rw [Function.update_of_ne hji]
    exact (h j hj).congr (samePage_copyMessage ha hi hj (Ne.symm hji) hm mem)

/-- The loop over the pages of a `w`. -/
theorem Represents.foldl_copyMessage (h : r.Represents mem texts) (ha : r.Addressable)
    {is : List ℤ} (his : ∀ i ∈ is, r.IsPage i) {message : CString}
    (hm : message.strlen < r.pageSize) :
    r.Represents (is.foldl (r.copyMessage message) mem)
      fun i => if i ∈ is then message else texts i := by
  induction is generalizing mem texts with
  | nil => simpa using h
  | cons i is ih =>
      have hrest := ih (h.copyMessage ha (his i (by simp)) hm) fun j hj => his j (by simp [hj])
      intro j hj
      have hj' := hrest j hj
      by_cases hji : j = i
      · simpa [hji] using hj'
      · simpa [hji, Function.update_of_ne] using hj'

theorem Represents.printPageContents (h : r.Represents mem texts) (ha : r.Addressable) {p : ℤ}
    (hp : r.IsRequest p) :
    r.printPageContents mem p = (r.pagesOf p).map fun i => (i, texts i) := by
  apply List.map_congr_left
  intro i hi
  have hpage := isPage_of_mem_pagesOf hp hi
  rw [pageText_eq ha hpage (h i hpage)]

/-- A command does to the region what it does to the array. -/
theorem execute_refines (h : r.Represents mem texts) (ha : r.Addressable) {c : Command}
    (hc : r.Fits c) :
    r.Represents (r.execute mem c).1 (texts.execute r c).1 ∧
      (r.execute mem c).2 = (texts.execute r c).2 := by
  cases c with
  | read p => exact ⟨h, h.printPageContents ha hc⟩
  | write p message =>
      have hw := h.foldl_copyMessage ha (fun i hi => isPage_of_mem_pagesOf hc.1 hi) hc.2
      exact ⟨hw, hw.printPageContents ha hc.1⟩

theorem lastMessage_concat (r : Region) (cmds : List Command) (c : Command) :
    lastMessage r (cmds ++ [c]) = (TextArray.execute r (lastMessage r cmds) c).1 := by
  funext p
  unfold lastMessage TextArray.execute
  rw [List.reverse_append, List.reverse_singleton, List.singleton_append, List.findSome?_cons]
  cases c with
  | read q => rfl
  | write q message =>
      by_cases hp : p ∈ r.pagesOf q
      · simp [hp]
      · simp [hp]

theorem represents_memAfter (ha : r.Addressable) {cmds : List Command}
    (hv : ∀ c ∈ cmds, r.Fits c) : r.Represents (r.memAfter cmds) (lastMessage r cmds) := by
  induction cmds using List.reverseRecOn with
  | nil => exact represents_zero ha.pageSize_pos
  | append_singleton cmds c ih =>
      have hbefore := ih fun d hd => hv d (by simp [hd])
      rw [memAfter, List.foldl_append, lastMessage_concat]
      exact (execute_refines hbefore ha (hv c (by simp))).1

/-- Every `r`, and the echo of every `w`, prints the last message of each of its pages,
and an `r` changes nothing. -/
theorem local_store_array (r : Region) (hps : 0 < r.pageSize)
    (hlen : r.numPages * r.pageSize < 2 ^ 31) (cmds : List Command)
    (hv : ∀ c ∈ cmds, r.Fits c) :
    ∀ before c after, cmds = before ++ c :: after →
      (r.execute (r.memAfter before) c).2 =
          (r.pagesOf c.requestPage).map (fun p => (p, lastMessage r (before ++ [c]) p)) ∧
        ∀ p, c = .read p → (r.execute (r.memAfter before) c).1 = r.memAfter before := by
  rintro before c after rfl
  have ha : r.Addressable := ⟨hps, hlen.le⟩
  have hbefore : r.Represents (r.memAfter before) (lastMessage r before) :=
    represents_memAfter ha fun d hd => hv d (by simp [hd])
  refine ⟨?_, fun p hc => by rw [hc]; rfl⟩
  rw [(execute_refines hbefore ha (hv c (by simp))).2, lastMessage_concat]
  cases c with
  | read p => rfl
  | write p message => rfl

/-- A text, then the empty text over it, and a page never written. -/
theorem local_store_array_emptied :
    let cmds : List Command := [.write 0 textA, .write 0 CString.empty, .read (-1)]
    ∀ before c after, cmds = before ++ c :: after →
      (twoPages.execute (twoPages.memAfter before) c).2 = (twoPages.pagesOf c.requestPage).map
          (fun p => (p, lastMessage twoPages.toRegion (before ++ [c]) p)) ∧
        ∀ p, c = .read p →
          (twoPages.execute (twoPages.memAfter before) c).1 = twoPages.memAfter before :=
  local_store_array twoPages.toRegion (by decide) (by decide) _ (by decide)

end Region

end OperatingSystems.Dsm
