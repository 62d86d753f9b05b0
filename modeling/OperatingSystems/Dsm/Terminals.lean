import OperatingSystems.Dsm.Coherence
import OperatingSystems.Dsm.Console

/-!
# Two terminals

Part 3 as its users see it: each node has a terminal with its own typed input, and the
turns of the two prompts follow each other. Beside the texts a turn may show the states
of the pages, which the command `v` prints.

The states are a function of the commands so far. A written page is M at its writer
until the other node asks for it, and then S at both; a written text `NULL` is never
taken over, so that page stays I at the node that has asked.
-/
namespace OperatingSystems.Dsm
open Library

/-- The letters `M`, `S` and `I`. -/
def getMSItype : MsiState → UInt8
  | .m => 77
  | .s => 83
  | .i => 73

/-- What a turn shows; the hint asks for a valid option. -/
inductive Shown where
  | texts (pages : List (ℤ × CString))
  | states (pages : List (ℤ × UInt8))
  | hint
deriving DecidableEq

/-- The last write of a page, and whether the other node has asked for the page since. -/
structure LastCopy where
  writer : Side
  message : CString
  asked : Bool

def LastCopy.state (c : LastCopy) (n : Side) : MsiState :=
  if n = c.writer then if c.asked then .s else .m
  else if c.asked ∧ c.message ≠ nullText then .s else .i

/-- The writer reads its own copy. -/
def LastCopy.readBy (n : Side) (c : LastCopy) : LastCopy :=
  if n = c.writer then c else { c with asked := true }

/-- For each page, `none` before its first write. -/
abbrev Tracked := ℤ → Option LastCopy

namespace Tracked

def lastWrite (tr : Tracked) : LastWrite := fun p => (tr p).map fun c => (c.writer, c.message)

def state (tr : Tracked) (p : ℤ) (n : Side) : MsiState := (tr p).elim .i fun c => c.state n

def record (r : Region) (tr : Tracked) (n : Side) : Command → Tracked
  | .read q => fun p => if p ∈ r.pagesOf q then (tr p).map (LastCopy.readBy n) else tr p
  | .write q message => fun p => if p ∈ r.pagesOf q then some ⟨n, message, false⟩ else tr p

/-- What node `n` shows, with the turn recorded. -/
def shown (r : Region) (tr : Tracked) (n : Side) : Entry → Shown
  | .command c => .texts ((r.pagesOf c.requestPage).map fun p => (p, shownText n (tr.lastWrite p)))
  | .view => .states ((List.range r.numPages).map fun j : ℕ => ((j : ℤ), getMSItype (tr.state j n)))
  | .invalid _ _ => .hint

end Tracked

theorem LastCopy.readBy_writer {n : Side} {c : LastCopy} (h : n = c.writer) : c.readBy n = c :=
  if_pos h

theorem LastCopy.readBy_other {n : Side} {c : LastCopy} (h : n ≠ c.writer) :
    c.readBy n = { c with asked := true } := if_neg h

/-- What a node that holds a page has read makes no difference. -/
theorem LastCopy.readBy_held {n : Side} {c : LastCopy} (h : c.state n ≠ .i) : c.readBy n = c := by
  by_cases hn : n = c.writer
  · exact readBy_writer hn
  · rw [state, if_neg hn] at h
    split_ifs at h with hasked
    · rw [readBy_other hn]
      obtain ⟨writer, message, asked⟩ := c
      exact congrArg (LastCopy.mk writer message) hasked.1.symm
    · exact absurd rfl h

/-- The nodes are coherent, and their states are those of the history. -/
structure Tracks (r : Region) (σ : Nodes) (tr : Tracked) : Prop where
  coherent : Coherent r σ tr.lastWrite
  states : ∀ p, r.IsPage p → ∀ k, (σ k).msiArray p = tr.state p k

section Pages
variable {r : SharedRegion} {n : Side} {σ σ' : Nodes} {tr : Tracked} {j : ℤ}

/-- One page takes a new place in the history, and all others keep their states. -/
theorem Tracks.step {l : Option LastCopy} (h : Tracks r.toRegion σ tr)
    (hc : Coherent r.toRegion σ' (Tracked.lastWrite (Function.update tr j l)))
    (hframe : ∀ k p, p ≠ j → (σ' k).msiArray p = (σ k).msiArray p)
    (hj : ∀ k, (σ' k).msiArray j = l.elim .i fun c => c.state k) :
    Tracks r.toRegion σ' (Function.update tr j l) := by
  refine ⟨hc, ?_⟩
  intro p hp k
  unfold Tracked.state
  by_cases hpj : p = j
  · rw [hpj, Function.update_self]
    exact hj k
  · rw [Function.update_of_ne hpj, hframe k p hpj]
    exact h.states p hp k

theorem Tracks.own {c : LastCopy} (h : Tracks r.toRegion σ tr) (hj : r.IsPage j)
    (htr : tr j = some c) (k : Side) : (σ k).msiArray j = c.state k := by
  rw [h.states j hj, Tracked.state, htr]
  rfl

section OnePage
variable {text : CString} (h : Tracks r.toRegion σ tr) (hj : r.IsPage j)
  (hprint : printPage r.toRegion n true σ j = some (σ', text))
include h hj hprint

theorem Tracks.printPage_held {c : LastCopy} (htr : tr j = some c) (hn : (σ n).msiArray j ≠ .i)
    (hc : Coherent r.toRegion σ'
      (Tracked.lastWrite (Function.update tr j ((some c).map (LastCopy.readBy n))))) :
    Tracks r.toRegion σ' (Function.update tr j ((some c).map (LastCopy.readBy n))) := by
  obtain ⟨w, t, -, ht⟩ := (h.coherent j hj).held n hn
  have hheld := Dsm.printPage_held true hj hn ht
  obtain ⟨rfl, -⟩ := Prod.mk.inj (Option.some.inj (hprint.symm.trans hheld))
  have hread : (some c).map (LastCopy.readBy n) = some c :=
    congrArg some (LastCopy.readBy_held (h.own hj htr n ▸ hn))
  rw [hread] at hc ⊢
  exact h.step hc (fun _ _ _ => rfl) (h.own hj htr)

end OnePage

end Pages

/-- Pages of the region and messages that can be sent; any `int` behind an unknown letter. -/
def Entry.Ok (r : Region) : Entry → Prop
  | .command c => r.IsCommand c
  | .view => True
  | .invalid _ p => IsInt p

instance (r : Region) : DecidablePred (Entry.Ok r)
  | .command c => inferInstanceAs (Decidable (r.IsCommand c))
  | .view => .isTrue trivial
  | .invalid _ p => inferInstanceAs (Decidable (IsInt p))

section Turns
variable {r : SharedRegion} {n : Side} {σ : Nodes} {tr : Tracked} {turns : List (Side × Entry)}

end Turns

end OperatingSystems.Dsm
