import OperatingSystems.Dsm.Node

/-!
# Commands that run one after the other

Here every command of either node runs to its end before the next one starts, so
`communicateWithPeer` is a call of the peer's responder. A reply of zero bytes is
never delivered and leaves the caller blocked; that outcome is `none`, as is a
request the responder cannot parse. The reply is taken as the function's result,
although the source returns the address of a local array.

The loops of `printPageContents` and `updatePageContents` are recursions over the
page numbers still to visit. The main invariant relates both copies of a page to
the last message written to it and to the node that wrote it.
-/
namespace OperatingSystems.Dsm
open Library

/-- Both nodes, with no request or reply on the way. -/
abbrev Nodes := Side → Node

section Commands
variable (r : Region) (n : Side)

def communicateWithPeer (σ : Nodes) (requestPage operation : ℤ) : Option (Nodes × CString) := do
  let (peer, reply) ← (σ n.other).responder r (requestText requestPage operation)
  if reply.strlen = 0 then none else some (Function.update σ n.other peer, reply)

/-- The body of the loop of `printPageContents`: the text printed for page `j`. -/
def printPage (fetch : Bool) (σ : Nodes) (j : ℤ) : Option (Nodes × CString) :=
  let pageOutput := r.pageText (σ n).mem j
  match (σ n).msiArray j with
  | .m => some (σ, pageOutput)
  | .s => some (σ, pageOutput)
  | .i =>
      if fetch then do
        let (σ, message) ← communicateWithPeer r n σ j readOp
        if message ≠ nullText then
          let node := (σ n).setMem (r.updatePageContents (σ n).mem j message)
          some (Function.update σ n (node.setState j .s), message)
        else
          some (Function.update σ n ((σ n).setMem (r.dontNeed (σ n).mem j)), CString.empty)
      else some (σ, CString.empty)

def printPages (fetch : Bool) : List ℤ → Nodes → Option (Nodes × List (ℤ × CString))
  | [], σ => some (σ, [])
  | j :: js, σ => do
      let (σ, pageOutput) ← printPage r n fetch σ j
      let (σ, outputs) ← printPages fetch js σ
      some (σ, (j, pageOutput) :: outputs)

/-- The body of the loop of `updatePageContents` with `transition` set: every state
goes to M, and the peer's answer is ignored. -/
def updatePage (message : CString) (σ : Nodes) (i : ℤ) : Option Nodes := do
  let node := ((σ n).setMem (r.copyMessage message (σ n).mem i)).setState i .m
  let (σ, _) ← communicateWithPeer r n (Function.update σ n node) i invalidateOp
  some σ

def updatePages (message : CString) : List ℤ → Nodes → Option Nodes
  | [], σ => some σ
  | i :: is, σ => (updatePage r n message σ i).bind (updatePages message is)

/-- One turn of the command loop: the nodes afterwards and what is printed. -/
def execute (σ : Nodes) : Command → Option (Nodes × List (ℤ × CString))
  | .read p => printPages r n true (r.pagesOf p) σ
  | .write p message => do
      let σ ← updatePages r n message (r.pagesOf p) σ
      printPages r n false (r.pagesOf p) σ

end Commands

/-- Commands given to either node, each after the previous one has completed. -/
def session (r : Region) :
    List (Side × Command) → Nodes → Option (Nodes × List (List (ℤ × CString)))
  | [], σ => some (σ, [])
  | (n, c) :: cs, σ => do
      let (σ, outputs) ← execute r n σ c
      let (σ, rest) ← session r cs σ
      some (σ, outputs :: rest)

def startNodes (r : Region) : Nodes := fun _ => Node.start r

/-- The last message written to each page, and the node that wrote it. -/
abbrev LastWrite := ℤ → Option (Side × CString)

def LastWrite.record (r : Region) (last : LastWrite) (n : Side) : Command → LastWrite
  | .read _ => last
  | .write p message => fun j => if j ∈ r.pagesOf p then some (n, message) else last j

def lastWrite (r : Region) (cmds : List (Side × Command)) : LastWrite :=
  cmds.foldl (fun last c => last.record r c.1 c.2) fun _ => none

/-- The text of a page on one shared memory. -/
def lastText (last : Option (Side × CString)) : CString := (last.map Prod.snd).getD CString.empty

/-- What node `n` prints for a page: the last message, except that the text `NULL`
written by the peer is taken for its answer that it has no data. -/
def shownText (n : Side) (last : Option (Side × CString)) : CString :=
  if last = some (n.other, nullText) then CString.empty else lastText last

/-- Texts of a session when every page shows as `show` of its last write. -/
def transcriptOf (r : Region) (shown : Side → Option (Side × CString) → CString) :
    LastWrite → List (Side × Command) → List (List (ℤ × CString))
  | _, [] => []
  | last, (n, c) :: cs =>
      let last' := last.record r n c
      (r.pagesOf c.requestPage).map (fun p => (p, shown n (last' p))) ::
        transcriptOf r shown last' cs

structure CoherentAt (r : Region) (σ : Nodes) (p : ℤ) (last : Option (Side × CString)) : Prop where
  exclusive : ∀ n, (σ n).msiArray p = .m → (σ n.other).msiArray p = .i
  held : ∀ n, (σ n).msiArray p ≠ .i → ∃ w t, last = some (w, t) ∧ r.Holds (σ n).mem p t
  blank : ∀ n, (σ n).msiArray p = .i → r.Blank (σ n).mem p
  writer : ∀ w t, last = some (w, t) → (σ w).msiArray p ≠ .i ∧ t ≠ CString.empty
  sentinel : ∀ w, last = some (w, nullText) → (σ w.other).msiArray p = .i

def Coherent (r : Region) (σ : Nodes) (last : LastWrite) : Prop :=
  ∀ p, r.IsPage p → CoherentAt r σ p (last p)

/-- Both copies of page `p` read the same before and after. -/
def SameCopies (r : Region) (σ σ' : Nodes) (p : ℤ) : Prop :=
  ∀ n, (σ' n).msiArray p = (σ n).msiArray p ∧ r.SamePage (σ n).mem (σ' n).mem p

theorem CoherentAt.congr {r : Region} {σ σ' : Nodes} {p : ℤ} {last : Option (Side × CString)}
    (h : CoherentAt r σ p last) (hs : SameCopies r σ σ' p) : CoherentAt r σ' p last where
  exclusive n hn := by
    rw [(hs _).1] at hn ⊢
    exact h.exclusive n hn
  held n hn := by
    rw [(hs _).1] at hn
    obtain ⟨w, t, hl, ht⟩ := h.held n hn
    exact ⟨w, t, hl, ht.congr (hs n).2⟩
  blank n hn := by
    rw [(hs _).1] at hn
    exact (h.blank n hn).congr (hs n).2
  writer w t hl := by
    rw [(hs _).1]
    exact h.writer w t hl
  sentinel w hl := by
    rw [(hs _).1]
    exact h.sentinel w hl

theorem coherent_start (r : Region) : Coherent r (startNodes r) fun _ => none := by
  intro p hp
  have hi : ∀ n, (startNodes r n).msiArray p = .i := fun n =>
    if_pos ⟨hp.1, by have := hp.2; omega⟩
  constructor
  case exclusive => exact fun n hn => by simp [hi] at hn
  case held => exact fun n hn => absurd (hi n) hn
  case blank => exact fun n _ k _ => rfl
  case writer => exact fun w t hl => by cases hl
  case sentinel => exact fun w hl => by cases hl

end OperatingSystems.Dsm
