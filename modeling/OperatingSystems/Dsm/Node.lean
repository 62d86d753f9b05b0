import OperatingSystems.Dsm.PageStore

/-!
# One node of the shared memory

Part 3 keeps a state M, S or I for every page beside the region. A command asks
the peer for a page (operation 1) or tells it to drop one (operation 2) with the
text `page-operation`; the peer's responder thread parses the text, changes its
own copy and answers with a text.

`msi_array` is static, so an entry that `fillWithInvalid` does not reach has the
value 0, which is M. The array is a total function here: an index outside of it
is undefined behaviour in C. A reply is cut to `page_size - 1` bytes by
`snprintf`. The responder of the source sends an uninitialised buffer for an
unknown operation and passes NULL to `atoi` for a missing token; both are `none`.
-/
namespace OperatingSystems.Dsm
open Library

inductive MsiState where
  | m | s | i
deriving DecidableEq, Repr

def readOp : ℤ := 1
def invalidateOp : ℤ := 2

/-- `sprintf(message, "%d-%d", request_page, operation)`; 45 is the minus sign. -/
def requestText (requestPage operation : ℤ) : CString :=
  ⟨decimal requestPage ++ 45 :: decimal operation, by
    simp [zero_notMem_decimal]⟩

/-- The text `NULL`. -/
def nullText : CString := ⟨[78, 85, 76, 76], by decide⟩

/-- The text `Success`. -/
def successText : CString := ⟨[83, 117, 99, 99, 101, 115, 115], by decide⟩

inductive Side where
  | first | second
deriving DecidableEq, Repr

def Side.other : Side → Side
  | .first => .second
  | .second => .first

@[simp] theorem Side.other_other (n : Side) : n.other.other = n := by cases n <;> rfl
@[simp] theorem Side.other_ne (n : Side) : n.other ≠ n := by cases n <;> decide
@[simp] theorem Side.ne_other (n : Side) : n ≠ n.other := by cases n <;> decide

theorem Side.eq_or_other (n k : Side) : k = n ∨ k = n.other := by
  cases n <;> cases k <;> decide

theorem Side.forall_iff (n : Side) {P : Side → Prop} : (∀ k, P k) ↔ P n ∧ P n.other :=
  ⟨fun h => ⟨h n, h n.other⟩, fun h k => by
    rcases Side.eq_or_other n k with rfl | rfl
    exacts [h.1, h.2]⟩

instance {P : Side → Prop} [DecidablePred P] : Decidable (∀ n, P n) :=
  decidable_of_iff (P .first ∧ P .second)
    ⟨fun h n => by cases n; exacts [h.1, h.2], fun h => ⟨h .first, h .second⟩⟩

structure Node where
  msiArray : ℤ → MsiState
  mem : ℤ → UInt8

/-- `for (j = 0; j <= num_pages; ++j) msiArray[j] = i`. -/
def fillWithInvalid (r : Region) (msiArray : ℤ → MsiState) : ℤ → MsiState :=
  fun j => if 0 ≤ j ∧ j ≤ r.numPages then .i else msiArray j

namespace Node

/-- A node whose region was just mapped. -/
def start (r : Region) : Node := ⟨fillWithInvalid r fun _ => .m, fun _ => 0⟩

def setState (n : Node) (page : ℤ) (state : MsiState) : Node :=
  { n with msiArray := Function.update n.msiArray page state }

def setMem (n : Node) (mem : ℤ → UInt8) : Node := { n with mem := mem }

@[simp] theorem setState_mem (n : Node) (p : ℤ) (st : MsiState) : (n.setState p st).mem = n.mem :=
  rfl
@[simp] theorem setMem_mem (n : Node) (mem : ℤ → UInt8) : (n.setMem mem).mem = mem := rfl
@[simp] theorem setMem_msiArray (n : Node) (mem : ℤ → UInt8) :
    (n.setMem mem).msiArray = n.msiArray := rfl

theorem setState_msiArray (n : Node) (p : ℤ) (st : MsiState) (q : ℤ) :
    (n.setState p st).msiArray q = if q = p then st else n.msiArray q :=
  Function.update_apply ..

@[simp] theorem setState_same (n : Node) (p : ℤ) (st : MsiState) :
    (n.setState p st).msiArray p = st := Function.update_self ..

theorem setState_self {n : Node} {p : ℤ} {st : MsiState} (h : n.msiArray p = st) :
    n.setState p st = n := by
  subst h
  simp [setState]

def transitionStateOnRead (n : Node) (requestPage : ℤ) : Node :=
  match n.msiArray requestPage with
  | .m => n.setState requestPage .s
  | .s => n
  | .i => n

/-- Case M falls through to case S. -/
def getResponse (r : Region) (n : Node) (page : ℤ) : Node × CString :=
  match n.msiArray page with
  | .m => (n.setState page .s, r.pageText n.mem page)
  | .s => (n, r.pageText n.mem page)
  | .i => (n, nullText)

/-- One turn of the responder's loop: the node after the request and the reply. -/
def responder (r : Region) (n : Node) (buffer : CString) : Option (Node × CString) := do
  let (token, rest) ← strtok 45 buffer.bytes
  let requestPage := atoi token
  let (token, _) ← strtok 45 rest
  let operation := atoi token
  if operation = invalidateOp then
    some ((n.setState requestPage .i).setMem (r.dontNeed n.mem requestPage),
      successText.take (r.pageSize - 1))
  else if operation = readOp then
    let (n, m) := n.getResponse r requestPage
    some (n.transitionStateOnRead requestPage, m.take (r.pageSize - 1))
  else none

end Node

/-- The page and the operation that the responder takes from the bytes it has read. -/
def decodeRequest (buffer : List UInt8) : Option (ℤ × ℤ) := do
  let (token, rest) ← strtok 45 buffer
  let requestPage := atoi token
  let (token, _) ← strtok 45 rest
  some (requestPage, atoi token)

theorem decodeRequest_eq_none {buffer : List UInt8}
    (h : ((strtok 45 buffer).bind fun token => strtok 45 token.2) = none) :
    decodeRequest buffer = none := by
  unfold decodeRequest
  cases hs : strtok 45 buffer with
  | none => rfl
  | some token =>
      rw [hs, Option.bind_some] at h
      simp only [Option.bind_eq_bind, Option.bind_some, h, Option.bind_none]

theorem decodeRequest_requestText {page op : ℤ} (hp : 0 ≤ page) (hop : 0 ≤ op) :
    decodeRequest (requestText page op).bytes = some (page, op) := by
  simp only [decodeRequest, requestText,
    strtok_append_cons _ (decimal_ne_nil page) (minus_notMem_decimal hp),
    strtok_last (decimal_ne_nil op) (minus_notMem_decimal hop), atoi_decimal,
    Option.bind_eq_bind, Option.bind_some]

/-- The responder recovers the page and the operation of every request for a page
that is not negative. -/
theorem responder_requestText (r : Region) (n : Node) {page : ℤ} (hp : 0 ≤ page)
    {op : ℤ} (hop : 0 ≤ op) :
    n.responder r (requestText page op) =
      if op = invalidateOp then
        some ((n.setState page .i).setMem (r.dontNeed n.mem page),
          successText.take (r.pageSize - 1))
      else if op = readOp then
        some ((n.getResponse r page).1.transitionStateOnRead page,
          (n.getResponse r page).2.take (r.pageSize - 1))
      else none := by
  simp only [Node.responder, requestText,
    strtok_append_cons _ (decimal_ne_nil page) (minus_notMem_decimal hp),
    strtok_last (decimal_ne_nil op) (minus_notMem_decimal hop), atoi_decimal,
    Option.bind_eq_bind, Option.bind_some]

/-- Equal request texts for pages that are not negative are the same request. -/
theorem requestText_inj {p q a b : ℤ} (hp : 0 ≤ p) (hq : 0 ≤ q) :
    requestText p a = requestText q b ↔ p = q ∧ a = b := by
  refine ⟨fun h => ?_, fun h => by rw [h.1, h.2]⟩
  have hs : strtok 45 (requestText p a).bytes = strtok 45 (requestText q b).bytes := by rw [h]
  simp only [requestText, strtok_append_cons _ (decimal_ne_nil _) (minus_notMem_decimal hp),
    strtok_append_cons _ (decimal_ne_nil _) (minus_notMem_decimal hq), Option.some.injEq,
    Prod.mk.injEq] at hs
  have hp' := congrArg atoi hs.1
  have ha' := congrArg atoi hs.2
  rw [atoi_decimal, atoi_decimal] at hp' ha'
  exact ⟨hp', ha'⟩

/-- A read request moves a held page to S and leaves an invalid page alone. -/
theorem getResponse_transition (r : Region) (n : Node) (page : ℤ) :
    (n.getResponse r page).1.transitionStateOnRead page =
      if n.msiArray page = .i then n else n.setState page .s := by
  unfold Node.getResponse
  cases hs : n.msiArray page with
  | m => simp [Node.transitionStateOnRead]
  | s =>
      simp only [Node.transitionStateOnRead, hs, reduceCtorEq, if_false]
      exact (Node.setState_self hs).symm
  | i => simp [Node.transitionStateOnRead, hs]

theorem responder_invalidate (r : SharedRegion) (n : Node) {page : ℤ} (hp : 0 ≤ page) :
    n.responder r.toRegion (requestText page invalidateOp) =
      some ((n.setState page .i).setMem (r.dontNeed n.mem page), successText) := by
  have hs : successText.take (r.pageSize - 1) = successText :=
    CString.take_of_strlen_le (by have := r.pageSize_ge; simp [CString.strlen, successText]; omega)
  rw [responder_requestText r.toRegion n hp (by decide), if_pos rfl, hs]

theorem responder_read_held (r : SharedRegion) {n : Node} {page : ℤ} {t : CString}
    (hp : r.IsPage page) (hn : n.msiArray page ≠ .i) (ht : r.Holds n.mem page t) :
    n.responder r.toRegion (requestText page readOp) = some (n.setState page .s, t) := by
  have htake : t.take (r.pageSize - 1) = t := CString.take_of_strlen_le (by have := ht.1; omega)
  have hreply : (n.getResponse r.toRegion page).2 = t := by
    unfold Node.getResponse
    cases hs : n.msiArray page with
    | m => exact SharedRegion.pageText_eq hp ht
    | s => exact SharedRegion.pageText_eq hp ht
    | i => exact absurd hs hn
  rw [responder_requestText r.toRegion n hp.1 (by decide), if_neg (by decide), if_pos rfl,
    getResponse_transition, if_neg hn, hreply, htake]

theorem responder_read_invalid (r : SharedRegion) {n : Node} {page : ℤ}
    (hp : 0 ≤ page) (hn : n.msiArray page = .i) :
    n.responder r.toRegion (requestText page readOp) = some (n, nullText) := by
  have htake : nullText.take (r.pageSize - 1) = nullText :=
    CString.take_of_strlen_le (by have := r.pageSize_ge; simp [CString.strlen, nullText]; omega)
  have hreply : (n.getResponse r.toRegion page).2 = nullText := by
    simp only [Node.getResponse, hn]
  rw [responder_requestText r.toRegion n hp (by decide), if_neg (by decide), if_pos rfl,
    getResponse_transition, if_pos hn, hreply, htake]

end OperatingSystems.Dsm
