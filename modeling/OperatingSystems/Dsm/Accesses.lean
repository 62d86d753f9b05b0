import OperatingSystems.Dsm.Interleaving
import OperatingSystems.Dsm.PageLoop

/-!
# Indices and bytes used by the two nodes

Every step is given the list of its accesses: the indices it uses on `msi_array`, the
ranges of bytes it touches in the region, and how many bytes it puts into the array
`message` of `main` and into `page_output`. The lists follow the functions of the
source line by line; a text is read up to its NUL. `step_changes_accessed` says that
nothing else of a node changes.

The other arrays are filled by `read` and `snprintf`, which are given their length, and
by the `sprintf` of a request, which is short.
-/
namespace OperatingSystems.Dsm
open Library

inductive Access where
  | index (j : ℤ)
  | bytes (offset : ℤ) (count : ℕ)
  | message (count : ℕ)
  | pageOutput (count : ℕ)

section Accesses
variable (r : Region)

/-- `for (int j = 0; j <= num_pages; ++j)` of `fillWithInvalid`. -/
def fillIndices (fuel : ℕ) : List ℤ :=
  turns (fun j => UInt64.ofInt j ≤ UInt64.ofNat r.numPages) (fun j => toInt (j + 1)) fuel 0

/-- `for (int j = 0; j < num_pages; ++j)` of `printMsiArray`. -/
def printMsiIndices (fuel : ℕ) : List ℤ :=
  turns (fun j => UInt64.ofInt j < UInt64.ofNat r.numPages) (fun j => toInt (j + 1)) fuel 0

/-- The text of the page with its NUL. -/
def textAccess (mem : ℤ → UInt8) (j : ℤ) : Access :=
  .bytes (r.pageOffset j) ((r.pageText mem j).strlen + 1)

def copyAccess (message : CString) (i : ℤ) : Access :=
  .bytes (r.pageOffset i) (message.strlen + 1)

def dropAccess (j : ℤ) : Access := .bytes (r.pageOffset j) r.pageSize

/-- `sprintf(page_output, "%s", text)`. -/
def outputAccess (text : CString) : Access := .pageOutput (text.strlen + 1)

def printAccesses (fetch : Bool) (node : Node) : List ℤ → List Access
  | [] => []
  | j :: js =>
      textAccess r node.mem j :: outputAccess (r.pageText node.mem j) :: .index j ::
        match node.msiArray j, fetch with
        | .i, true => []
        | .i, false => outputAccess CString.empty :: printAccesses fetch node js
        | _, _ => printAccesses fetch node js

def updateAccesses (requestPage : ℤ) (message : CString) (node : Node) : List ℤ → List Access
  | [] => printAccesses r false node (r.pagesOf requestPage)
  | i :: _ => [copyAccess r message i, .index i]

/-- `scanf` stores the message that was typed with its NUL. -/
def startAccesses (node : Node) : Command → List Access
  | .read p => printAccesses r true node (r.pagesOf p)
  | .write p message =>
      .message (message.strlen + 1) :: updateAccesses r p message node (r.pagesOf p)

def storeAccesses (j : ℤ) (message : CString) : List Access :=
  if message ≠ nullText then (r.pagesOf j).map (copyAccess r message) ++ [.index j]
  else [dropAccess r j]

def receiveAccesses (node : Node) (message : CString) : Thread → List Access
  | .idle => []
  | .reading j js =>
      storeAccesses r j message ++ outputAccess (shownReply message) ::
        printAccesses r true (storeReply r node j message) js
  | .writing _ is p m => updateAccesses r p m node is

def responderAccesses (node : Node) (buffer : CString) : List Access :=
  match decodeRequest buffer.bytes with
  | none => []
  | some (page, operation) =>
      if operation = invalidateOp then [.index page, dropAccess r page]
      else if operation = readOp then
        .index page :: if node.msiArray page = .i then [] else [textAccess r node.mem page]
      else [.index page]

def accesses (s : Sys) : Action → List Access
  | .start n c => startAccesses r (s n).node c
  | .deliver n =>
      match (s n).replies with
      | [] => []
      | reply :: _ => receiveAccesses r (s n).node reply.text (s n).thread
  | .respond n =>
      match (s n.other).requests with
      | [] => []
      | request :: _ => responderAccesses r (s n).node request

end Accesses

/-- Whatever differs between the nodes was accessed. -/
structure Covers (xs : List Access) (n n' : Node) : Prop where
  index : ∀ j, n'.msiArray j ≠ n.msiArray j → Access.index j ∈ xs
  bytes : ∀ b, n'.mem b ≠ n.mem b →
    ∃ offset count, Access.bytes offset count ∈ xs ∧ offset ≤ b ∧ b < offset + count

section Changes
variable {r : Region} {node node' : Node} {xs ys : List Access}

theorem resumePrint_node (fetch : Bool) (js : List ℤ) (e : Endpoint) :
    (resumePrint r fetch js e).node = e.node ∧ (resumePrint r fetch js e).replies = e.replies := by
  induction js generalizing e with
  | nil => exact ⟨rfl, rfl⟩
  | cons j js ih =>
      rw [resumePrint]
      cases e.node.msiArray j with
      | m => exact ih _
      | s => exact ih _
      | i =>
          cases fetch with
          | true => exact ⟨rfl, rfl⟩
          | false => exact ih _

theorem covers_same (xs : List Access) (n : Node) : Covers xs n n :=
  ⟨fun _ h => absurd rfl h, fun _ h => absurd rfl h⟩

theorem Covers.append_right (h : Covers xs node node') (ys : List Access) :
    Covers (xs ++ ys) node node' where
  index j hj := List.mem_append_left ys (h.index j hj)
  bytes b hb := by
    obtain ⟨offset, count, hmem, hin⟩ := h.bytes b hb
    exact ⟨offset, count, List.mem_append_left ys hmem, hin⟩

theorem Covers.cons (h : Covers xs node node') (x : Access) : Covers (x :: xs) node node' where
  index j hj := List.mem_cons_of_mem x (h.index j hj)
  bytes b hb := by
    obtain ⟨offset, count, hmem, hin⟩ := h.bytes b hb
    exact ⟨offset, count, List.mem_cons_of_mem x hmem, hin⟩

theorem setState_changes {j k : ℤ} {st : MsiState}
    (h : (node.setState j st).msiArray k ≠ node.msiArray k) : k = j := by
  by_contra hne
  exact h (by rw [Node.setState_msiArray, if_neg hne])

theorem foldl_copyMessage_changes {message : CString} {is : List ℤ} {mem : ℤ → UInt8} {b : ℤ}
    (h : is.foldl (r.copyMessage message) mem b ≠ mem b) :
    ∃ i ∈ is, r.pageOffset i ≤ b ∧ b < r.pageOffset i + (message.strlen + 1 : ℕ) := by
  induction is generalizing mem with
  | nil => exact absurd rfl h
  | cons i is ih =>
      by_cases hrest : (i :: is).foldl (r.copyMessage message) mem b =
          r.copyMessage message mem i b
      · rw [hrest, Region.copyMessage, writeString_apply] at h
        refine ⟨i, by simp, ?_⟩
        split_ifs at h with hin
        · push_cast
          omega
        · exact absurd rfl h
      · obtain ⟨k, hk, hin⟩ := ih hrest
        exact ⟨k, by simp [hk], hin⟩

theorem covers_copy (node : Node) (message : CString) (is : List ℤ) (j : ℤ) (st : MsiState) :
    Covers (is.map (copyAccess r message) ++ [.index j]) node
      ((node.setMem (is.foldl (r.copyMessage message) node.mem)).setState j st) where
  index k hk := by
    rw [setState_changes hk]
    simp
  bytes b hb := by
    obtain ⟨i, hi, hin⟩ := foldl_copyMessage_changes hb
    exact ⟨_, _, List.mem_append_left _ (List.mem_map.mpr ⟨i, hi, rfl⟩), hin⟩

theorem dontNeed_changes {mem : ℤ → UInt8} {j b : ℤ} (h : r.dontNeed mem j b ≠ mem b) :
    r.pageOffset j ≤ b ∧ b < r.pageOffset j + r.pageSize := by
  rw [Region.dontNeed, zeroFill] at h
  split_ifs at h with hin
  · exact hin
  · exact absurd rfl h

theorem covers_storeReply (node : Node) (j : ℤ) (message : CString) :
    Covers (storeAccesses r j message) node (storeReply r node j message) := by
  unfold storeAccesses storeReply
  split_ifs
  · exact covers_copy node message (r.pagesOf j) j .s
  · exact ⟨fun _ h => absurd rfl h, fun b hb => ⟨_, _, List.mem_singleton_self _,
      dontNeed_changes hb⟩⟩

theorem covers_resumeUpdate {e : Endpoint} (p : ℤ) (message : CString) (is : List ℤ) :
    Covers (updateAccesses r p message e.node is) e.node (resumeUpdate r p message is e).node := by
  cases is with
  | nil =>
      rw [resumeUpdate, (resumePrint_node _ _ _).1]
      exact covers_same _ _
  | cons i is => exact covers_copy e.node message [i] i .m

theorem responder_decoded (node : Node) (buffer : CString) :
    node.responder r buffer = (decodeRequest buffer.bytes).bind fun q =>
      if q.2 = invalidateOp then
        some ((node.setState q.1 .i).setMem (r.dontNeed node.mem q.1),
          successText.take (r.pageSize - 1))
      else if q.2 = readOp then
        some ((node.getResponse r q.1).1.transitionStateOnRead q.1,
          (node.getResponse r q.1).2.take (r.pageSize - 1))
      else none := by
  unfold Node.responder decodeRequest
  cases strtok 45 buffer.bytes with
  | none => rfl
  | some first =>
      simp only [Option.bind_eq_bind, Option.bind_some]
      cases strtok 45 first.2 with
      | none => rfl
      | some second => rfl

theorem covers_responder {buffer text : CString}
    (h : node.responder r buffer = some (node', text)) :
    Covers (responderAccesses r node buffer) node node' := by
  rw [responder_decoded] at h
  unfold responderAccesses
  cases hq : decodeRequest buffer.bytes with
  | none => simp [hq] at h
  | some q =>
      rw [hq, Option.bind_some] at h
      dsimp only
      by_cases hinv : q.2 = invalidateOp
      · rw [if_pos hinv] at h ⊢
        obtain ⟨rfl, -⟩ := Prod.mk.inj (Option.some.inj h)
        refine ⟨fun k hk => ?_, fun b hb => ⟨_, _, by simp [dropAccess], dontNeed_changes hb⟩⟩
        rw [setState_changes hk]
        simp
      · rw [if_neg hinv] at h ⊢
        split_ifs at h with hread
        rw [if_pos hread]
        obtain ⟨rfl, -⟩ := Prod.mk.inj (Option.some.inj h)
        rw [getResponse_transition]
        split_ifs
        · exact covers_same _ _
        · refine ⟨fun k hk => ?_, fun b hb => absurd rfl hb⟩
          rw [setState_changes hk]
          simp

theorem step_changes_accessed {s t : Sys} {a : Action} (hs : step r s a = some t) (k : Side) :
    Covers (accesses r s a) (s k).node (t k).node := by
  have hother : ∀ n e, k ≠ n → Covers (accesses r s a) (s k).node (Function.update s n e k).node :=
    fun n e hk => by
      rw [Function.update_of_ne hk]
      exact covers_same _ _
  cases a with
  | start n c =>
      obtain ⟨-, rfl⟩ := step_start hs
      by_cases hk : k = n
      · subst hk
        rw [Function.update_self]
        cases c with
        | read p =>
            rw [startCommand, (resumePrint_node _ _ _).1]
            exact covers_same _ _
        | write p message => exact (covers_resumeUpdate p message (r.pagesOf p)).cons _
      · exact hother n _ hk
  | deliver n =>
      obtain ⟨reply, replies, e', hr, he, rfl⟩ := step_deliver hs
      by_cases hk : k = n
      · subst hk
        rw [Function.update_self]
        simp only [accesses, hr]
        unfold receive at he
        cases ht : (s k).thread with
        | idle => simp [ht] at he
        | reading j js =>
            rw [ht] at he
            obtain rfl := Option.some.inj he
            rw [(resumePrint_node _ _ _).1]
            exact (covers_storeReply (s k).node j reply.text).append_right _
        | writing i is p m =>
            rw [ht] at he
            obtain rfl := Option.some.inj he
            exact covers_resumeUpdate (e := { s k with replies := replies }) p m is
      · exact hother n _ hk
  | respond n =>
      obtain ⟨request, requests, node, text, hreq, hresp, hn, ho⟩ := step_respond hs
      simp only [accesses, hreq]
      rcases Side.eq_or_other n k with rfl | rfl
      · rw [hn]
        exact covers_responder hresp
      · rw [ho]
        exact covers_same _ _

end Changes

end OperatingSystems.Dsm
