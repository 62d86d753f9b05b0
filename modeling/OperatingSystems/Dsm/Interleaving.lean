import OperatingSystems.Dsm.Node
import OperatingSystems.Library.GuardedRun

/-!
# Two nodes whose steps interleave

Each node runs one command at a time and, in another thread, its responder. The
functions of the source are cut where `communicateWithPeer` waits: a command runs
up to its send, is blocked with the rest of its loop as continuation, and goes on
when the reply is read. One whole turn of the responder is one step.

Both connections are FIFO queues of the texts sent and not yet read. A send of
zero bytes puts nothing in flight. A reply carries the request it answers, which
no step reads. The command that was blocked goes on with the text of the reply,
although the source returns the address of a local array: that the array still holds
the text when the caller uses it is an assumption of all results about texts.
-/
namespace OperatingSystems.Dsm
open Library

/-- What a command waits for, with the pages its loop has still to visit. A write
finally echoes the pages of `requestPage`. -/
inductive Thread where
  | idle
  | reading (j : ℤ) (rest : List ℤ)
  | writing (i : ℤ) (rest : List ℤ) (requestPage : ℤ) (message : CString)
deriving DecidableEq

/-- The text a blocked command has sent. -/
def Thread.request : Thread → Option CString
  | .idle => none
  | .reading j _ => some (requestText j readOp)
  | .writing i _ _ _ => some (requestText i invalidateOp)

structure Reply where
  request : CString
  text : CString
deriving DecidableEq

/-- One process and the two directions of the connection its commands use:
`requests` on `remote_socket`, and the `replies` to it. -/
structure Endpoint where
  node : Node
  thread : Thread
  printed : List (ℤ × CString)
  requests : List CString
  replies : List Reply

abbrev Sys := Side → Endpoint

inductive Action where
  | start (n : Side) (c : Command)
  | deliver (n : Side)
  | respond (n : Side)
deriving DecidableEq

def Endpoint.start (r : Region) : Endpoint := ⟨Node.start r, .idle, [], [], []⟩

def startSys (r : Region) : Sys := fun _ => Endpoint.start r

def Endpoint.print (e : Endpoint) (j : ℤ) (text : CString) : Endpoint :=
  { e with printed := e.printed ++ [(j, text)] }

/-- `printPageContents` from the pages `js` on, up to the next send or to its end. -/
def resumePrint (r : Region) (fetch : Bool) : List ℤ → Endpoint → Endpoint
  | [], e => { e with thread := .idle }
  | j :: js, e =>
      match e.node.msiArray j with
      | .m => resumePrint r fetch js (e.print j (r.pageText e.node.mem j))
      | .s => resumePrint r fetch js (e.print j (r.pageText e.node.mem j))
      | .i =>
          if fetch then
            { e with thread := .reading j js, requests := e.requests ++ [requestText j readOp] }
          else resumePrint r fetch js (e.print j CString.empty)

/-- `updatePageContents` with `transition` set, from the pages `is` on, followed by
the echo of the write command. -/
def resumeUpdate (r : Region) (requestPage : ℤ) (message : CString) :
    List ℤ → Endpoint → Endpoint
  | [], e => resumePrint r false (r.pagesOf requestPage) e
  | i :: is, e =>
      { e with
        node := (e.node.setMem (r.copyMessage message e.node.mem i)).setState i .m
        thread := .writing i is requestPage message
        requests := e.requests ++ [requestText i invalidateOp] }

def startCommand (r : Region) (e : Endpoint) : Command → Endpoint
  | .read p => resumePrint r true (r.pagesOf p) e
  | .write p message => resumeUpdate r p message (r.pagesOf p) e

/-- The rest of case I in `printPageContents` for the text read from the peer. -/
def storeReply (r : Region) (node : Node) (j : ℤ) (message : CString) : Node :=
  if message ≠ nullText then
    (node.setMem (r.updatePageContents node.mem j message)).setState j .s
  else node.setMem (r.dontNeed node.mem j)

def shownReply (message : CString) : CString :=
  if message ≠ nullText then message else CString.empty

/-- The blocked command goes on with the text it has read. -/
def receive (r : Region) (e : Endpoint) (message : CString) : Option Endpoint :=
  match e.thread with
  | .idle => none
  | .reading j js =>
      some (resumePrint r true js
        ({ e with node := storeReply r e.node j message }.print j (shownReply message)))
  | .writing _ is p m => some (resumeUpdate r p m is e)

def sendReply (request text : CString) : List Reply :=
  if text.strlen = 0 then [] else [⟨request, text⟩]

def step (r : Region) (s : Sys) : Action → Option Sys
  | .start n c =>
      if (s n).thread = .idle then some (Function.update s n (startCommand r (s n) c)) else none
  | .deliver n =>
      match (s n).replies with
      | [] => none
      | reply :: replies =>
          (receive r { s n with replies := replies } reply.text).map (Function.update s n)
  | .respond n =>
      match (s n.other).requests with
      | [] => none
      | request :: requests => do
          let (node, text) ← (s n).node.responder r request
          some (Function.update (Function.update s n { s n with node := node }) n.other
            { s n.other with
              requests := requests
              replies := (s n.other).replies ++ sendReply request text })

/-- No command is blocked and nothing is in flight. -/
def Quiescent (s : Sys) : Prop :=
  ∀ n, (s n).thread = .idle ∧ (s n).requests = [] ∧ (s n).replies = []

instance : DecidablePred Quiescent := fun _ => inferInstanceAs (Decidable (∀ _ : Side, _ ∧ _))

/-- The command asks for pages of the region. -/
def Action.PagesOk (r : Region) : Action → Prop
  | .start _ c => r.IsRequest c.requestPage
  | _ => True

/-- The command also writes a message that fits into a page. -/
def Action.Ok (r : Region) : Action → Prop
  | .start _ c => r.IsCommand c
  | _ => True

instance (r : Region) : DecidablePred (Action.PagesOk r)
  | .start _ c => inferInstanceAs (Decidable (r.IsRequest c.requestPage))
  | .deliver _ => isTrue trivial
  | .respond _ => isTrue trivial

instance (r : Region) : DecidablePred (Action.Ok r)
  | .start _ c => inferInstanceAs (Decidable (r.IsCommand c))
  | .deliver _ => isTrue trivial
  | .respond _ => isTrue trivial

theorem Action.Ok.pagesOk {r : Region} {a : Action} (h : a.Ok r) : a.PagesOk r := by
  cases a with
  | start n c => exact h.isRequest
  | deliver n => trivial
  | respond n => trivial

section Inversion
variable {r : Region} {W : ℤ → CString → Prop}

/-- The pages a command still has to visit exist, and a message still to be written
is one that was given for these pages. -/
def Thread.Ok (r : Region) (W : ℤ → CString → Prop) : Thread → Prop
  | .idle => True
  | .reading j js => ∀ k ∈ j :: js, r.IsPage k
  | .writing i is p message =>
      (∀ k ∈ i :: is, r.IsPage k ∧ W k message) ∧ r.IsRequest p

/-- How a command goes on: to its end, to its next fetch, or to the next page of
`todo` that it writes. -/
inductive Resumed (r : Region) (W : ℤ → CString → Prop) (e : Endpoint) :
    List ℤ → Endpoint → Prop
  | finished (out : List (ℤ × CString)) :
      Resumed r W e [] { e with thread := .idle, printed := out }
  | fetching (out : List (ℤ × CString)) (j : ℤ) (js : List ℤ) : e.node.msiArray j = .i →
      Thread.Ok r W (.reading j js) →
      Resumed r W e []
        { e with
          thread := .reading j js
          printed := out
          requests := e.requests ++ [requestText j readOp] }
  | storing (out : List (ℤ × CString)) (i : ℤ) (is : List ℤ) (p : ℤ) (message : CString) :
      Thread.Ok r W (.writing i is p message) →
      Resumed r W e (i :: is)
        { e with
          node := (e.node.setMem (r.copyMessage message e.node.mem i)).setState i .m
          thread := .writing i is p message
          printed := out
          requests := e.requests ++ [requestText i invalidateOp] }

theorem Resumed.of_print {e e' : Endpoint} {todo : List ℤ} {j : ℤ} {text : CString}
    (h : Resumed r W (e.print j text) todo e') : Resumed r W e todo e' := by
  cases h with
  | finished out => exact .finished out
  | fetching out j js hi hok => exact .fetching out j js hi hok
  | storing out i is p m hok => exact .storing out i is p m hok

theorem Resumed.thread {e e' : Endpoint} {todo : List ℤ} (h : Resumed r W e todo e') :
    e'.thread.Ok r W := by
  cases h with
  | finished out => trivial
  | fetching out j js hi hok => exact hok
  | storing out i is p m hok => exact hok

theorem Resumed.replies {e e' : Endpoint} {todo : List ℤ} (h : Resumed r W e todo e') :
    e'.replies = e.replies := by
  cases h with
  | finished out => rfl
  | fetching out j js hi hok => rfl
  | storing out i is p m hok => rfl

theorem resumed_print (fetch : Bool) {js : List ℤ} (hjs : ∀ k ∈ js, r.IsPage k) (e : Endpoint) :
    Resumed r W e [] (resumePrint r fetch js e) := by
  induction js generalizing e with
  | nil => exact .finished e.printed
  | cons j js ih =>
      have hrest := ih fun k hk => hjs k (by simp [hk])
      unfold resumePrint
      cases hs : e.node.msiArray j with
      | m => exact (hrest _).of_print
      | s => exact (hrest _).of_print
      | i =>
          cases fetch with
          | true => exact .fetching e.printed j js hs hjs
          | false => exact (hrest _).of_print

theorem resumed_update {p : ℤ} {message : CString} {is : List ℤ} (hp : r.IsRequest p)
    (his : ∀ k ∈ is, r.IsPage k ∧ W k message) (e : Endpoint) :
    Resumed r W e is (resumeUpdate r p message is e) := by
  cases is with
  | nil => exact resumed_print false (fun k hk => Region.isPage_of_mem_pagesOf hp hk) e
  | cons i is => exact .storing e.printed i is p message ⟨his, hp⟩

/-- The pages a command writes. -/
def Command.written (r : Region) : Command → List ℤ
  | .read _ => []
  | .write p _ => r.pagesOf p

theorem resumed_startCommand {c : Command} (hc : r.IsRequest c.requestPage)
    (hw : ∀ p m, c = .write p m → ∀ k ∈ r.pagesOf p, W k m) (e : Endpoint) :
    Resumed r W e (c.written r) (startCommand r e c) := by
  cases c with
  | read p => exact resumed_print true (fun k hk => Region.isPage_of_mem_pagesOf hc hk) e
  | write p m =>
      exact resumed_update hc
        (fun k hk => ⟨Region.isPage_of_mem_pagesOf hc hk, hw p m rfl k hk⟩) e

/-- A delivered reply: a read stores it and prints on, a write goes on writing. -/
theorem receive_cases {e e' : Endpoint} {message : CString} (hok : e.thread.Ok r W)
    (h : receive r e message = some e') :
    (∃ j js, e.thread = .reading j js ∧
      Resumed r W { e with node := storeReply r e.node j message } [] e') ∨
    (∃ i is p m, e.thread = .writing i is p m ∧ Resumed r W e is e') := by
  unfold receive at h
  cases ht : e.thread with
  | idle => simp [ht] at h
  | reading j js =>
      rw [ht] at h hok
      obtain rfl := Option.some.inj h
      have hjs : ∀ k ∈ js, r.IsPage k := fun k hk => hok k (by simp [hk])
      exact .inl ⟨j, js, rfl, (resumed_print true hjs _).of_print⟩
  | writing i is p m =>
      rw [ht] at h hok
      obtain rfl := Option.some.inj h
      exact .inr ⟨i, is, p, m, rfl, resumed_update hok.2 (fun k hk => hok.1 k (by simp [hk])) e⟩

theorem step_start {s t : Sys} {n : Side} {c : Command} (h : step r s (.start n c) = some t) :
    (s n).thread = .idle ∧ t = Function.update s n (startCommand r (s n) c) := by
  simp only [step] at h
  split_ifs at h with hi
  exact ⟨hi, (Option.some.inj h).symm⟩

theorem step_deliver {s t : Sys} {n : Side} (h : step r s (.deliver n) = some t) :
    ∃ reply replies e', (s n).replies = reply :: replies ∧
      receive r { s n with replies := replies } reply.text = some e' ∧
      t = Function.update s n e' := by
  simp only [step] at h
  cases hr : (s n).replies with
  | nil => simp [hr] at h
  | cons reply replies =>
      rw [hr] at h
      obtain ⟨e', he, rfl⟩ := Option.map_eq_some_iff.mp h
      exact ⟨reply, replies, e', rfl, he, rfl⟩

theorem step_respond {s t : Sys} {n : Side} (h : step r s (.respond n) = some t) :
    ∃ request requests node text, (s n.other).requests = request :: requests ∧
      (s n).node.responder r request = some (node, text) ∧
      t n = { s n with node := node } ∧
      t n.other = { s n.other with
        requests := requests
        replies := (s n.other).replies ++ sendReply request text } := by
  simp only [step] at h
  cases hr : (s n.other).requests with
  | nil => simp [hr] at h
  | cons request requests =>
      rw [hr] at h
      obtain ⟨⟨node, text⟩, hn, ht⟩ := Option.bind_eq_some_iff.mp h
      obtain rfl := Option.some.inj ht
      exact ⟨request, requests, node, text, rfl, hn, by simp, by simp⟩

end Inversion

end OperatingSystems.Dsm
