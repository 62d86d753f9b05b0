import OperatingSystems.Dsm.PageView
import OperatingSystems.Library.GuardedRun

/-!
# Pages do not interfere

All pages share the two connections, the command thread of each node and one flat
memory. With commands on single pages, a step concerns one page: the page of the
command, of the blocked command that reads a reply, or of the request that is
handled. The run that is left when all other steps are deleted keeps, for its page,
the state, the bytes and what is in flight. A command on another page leaves its node
idle there.
-/
namespace OperatingSystems.Dsm
open Library

/-- The page that a blocked command waits for. -/
def Thread.page : Thread → Option ℤ
  | .idle => none
  | .reading j _ => some j
  | .writing i _ _ _ => some i

/-- A command on a single page has nothing to visit after it. -/
def Thread.OnePage : Thread → Prop
  | .idle => True
  | .reading _ js => js = []
  | .writing i is p _ => is = [] ∧ p = i

/-- The message fits, and the page number is one of the region, not -1. -/
def Action.OnePage (r : Region) (a : Action) : Prop :=
  a.Ok r ∧ match a with
    | .start _ c => r.IsPage c.requestPage
    | _ => True

instance (r : Region) : DecidablePred (Action.OnePage r)
  | .start n c => inferInstanceAs (Decidable (Action.Ok r (.start n c) ∧ r.IsPage c.requestPage))
  | .deliver n => inferInstanceAs (Decidable (Action.Ok r (.deliver n) ∧ True))
  | .respond n => inferInstanceAs (Decidable (Action.Ok r (.respond n) ∧ True))

def requestedPage (request : CString) : Option ℤ := (decodeRequest request.bytes).map Prod.fst

def stepPage (s : Sys) : Action → Option ℤ
  | .start _ c => some c.requestPage
  | .deliver n => (s n).thread.page
  | .respond n => (s n.other).requests.head?.bind requestedPage

def concerns (p : ℤ) (s : Sys) (a : Action) : Bool := stepPage s a = some p

/-- The run without the steps that concern other pages. -/
def onlyPage (r : Region) (p : ℤ) (acts : List Action) : List Action :=
  kept (step r) (concerns p) (startSys r) acts

structure AgreeAt (r : Region) (p : ℤ) (a b : Node) : Prop where
  state : b.msiArray p = a.msiArray p
  mem : r.SamePage a.mem b.mem p

def requestsFor (p : ℤ) (e : Endpoint) : List CString :=
  e.requests.filter fun request => requestedPage request = some p

def repliesFor (p : ℤ) (e : Endpoint) : List Reply :=
  e.replies.filter fun reply => requestedPage reply.request = some p

/-- Both nodes have the same state and memory of `p`, and the same in flight for it. -/
def SameAt (r : Region) (p : ℤ) (s t : Sys) : Prop :=
  ∀ n, AgreeAt r p (s n).node (t n).node ∧ requestsFor p (t n) = requestsFor p (s n) ∧
    repliesFor p (t n) = repliesFor p (s n)

section Nodes
variable {r : Region} {p : ℤ} {a b c : Node}

theorem AgreeAt.refl (a : Node) : AgreeAt r p a a := ⟨rfl, fun _ _ => rfl⟩

theorem AgreeAt.symm (h : AgreeAt r p a b) : AgreeAt r p b a :=
  ⟨h.state.symm, fun k hk => (h.mem k hk).symm⟩

theorem AgreeAt.trans (h : AgreeAt r p a b) (h' : AgreeAt r p b c) : AgreeAt r p a c :=
  ⟨h'.state.trans h.state, fun k hk => (h'.mem k hk).trans (h.mem k hk)⟩

theorem AgreeAt.setState (h : AgreeAt r p a b) (j : ℤ) (st : MsiState) :
    AgreeAt r p (a.setState j st) (b.setState j st) where
  state := by rw [Node.setState_msiArray, Node.setState_msiArray, h.state]
  mem := h.mem

theorem AgreeAt.copyMessage (h : AgreeAt r p a b) (j : ℤ) (message : CString) :
    AgreeAt r p (a.setMem (r.copyMessage message a.mem j))
      (b.setMem (r.copyMessage message b.mem j)) where
  state := h.state
  mem k hk := by
    rw [Node.setMem_mem, Node.setMem_mem, Region.copyMessage, Region.copyMessage,
      writeString_apply, writeString_apply, h.mem k hk]

theorem AgreeAt.dontNeed (h : AgreeAt r p a b) (j : ℤ) :
    AgreeAt r p (a.setMem (r.dontNeed a.mem j)) (b.setMem (r.dontNeed b.mem j)) where
  state := h.state
  mem k hk := by
    simp only [Node.setMem_mem, Region.dontNeed, zeroFill, h.mem k hk]

theorem AgreeAt.storeReply (h : AgreeAt r p a b) {j : ℤ} (hj : r.IsPage j) (text : CString) :
    AgreeAt r p (storeReply r a j text) (storeReply r b j text) := by
  unfold Dsm.storeReply
  split_ifs
  · rw [Region.updatePageContents_of_isPage hj, Region.updatePageContents_of_isPage hj]
    exact (h.copyMessage j text).setState j .s
  · exact h.dontNeed j

theorem agreeAt_setState {j : ℤ} (hjp : j ≠ p) (a : Node) (st : MsiState) :
    AgreeAt r p a (a.setState j st) where
  state := by rw [Node.setState_msiArray, if_neg (Ne.symm hjp)]
  mem _ _ := rfl

end Nodes

section Frames
variable {r : SharedRegion} {p j : ℤ} (hp : r.IsPage p) (hj : r.IsPage j)
  {W : ℤ → CString → Prop} {a b : Node}
include hp hj

theorem agreeAt_copyMessage (a : Node) {message : CString} (hfit : message.strlen < r.pageSize)
    (hjp : j ≠ p) : AgreeAt r.toRegion p a (a.setMem (r.copyMessage message a.mem j)) :=
  ⟨rfl, SharedRegion.samePage_copyMessage hj hp hjp hfit a.mem⟩

theorem agreeAt_dontNeed (a : Node) (hjp : j ≠ p) :
    AgreeAt r.toRegion p a (a.setMem (r.dontNeed a.mem j)) :=
  ⟨rfl, SharedRegion.samePage_dontNeed hj hp hjp a.mem⟩

theorem agreeAt_storeReply (a : Node) {text : CString} (hfit : text.strlen < r.pageSize)
    (hjp : j ≠ p) : AgreeAt r.toRegion p a (storeReply r.toRegion a j text) := by
  unfold storeReply
  split_ifs
  · rw [Region.updatePageContents_of_isPage hj]
    exact (agreeAt_copyMessage hp hj a hfit hjp).trans (agreeAt_setState hjp _ .s)
  · exact agreeAt_dontNeed hp hj a hjp

/-- Handling a request for another page. -/
theorem agreeAt_responder {a' : Node} {text : CString} {op : ℤ}
    (hop : op = readOp ∨ op = invalidateOp) (hjp : j ≠ p)
    (h : a.responder r.toRegion (requestText j op) = some (a', text)) :
    AgreeAt r.toRegion p a a' := by
  rw [responder_requestText _ _ hj.1 (by rcases hop with rfl | rfl <;> decide)] at h
  rcases hop with rfl | rfl
  · rw [if_neg (by decide), if_pos rfl, getResponse_transition] at h
    obtain ⟨rfl, -⟩ := Prod.mk.inj (Option.some.inj h)
    split_ifs
    · exact .refl a
    · exact agreeAt_setState hjp a .s
  · rw [if_pos rfl] at h
    obtain ⟨rfl, -⟩ := Prod.mk.inj (Option.some.inj h)
    exact (agreeAt_setState hjp a .i).trans (agreeAt_dontNeed hp hj (a.setState j .i) hjp)

omit hj in
/-- Nodes that agree on the page handle a request for it alike. -/
theorem AgreeAt.responder (h : AgreeAt r.toRegion p a b) (hc : CopyOk r.toRegion W a p)
    {a' : Node} {text : CString} {op : ℤ} (hop : op = readOp ∨ op = invalidateOp)
    (hs : a.responder r.toRegion (requestText p op) = some (a', text)) :
    ∃ b', b.responder r.toRegion (requestText p op) = some (b', text) ∧
      AgreeAt r.toRegion p a' b' := by
  have htext : r.pageText b.mem p = r.pageText a.mem p := PageView.pageText_congr hp hc rfl h.mem
  have hreply : (b.getResponse r.toRegion p).2 = (a.getResponse r.toRegion p).2 := by
    unfold Node.getResponse
    rw [h.state, htext]
    cases a.msiArray p <;> rfl
  rw [responder_requestText _ _ hp.1 (by rcases hop with rfl | rfl <;> decide)] at hs ⊢
  rcases hop with rfl | rfl
  · rw [if_neg (by decide), if_pos rfl, getResponse_transition] at hs ⊢
    obtain ⟨rfl, rfl⟩ := Prod.mk.inj (Option.some.inj hs)
    rw [hreply, h.state]
    refine ⟨_, rfl, ?_⟩
    split_ifs
    · exact h
    · exact h.setState p .s
  · rw [if_pos rfl] at hs ⊢
    obtain ⟨rfl, rfl⟩ := Prod.mk.inj (Option.some.inj hs)
    exact ⟨_, rfl, (h.setState p .i).dontNeed p⟩

end Frames

section Commands
variable {r : Region} {e : Endpoint} {p : ℤ}

theorem resumePrint_echo (js : List ℤ) (e : Endpoint) :
    ∃ out, resumePrint r false js e = { e with thread := .idle, printed := out } := by
  induction js generalizing e with
  | nil => exact ⟨e.printed, rfl⟩
  | cons j js ih =>
      rw [resumePrint]
      cases e.node.msiArray j with
      | m => exact ih _
      | s => exact ih _
      | i => exact ih _

theorem startCommand_read (hp : r.IsPage p) (e : Endpoint) :
    ∃ out, startCommand r e (.read p) =
      if e.node.msiArray p = .i then
        { e with thread := .reading p [], requests := e.requests ++ [requestText p readOp] }
      else { e with thread := .idle, printed := out } := by
  rw [startCommand, Region.pagesOf_of_isPage hp, resumePrint]
  cases e.node.msiArray p with
  | m => exact ⟨_, rfl⟩
  | s => exact ⟨_, rfl⟩
  | i => exact ⟨[], rfl⟩

theorem startCommand_write (hp : r.IsPage p) (e : Endpoint) (message : CString) :
    startCommand r e (.write p message) =
      { e with
        node := (e.node.setMem (r.copyMessage message e.node.mem p)).setState p .m
        thread := .writing p [] p message
        requests := e.requests ++ [requestText p invalidateOp] } := by
  rw [startCommand, Region.pagesOf_of_isPage hp]
  rfl

/-- The node after a reply for the blocked command. -/
def receivedNode (r : Region) (node : Node) (text : CString) : Thread → Node
  | .reading j _ => storeReply r node j text
  | _ => node

theorem receive_onePage (h : e.thread.OnePage) (hne : e.thread ≠ .idle) (text : CString) :
    ∃ out, receive r e text =
      some { e with
        node := receivedNode r e.node text e.thread
        thread := .idle
        printed := out } := by
  unfold receive
  cases ht : e.thread with
  | idle => exact absurd ht hne
  | reading j js =>
      rw [ht] at h
      obtain rfl : js = [] := h
      exact ⟨_, rfl⟩
  | writing i is q m =>
      rw [ht] at h
      obtain ⟨rfl, rfl⟩ : is = [] ∧ q = i := h
      obtain ⟨out, hout⟩ := resumePrint_echo (r := r) (r.pagesOf q) e
      refine ⟨out, ?_⟩
      simp only [resumeUpdate, hout]
      rfl

end Commands

/-- Requests, replies and copies are as they should be, and threads wait for one page. -/
structure OnePages (r : Region) (s : Sys) : Prop where
  wf : Sys.Wf r (fun _ m => r.IsMessage m) s
  threads : ∀ n, (s n).thread.OnePage

section Steps
variable {r : SharedRegion} {p : ℤ} {s s' t : Sys}

theorem startCommand_onePage {c : Command} (hp : r.IsPage c.requestPage) (e : Endpoint) :
    (startCommand r.toRegion e c).thread.OnePage := by
  cases c with
  | read q =>
      replace hp : r.IsPage q := hp
      obtain ⟨out, hout⟩ := startCommand_read hp e
      rw [hout]
      split_ifs
      · rfl
      · trivial
  | write q m =>
      replace hp : r.IsPage q := hp
      rw [startCommand_write hp]
      exact ⟨rfl, rfl⟩

theorem OnePages.step {a : Action} (h : OnePages r.toRegion s) (ha : a.OnePage r.toRegion)
    (hs : Dsm.step r.toRegion s a = some s') : OnePages r.toRegion s' := by
  have hW : ∀ (_ : ℤ) (m : CString), r.IsMessage m → r.IsMessage m := fun _ _ hm => hm
  cases a with
  | start n c =>
      constructor
      · apply h.wf.start hW ha.1.isRequest _ hs
        rintro q m rfl k hk
        exact ha.1.2
      · obtain ⟨-, rfl⟩ := step_start hs
        exact (Function.forall_update_iff s fun _ e => e.thread.OnePage).mpr
          ⟨startCommand_onePage ha.2 _, fun k _ => h.threads k⟩
  | deliver n =>
      refine ⟨h.wf.deliver hW hs, ?_⟩
      obtain ⟨reply, replies, e', hr, he, rfl⟩ := step_deliver hs
      have hne : (s n).thread ≠ .idle := fun hi => by
        have hnone := ((h.wf n).idle hi).2
        simp [hr] at hnone
      obtain ⟨out, hout⟩ := receive_onePage (r := r.toRegion)
        (e := { s n with replies := replies }) (h.threads n) hne reply.text
      obtain rfl := Option.some.inj (hout.symm.trans he)
      exact (Function.forall_update_iff s fun _ e => e.thread.OnePage).mpr
        ⟨trivial, fun k _ => h.threads k⟩
  | respond n =>
      refine ⟨h.wf.respond hW hs, ?_⟩
      obtain ⟨request, requests, node, text, -, -, hn, ho⟩ := step_respond hs
      refine (Side.forall_iff n).mpr ⟨?_, ?_⟩
      · rw [hn]
        exact h.threads n
      · rw [ho]
        exact h.threads n.other

theorem onePages_run {acts : List Action} (h : GuardedRun (Dsm.step r.toRegion)
    (fun _ a => a.OnePage r.toRegion) (startSys r.toRegion) acts s) : OnePages r.toRegion s :=
  h.invariant (I := fun _ s => OnePages r.toRegion s) ⟨wf_start r, fun _ => trivial⟩
    fun _ _ _ _ hi ha hs => hi.step ha hs

/-- A request in flight is the one of the blocked command, and it is alone. -/
theorem Endpoint.Wf.requested {W : ℤ → CString → Prop} {e : Endpoint} {request : CString}
    {requests : List CString} (h : e.Wf r.toRegion W) (hr : e.requests = request :: requests) :
    requests = [] ∧ e.replies = [] ∧ ∃ j op, r.IsPage j ∧ e.thread.page = some j ∧
      (op = readOp ∨ op = invalidateOp) ∧ request = requestText j op := by
  have hl := h.link
  have hok := h.thread
  rw [hr] at hl
  generalize e.thread = th, e.replies = rp at hl hok ⊢
  cases hl with
  | readRequest j js hi => exact ⟨rfl, rfl, j, readOp, hok j (by simp), rfl, .inl rfl, rfl⟩
  | writeRequest i is q m =>
      exact ⟨rfl, rfl, i, invalidateOp, (hok.1 i (by simp)).1, rfl, .inr rfl, rfl⟩

theorem reply_fits {e : Endpoint} {reply : Reply}
    (h : e.Wf r.toRegion fun _ m => r.IsMessage m) (hmem : reply ∈ e.replies) :
    reply.text.strlen < r.pageSize := by
  have hps := r.pageSize_ge
  have hnull : nullText.strlen = 4 := rfl
  have hdone : successText.strlen = 7 := rfl
  rcases h.reply_kind hmem with ⟨j, js, -, htext | hmessage⟩ | ⟨i, is, q, m, -, htext⟩
  · rw [htext]
    omega
  · exact hmessage.2
  · rw [htext]
    omega

theorem requestedPage_requestText {j op : ℤ} (hj : 0 ≤ j)
    (hop : op = readOp ∨ op = invalidateOp) : requestedPage (requestText j op) = some j := by
  rw [requestedPage, decodeRequest_requestText hj (by rcases hop with rfl | rfl <;> decide)]
  rfl

/-- What the projected run has in place of the endpoint `e`: the same if the command is
about `p`, and an idle one if not. -/
structure Projected (r : Region) (p : ℤ) (e d : Endpoint) : Prop where
  node : AgreeAt r p e.node d.node
  blocked : e.thread.page = some p →
    d.thread = e.thread ∧ d.requests = e.requests ∧ d.replies = e.replies
  free : e.thread.page ≠ some p → d.thread = .idle ∧ d.requests = [] ∧ d.replies = []

theorem Projected.of_idle {r : Region} {e d : Endpoint} (h : AgreeAt r p e.node d.node)
    (he : e.thread = .idle) (hd : d.thread = .idle ∧ d.requests = [] ∧ d.replies = []) :
    Projected r p e d :=
  ⟨h, fun hpage => by simp [he, Thread.page] at hpage, fun _ => hd⟩

theorem Projected.of_blocked {r : Region} {e d : Endpoint} (h : AgreeAt r p e.node d.node)
    (he : e.thread.page = some p)
    (hd : d.thread = e.thread ∧ d.requests = e.requests ∧ d.replies = e.replies) :
    Projected r p e d :=
  ⟨h, fun _ => hd, fun hne => absurd he hne⟩

theorem Projected.of_other {r : Region} {e d : Endpoint} {j : ℤ}
    (h : AgreeAt r p e.node d.node) (he : e.thread.page = some j) (hjp : j ≠ p)
    (hd : d.thread = .idle ∧ d.requests = [] ∧ d.replies = []) : Projected r p e d :=
  ⟨h, fun hpage => absurd (Option.some.inj (he.symm.trans hpage)) hjp, fun _ => hd⟩

def SysProjected (r : Region) (p : ℤ) (s t : Sys) : Prop := ∀ n, Projected r p (s n) (t n)

theorem SysProjected.update {r : Region} (h : SysProjected r p s t) {n : Side} {e d : Endpoint}
    (he : Projected r p e d) :
    SysProjected r p (Function.update s n e) (Function.update t n d) := by
  intro k
  by_cases hk : k = n
  · subst hk
    simpa using he
  · simpa [Function.update_of_ne hk] using h k

theorem SysProjected.update_left {r : Region} (h : SysProjected r p s t) {n : Side}
    {e : Endpoint} (he : Projected r p e (t n)) : SysProjected r p (Function.update s n e) t := by
  simpa using h.update (n := n) he

variable {n : Side}

theorem Projected.start {c : Command} {e d : Endpoint} (h : Projected r.toRegion p e d)
    (hc : r.IsPage c.requestPage) (hpage : c.requestPage = p) (hi : e.thread = .idle)
    (hrq : e.requests = []) (hrp : e.replies = []) :
    Projected r.toRegion p (startCommand r.toRegion e c) (startCommand r.toRegion d c) := by
  obtain ⟨-, hdq, hdp⟩ := h.free (by simp [hi, Thread.page])
  cases c with
  | read q =>
      obtain rfl : q = p := hpage
      replace hc : r.IsPage q := hc
      obtain ⟨out, hout⟩ := startCommand_read hc e
      obtain ⟨out', hout'⟩ := startCommand_read hc d
      rw [hout, hout', h.node.state]
      split_ifs
      · exact .of_blocked h.node rfl ⟨rfl, by simp [hrq, hdq], by simp [hrp, hdp]⟩
      · exact .of_idle h.node rfl ⟨rfl, hdq, hdp⟩
  | write q m =>
      obtain rfl : q = p := hpage
      replace hc : r.IsPage q := hc
      rw [startCommand_write hc, startCommand_write hc]
      exact .of_blocked ((h.node.copyMessage q m).setState q .m) rfl
        ⟨rfl, by simp [hrq, hdq], by simp [hrp, hdp]⟩

theorem Projected.start_other {c : Command} {e d : Endpoint} (h : Projected r.toRegion p e d)
    (hp : r.IsPage p) (hc : r.IsCommand c) (hcp : r.IsPage c.requestPage)
    (hpage : c.requestPage ≠ p) (hi : e.thread = .idle) :
    Projected r.toRegion p (startCommand r.toRegion e c) d := by
  have hfree := h.free (by simp [hi, Thread.page])
  cases c with
  | read q =>
      replace hcp : r.IsPage q := hcp
      obtain ⟨out, hout⟩ := startCommand_read hcp e
      rw [hout]
      split_ifs
      · exact .of_other h.node rfl hpage hfree
      · exact .of_idle h.node rfl hfree
  | write q m =>
      replace hcp : r.IsPage q := hcp
      rw [startCommand_write hcp]
      have hframe := (agreeAt_copyMessage hp hcp e.node hc.2.2 hpage).trans
        (agreeAt_setState hpage _ .m)
      exact .of_other (hframe.symm.trans h.node) rfl hpage hfree

/-- A reply for the blocked command, whose node agrees on the page. -/
theorem AgreeAt.received {a b : Node} (h : AgreeAt r.toRegion p a b) {thread : Thread}
    (hok : thread.Ok r.toRegion fun _ m => r.IsMessage m) (text : CString) :
    AgreeAt r.toRegion p (receivedNode r.toRegion a text thread)
      (receivedNode r.toRegion b text thread) := by
  cases thread with
  | idle => exact h
  | reading j js => exact h.storeReply (hok j (by simp)) text
  | writing i is q m => exact h

theorem agreeAt_received (hp : r.IsPage p) (a : Node) {thread : Thread}
    (hok : thread.Ok r.toRegion fun _ m => r.IsMessage m) (hpage : thread.page ≠ some p)
    {text : CString} (hfit : text.strlen < r.pageSize) :
    AgreeAt r.toRegion p a (receivedNode r.toRegion a text thread) := by
  cases thread with
  | idle => exact .refl a
  | reading j js =>
      exact agreeAt_storeReply hp (hok j (by simp)) a hfit fun h => hpage (congrArg some h)
  | writing i is q m => exact .refl a

theorem SysProjected.start (hi : OnePages r.toRegion s) (h : SysProjected r.toRegion p s t)
    {c : Command} (ha : (Action.start n c).OnePage r.toRegion)
    (hk : c.requestPage = p) (hs : step r.toRegion s (.start n c) = some s') :
    ∃ t', step r.toRegion t (.start n c) = some t' ∧ SysProjected r.toRegion p s' t' := by
  obtain ⟨hidle, rfl⟩ := step_start hs
  obtain ⟨hrq, hrp⟩ := (hi.wf n).idle hidle
  obtain ⟨htidle, -, -⟩ := (h n).free (by simp [hidle, Thread.page])
  refine ⟨_, if_pos htidle, h.update ?_⟩
  exact (h n).start ha.2 hk hidle hrq hrp

theorem SysProjected.deliver (hi : OnePages r.toRegion s) (h : SysProjected r.toRegion p s t)
    (hk : (s n).thread.page = some p) (hs : step r.toRegion s (.deliver n) = some s') :
    ∃ t', step r.toRegion t (.deliver n) = some t' ∧ SysProjected r.toRegion p s' t' := by
  obtain ⟨reply, replies, e', hr, he, rfl⟩ := step_deliver hs
  obtain ⟨rfl, hrq, -⟩ := (hi.wf n).replied hr
  obtain ⟨hthread, hreq, hrep⟩ := (h n).blocked hk
  have hne : (s n).thread ≠ .idle := fun hidle => by simp [hidle, Thread.page] at hk
  obtain ⟨out, hout⟩ := receive_onePage (r := r.toRegion) (e := { s n with replies := [] })
    (hi.threads n) hne reply.text
  obtain ⟨out', hout'⟩ := receive_onePage (r := r.toRegion) (e := { t n with replies := [] })
    (by rw [hthread]; exact hi.threads n) (by rw [hthread]; exact hne) reply.text
  obtain rfl := Option.some.inj (hout.symm.trans he)
  have hstep : step r.toRegion t (.deliver n) = some (Function.update t n
      { t n with
        node := receivedNode r.toRegion (t n).node reply.text (t n).thread
        thread := .idle
        printed := out'
        replies := [] }) := by
    simp only [step, hrep, hr, hout']
    rfl
  refine ⟨_, hstep, h.update (.of_idle ?_ rfl ⟨rfl, hreq.trans hrq, rfl⟩)⟩
  rw [hthread]
  exact (h n).node.received (hi.wf n).thread reply.text

theorem SysProjected.deliver_other (hp : r.IsPage p) (hi : OnePages r.toRegion s)
    (h : SysProjected r.toRegion p s t) (hk : (s n).thread.page ≠ some p)
    (hs : step r.toRegion s (.deliver n) = some s') : SysProjected r.toRegion p s' t := by
  obtain ⟨reply, replies, e', hr, he, rfl⟩ := step_deliver hs
  have hne : (s n).thread ≠ .idle := fun hidle => by
    have hnone := ((hi.wf n).idle hidle).2
    simp [hr] at hnone
  have hfit := reply_fits (hi.wf n) (by simp [hr] : reply ∈ (s n).replies)
  obtain ⟨out, hout⟩ := receive_onePage (r := r.toRegion)
    (e := { s n with replies := replies }) (hi.threads n) hne reply.text
  obtain rfl := Option.some.inj (hout.symm.trans he)
  have hframe := agreeAt_received hp (s n).node (hi.wf n).thread hk hfit
  exact h.update_left (.of_idle (hframe.symm.trans (h n).node) rfl ((h n).free hk))

theorem SysProjected.respond (hp : r.IsPage p) (hi : OnePages r.toRegion s)
    (h : SysProjected r.toRegion p s t)
    (hk : (s n.other).requests.head?.bind requestedPage = some p)
    (hs : step r.toRegion s (.respond n) = some s') :
    ∃ t', step r.toRegion t (.respond n) = some t' ∧ SysProjected r.toRegion p s' t' := by
  obtain ⟨request, requests, node, text, hreq, hresp, hn, ho⟩ := step_respond hs
  obtain ⟨rfl, hrp, j, op, hj, hpage, hop, rfl⟩ := (hi.wf n.other).requested hreq
  rw [hreq, List.head?_cons, Option.bind_some, requestedPage_requestText hj.1 hop] at hk
  obtain rfl := Option.some.inj hk
  obtain ⟨hthread, htreq, htrep⟩ := (h n.other).blocked hpage
  obtain ⟨node', hresp', hagree⟩ :=
    (h n).node.responder hp ((hi.wf n).copies j hp) hop hresp
  refine ⟨_, by simp only [step, htreq, hreq, hresp']; rfl, (Side.forall_iff n).mpr ⟨?_, ?_⟩⟩
  · rw [hn]
    simp only [Function.update_of_ne (Side.ne_other n), Function.update_self]
    exact ⟨hagree, (h n).blocked, (h n).free⟩
  · rw [ho, Function.update_self]
    exact .of_blocked (h n.other).node hpage ⟨hthread, rfl, by rw [htrep]⟩

theorem SysProjected.respond_other (hp : r.IsPage p) (hi : OnePages r.toRegion s)
    (h : SysProjected r.toRegion p s t)
    (hk : (s n.other).requests.head?.bind requestedPage ≠ some p)
    (hs : step r.toRegion s (.respond n) = some s') : SysProjected r.toRegion p s' t := by
  obtain ⟨request, requests, node, text, hreq, hresp, hn, ho⟩ := step_respond hs
  obtain ⟨rfl, hrp, j, op, hj, hpage, hop, rfl⟩ := (hi.wf n.other).requested hreq
  rw [hreq, List.head?_cons, Option.bind_some, requestedPage_requestText hj.1 hop] at hk
  have hjp : j ≠ p := fun e => hk (congrArg some e)
  have hframe := agreeAt_responder hp hj hop hjp hresp
  refine (Side.forall_iff n).mpr ⟨?_, ?_⟩
  · rw [hn]
    exact ⟨hframe.symm.trans (h n).node, (h n).blocked, (h n).free⟩
  · rw [ho]
    exact .of_other (h n.other).node hpage hjp ((h n.other).free (by rw [hpage]; exact hk))

/-- A kept step is a step of the projected run, too. -/
theorem SysProjected.keep (hp : r.IsPage p) (hi : OnePages r.toRegion s)
    (h : SysProjected r.toRegion p s t) {a : Action} (ha : a.OnePage r.toRegion)
    (hk : stepPage s a = some p) (hs : step r.toRegion s a = some s') :
    ∃ t', step r.toRegion t a = some t' ∧ SysProjected r.toRegion p s' t' := by
  cases a with
  | start n c => exact h.start hi ha (Option.some.inj hk) hs
  | deliver n => exact h.deliver hi hk hs
  | respond n => exact h.respond hp hi hk hs

theorem SysProjected.skip (hp : r.IsPage p) (hi : OnePages r.toRegion s)
    (h : SysProjected r.toRegion p s t) {a : Action} (ha : a.OnePage r.toRegion)
    (hk : stepPage s a ≠ some p) (hs : step r.toRegion s a = some s') :
    SysProjected r.toRegion p s' t := by
  cases a with
  | start n c =>
      obtain ⟨hidle, rfl⟩ := step_start hs
      exact h.update_left
        ((h n).start_other hp ha.1 ha.2 (fun e => hk (congrArg some e)) hidle)
  | deliver n => exact h.deliver_other hp hi hk hs
  | respond n => exact h.respond_other hp hi hk hs

theorem Projected.sameFor {e d : Endpoint} (h : Projected r.toRegion p e d)
    (he : e.Wf r.toRegion fun _ m => r.IsMessage m) :
    requestsFor p d = requestsFor p e ∧ repliesFor p d = repliesFor p e := by
  unfold requestsFor repliesFor
  by_cases hpage : e.thread.page = some p
  · obtain ⟨-, hrq, hrp⟩ := h.blocked hpage
    rw [hrq, hrp]
    exact ⟨rfl, rfl⟩
  · obtain ⟨-, hrq, hrp⟩ := h.free hpage
    rw [hrq, hrp]
    have hl := he.link
    have hok := he.thread
    generalize e.thread = th, e.requests = rq, e.replies = rp at hl hok hpage ⊢
    have hrequest : ∀ {j op : ℤ}, r.IsPage j → (op = readOp ∨ op = invalidateOp) →
        some j ≠ some p → ¬ requestedPage (requestText j op) = some p := fun hj hop hne => by
      rwa [requestedPage_requestText hj.1 hop]
    cases hl with
    | idle => exact ⟨rfl, rfl⟩
    | readRequest j js hi => simp [hrequest (hok j (by simp)) (.inl rfl) hpage]
    | readReply j js t hi ht => simp [hrequest (hok j (by simp)) (.inl rfl) hpage]
    | writeRequest i is q m => simp [hrequest (hok.1 i (by simp)).1 (.inr rfl) hpage]
    | writeReply i is q m => simp [hrequest (hok.1 i (by simp)).1 (.inr rfl) hpage]

theorem SysProjected.sameAt (h : SysProjected r.toRegion p s t) (hi : OnePages r.toRegion s) :
    SameAt r.toRegion p s t := fun n => ⟨(h n).node, (h n).sameFor (hi.wf n)⟩

theorem SameAt.symm (h : SameAt r.toRegion p s t) : SameAt r.toRegion p t s := fun n =>
  ⟨(h n).1.symm, (h n).2.1.symm, (h n).2.2.symm⟩

theorem SameAt.trans {u : Sys} (h : SameAt r.toRegion p s t) (h' : SameAt r.toRegion p t u) :
    SameAt r.toRegion p s u := fun n =>
  ⟨(h n).1.trans (h' n).1, (h' n).2.1.trans (h n).2.1, (h' n).2.2.trans (h n).2.2⟩

/-- The steps that concern `p` are a run, and it ends with the same `p`. -/
theorem onlyPage_run (hp : r.IsPage p) {acts : List Action} (h : GuardedRun (step r.toRegion)
      (fun _ a => a.OnePage r.toRegion) (startSys r.toRegion) acts s) :
    ∃ t, GuardedRun (step r.toRegion) (fun _ a => a.OnePage r.toRegion) (startSys r.toRegion)
        (onlyPage r.toRegion p acts) t ∧ SameAt r.toRegion p s t := by
  have hkept : ∃ t, GuardedRun (step r.toRegion) (fun _ a => a.OnePage r.toRegion)
      (startSys r.toRegion) (onlyPage r.toRegion p acts) t ∧ SysProjected r.toRegion p s t := by
    apply h.kept (I := OnePages r.toRegion) (R := SysProjected r.toRegion p)
    · exact fun as s hrun => onePages_run hrun
    · exact fun n => .of_idle (.refl _) rfl ⟨rfl, rfl, rfl⟩
    · intro s s' t a hi hR ha hk hs
      obtain ⟨t', ht', hR'⟩ := hR.keep hp hi ha (of_decide_eq_true hk) hs
      exact ⟨t', ha, ht', hR'⟩
    · intro s s' t a hi hR ha hk hs
      exact hR.skip hp hi ha (fun e => hk (decide_eq_true e)) hs
  obtain ⟨t, ht, hR⟩ := hkept
  exact ⟨t, ht, hR.sameAt (onePages_run h)⟩

end Steps

/-- Deleting the steps for other pages leaves a run that ends with the same page, and so
runs that only order operations on different pages differently end with the same page. -/
theorem pages_independent (r : SharedRegion) {p : ℤ} (hp : r.IsPage p) {acts : List Action}
    {s : Sys} (h : GuardedRun (step r.toRegion) (fun _ a => a.OnePage r.toRegion)
      (startSys r.toRegion) acts s) :
    (∃ t, GuardedRun (step r.toRegion) (fun _ a => a.OnePage r.toRegion) (startSys r.toRegion)
        (onlyPage r.toRegion p acts) t ∧ SameAt r.toRegion p s t) ∧
      ∀ acts' s', GuardedRun (step r.toRegion) (fun _ a => a.OnePage r.toRegion)
          (startSys r.toRegion) acts' s' →
        onlyPage r.toRegion p acts' = onlyPage r.toRegion p acts → SameAt r.toRegion p s s' := by
  obtain ⟨t, ht, hsame⟩ := onlyPage_run hp h
  refine ⟨⟨t, ht, hsame⟩, fun acts' s' h' he => ?_⟩
  obtain ⟨t', ht', hsame'⟩ := onlyPage_run hp h'
  have htt : t' = t := Option.some.inj (ht'.runActions.symm.trans (he ▸ ht.runActions))
  exact hsame.trans (htt ▸ hsame').symm

/-- A write of page 0 and a read of page 1 that cross. -/
def crossingPages : List Action :=
  [.start .first (.write 0 textA), .start .second (.read 1), .respond .first, .respond .second,
    .deliver .first, .start .first (.read 1), .deliver .second]

theorem pages_independent_crossing :
    ∃ s, GuardedRun (step twoPages.toRegion) (fun _ a => a.OnePage twoPages.toRegion)
        (startSys twoPages.toRegion) crossingPages s ∧
      ∃ t, GuardedRun (step twoPages.toRegion) (fun _ a => a.OnePage twoPages.toRegion)
          (startSys twoPages.toRegion) (onlyPage twoPages.toRegion 0 crossingPages) t ∧
        SameAt twoPages.toRegion 0 s t := by
  obtain ⟨s, hs⟩ := Option.isSome_iff_exists.mp (by decide +kernel :
    (runActions (guardedStep (step twoPages.toRegion) fun _ a => a.OnePage twoPages.toRegion)
      (startSys twoPages.toRegion) crossingPages).isSome)
  exact ⟨s, .of_runActions hs, (pages_independent twoPages (by decide) (.of_runActions hs)).1⟩

end OperatingSystems.Dsm
