import OperatingSystems.Dsm.Coherence
import OperatingSystems.Dsm.Interleaving

/-!
# Sessions are runs of the two nodes

A session calls the peer's responder where the interleaved system sends a request,
lets the responder take one turn and delivers the reply. While only one command
runs, its endpoint is the only one that is not settled, and each round trip of
`communicateWithPeer` is the two steps `respond` and `deliver`. Every session is
therefore a run of the interleaved system that starts the same commands in the
same order and prints the same texts.
-/
namespace OperatingSystems.Dsm
open Library

/-- No command runs and nothing is in flight; node `n` has printed `out n`. -/
def settled (σ : Nodes) (out : Side → List (ℤ × CString)) : Sys :=
  fun n => ⟨σ n, .idle, out n, [], []⟩

/-- Node `n` runs a command and the other node is settled. -/
def running (σ : Nodes) (out : Side → List (ℤ × CString)) (n : Side) (e : Endpoint) : Sys :=
  Function.update (settled σ out) n e

def Action.started : Action → Option (Side × Command)
  | .start n c => some (n, c)
  | _ => none

/-- What node `n` prints in a session with the given outputs. -/
def printedAt (n : Side) (cmds : List (Side × Command))
    (outputs : List (List (ℤ × CString))) : List (ℤ × CString) :=
  ((cmds.zip outputs).filter (·.1.1 = n)).flatMap Prod.snd

theorem quiescent_settled (σ : Nodes) (out : Side → List (ℤ × CString)) :
    Quiescent (settled σ out) := fun _ => ⟨rfl, rfl, rfl⟩

section RoundTrips
variable {r : Region} {n : Side} {σ : Nodes} {out : Side → List (ℤ × CString)} {e : Endpoint}

/-- Beside the endpoint that runs only the other node's copy counts. -/
theorem running_caller (node : Node) :
    running (Function.update σ n node) out n e = running σ out n e := by
  funext k
  rcases Side.eq_or_other n k with rfl | rfl
  · simp [running]
  · simp [running, settled]

theorem running_idle {o : List (ℤ × CString)} :
    running σ out n ⟨σ n, .idle, o, [], []⟩ = settled σ (Function.update out n o) := by
  funext k
  rcases Side.eq_or_other n k with rfl | rfl
  · simp [running, settled]
  · simp [running, settled]

/-- One call of `communicateWithPeer`: the peer's turn and the delivery of its reply. -/
theorem run_communicate {σ' : Nodes} {page operation : ℤ} {message : CString} {e' : Endpoint}
    (hc : communicateWithPeer r n σ page operation = some (σ', message))
    (hreq : e.requests = [requestText page operation]) (hrep : e.replies = [])
    (he : receive r { e with requests := [] } message = some e') :
    runActions (step r) (running σ out n e) [.respond n.other, .deliver n] =
      some (running σ' out n e') := by
  obtain ⟨⟨peer, reply⟩, hp, hs⟩ := Option.bind_eq_some_iff.mp hc
  dsimp only at hs
  split_ifs at hs with hlen
  obtain ⟨rfl, rfl⟩ := Prod.mk.inj (Option.some.inj hs)
  have hrespond : step r (running σ out n e) (.respond n.other) =
      some (running (Function.update σ n.other peer) out n
        { e with requests := [], replies := [⟨requestText page operation, reply⟩] }) := by
    have hn : running σ out n e n = e := Function.update_self ..
    have ho : running σ out n e n.other = ⟨σ n.other, .idle, out n.other, [], []⟩ :=
      Function.update_of_ne (Side.other_ne n) ..
    have hsend : sendReply (requestText page operation) reply =
        [⟨requestText page operation, reply⟩] := if_neg hlen
    simp only [step, Side.other_other, hn, ho, hreq, hp, hrep, hsend, Option.bind_eq_bind,
      Option.bind_some]
    refine congrArg some (funext fun k => ?_)
    rcases Side.eq_or_other n k with rfl | rfl
    · simp [running]
    · simp [running, settled]
  have hdeliver : step r (running (Function.update σ n.other peer) out n
      { e with requests := [], replies := [⟨requestText page operation, reply⟩] })
      (.deliver n) = some (running (Function.update σ n.other peer) out n e') := by
    obtain ⟨node, thread, printed, requests, replies⟩ := e
    obtain rfl : replies = [] := hrep
    simp only [step, running, Function.update_self, he, Option.map_some, Function.update_idem]
  simp only [runActions, hrespond, hdeliver, Option.bind_some]

theorem communicate_caller {page operation : ℤ} {σ' : Nodes} {message : CString}
    (h : communicateWithPeer r n σ page operation = some (σ', message)) : σ' n = σ n := by
  obtain ⟨⟨peer, reply⟩, -, hs⟩ := Option.bind_eq_some_iff.mp h
  dsimp only at hs
  split_ifs at hs
  obtain ⟨rfl, -⟩ := Prod.mk.inj (Option.some.inj hs)
  exact Function.update_of_ne (Side.ne_other n) ..

/-- The body of the loop of `printPageContents` on an invalid page, after the answer. -/
theorem printPage_fetch {j : ℤ} {σ' : Nodes} {text : CString} (hj : (σ n).msiArray j = .i)
    (h : printPage r n true σ j = some (σ', text)) :
    ∃ τ message, communicateWithPeer r n σ j readOp = some (τ, message) ∧
      σ' = Function.update τ n (storeReply r (σ n) j message) ∧ text = shownReply message := by
  simp only [printPage, hj, if_true] at h
  obtain ⟨⟨τ, message⟩, hc, hs⟩ := Option.bind_eq_some_iff.mp h
  refine ⟨τ, message, hc, ?_⟩
  dsimp only at hs
  rw [communicate_caller hc] at hs
  unfold storeReply shownReply
  split_ifs at hs ⊢ with hm
  · obtain ⟨rfl, rfl⟩ := Prod.mk.inj (Option.some.inj hs)
    exact ⟨rfl, rfl⟩
  · obtain ⟨rfl, rfl⟩ := Prod.mk.inj (Option.some.inj hs)
    exact ⟨rfl, rfl⟩

/-- A page that is not fetched is printed without a step of the system. -/
theorem printPage_silent {fetch : Bool} {j : ℤ} {σ' : Nodes} {text : CString} (js : List ℤ)
    (e : Endpoint) (hj : (σ n).msiArray j ≠ .i ∨ fetch = false)
    (h : printPage r n fetch σ j = some (σ', text)) (he : e.node = σ n) :
    σ' = σ ∧ resumePrint r fetch (j :: js) e = resumePrint r fetch js (e.print j text) := by
  cases hs : (σ n).msiArray j with
  | m =>
      simp only [printPage, hs, Option.some.injEq, Prod.mk.injEq] at h
      obtain ⟨rfl, rfl⟩ := h
      exact ⟨rfl, by simp only [resumePrint, he, hs]⟩
  | s =>
      simp only [printPage, hs, Option.some.injEq, Prod.mk.injEq] at h
      obtain ⟨rfl, rfl⟩ := h
      exact ⟨rfl, by simp only [resumePrint, he, hs]⟩
  | i =>
      obtain rfl : fetch = false := hj.resolve_left (not_not.mpr hs)
      simp only [printPage, hs, Bool.false_eq_true, if_false, Option.some.injEq,
        Prod.mk.injEq] at h
      obtain ⟨rfl, rfl⟩ := h
      exact ⟨rfl, by simp only [resumePrint, he, hs, Bool.false_eq_true, if_false]⟩

theorem run_printPages {fetch : Bool} {js : List ℤ} {σ' : Nodes} {outputs : List (ℤ × CString)}
    (th : Thread) (o : List (ℤ × CString))
    (h : printPages r n fetch js σ = some (σ', outputs)) :
    ∃ acts, acts.filterMap Action.started = [] ∧
      runActions (step r) (running σ out n (resumePrint r fetch js ⟨σ n, th, o, [], []⟩)) acts =
        some (settled σ' (Function.update out n (o ++ outputs))) := by
  induction js generalizing σ th o outputs with
  | nil =>
      obtain ⟨rfl, rfl⟩ := Prod.mk.inj (Option.some.inj h)
      refine ⟨[], rfl, ?_⟩
      rw [List.append_nil, ← running_idle]
      rfl
  | cons j js ih =>
      obtain ⟨⟨τ, text⟩, hp, hrest⟩ := Option.bind_eq_some_iff.mp h
      obtain ⟨⟨τ', rest⟩, hps, hs⟩ := Option.bind_eq_some_iff.mp hrest
      obtain ⟨rfl, rfl⟩ := Prod.mk.inj (Option.some.inj hs)
      by_cases hj : (σ n).msiArray j ≠ .i ∨ fetch = false
      · obtain ⟨rfl, he⟩ := printPage_silent js ⟨σ n, th, o, [], []⟩ hj hp rfl
        rw [he]
        obtain ⟨acts, hst, hrun⟩ := ih th (o ++ [(j, text)]) hps
        refine ⟨acts, hst, ?_⟩
        rw [List.append_assoc] at hrun
        exact hrun
      · obtain ⟨hi, hf⟩ := not_or.mp hj
        obtain rfl : fetch = true := by simpa using hf
        have hi' : (σ n).msiArray j = .i := not_not.mp hi
        obtain ⟨τ', message, hc, rfl, rfl⟩ := printPage_fetch hi' hp
        obtain ⟨acts, hst, hrun⟩ :=
          ih (.reading j js) (o ++ [(j, shownReply message)]) hps
        have hblocked : resumePrint r true (j :: js) ⟨σ n, th, o, [], []⟩ =
            ⟨σ n, .reading j js, o, [requestText j readOp], []⟩ := by
          simp only [resumePrint, hi', if_true, List.nil_append]
        refine ⟨[.respond n.other, .deliver n] ++ acts, hst, ?_⟩
        rw [hblocked, runActions_append, run_communicate hc rfl rfl rfl, Option.bind_some]
        rw [Function.update_self, List.append_assoc, running_caller] at hrun
        exact hrun

theorem run_updatePages {is : List ℤ} {message : CString} {σ' : Nodes} (requestPage : ℤ)
    (th : Thread) (o : List (ℤ × CString)) (h : updatePages r n message is σ = some σ') :
    ∃ acts th', acts.filterMap Action.started = [] ∧
      runActions (step r)
          (running σ out n (resumeUpdate r requestPage message is ⟨σ n, th, o, [], []⟩)) acts =
        some (running σ' out n
          (resumePrint r false (r.pagesOf requestPage) ⟨σ' n, th', o, [], []⟩)) := by
  induction is generalizing σ th with
  | nil =>
      obtain rfl := Option.some.inj h
      exact ⟨[], th, rfl, rfl⟩
  | cons i is ih =>
      obtain ⟨τ, hp, hps⟩ := Option.bind_eq_some_iff.mp h
      obtain ⟨⟨τ', reply⟩, hc, hs⟩ := Option.bind_eq_some_iff.mp hp
      obtain rfl := Option.some.inj hs
      obtain ⟨acts, th', hst, hrun⟩ := ih (.writing i is requestPage message) hps
      have hτ : τ' n = ((σ n).setMem (r.copyMessage message (σ n).mem i)).setState i .m := by
        rw [communicate_caller hc, Function.update_self]
      refine ⟨[.respond n.other, .deliver n] ++ acts, th', hst, ?_⟩
      rw [hτ] at hrun
      rw [runActions_append, ← running_caller, run_communicate hc rfl rfl rfl, Option.bind_some]
      exact hrun

end RoundTrips

section Sessions
variable {r : Region}

theorem execute_is_run {n : Side} {c : Command} {σ σ' : Nodes} {outputs : List (ℤ × CString)}
    (out : Side → List (ℤ × CString)) (h : execute r n σ c = some (σ', outputs)) :
    ∃ acts, acts.filterMap Action.started = [] ∧
      runActions (step r) (settled σ out) (.start n c :: acts) =
        some (settled σ' (Function.update out n (out n ++ outputs))) := by
  have hstart : step r (settled σ out) (.start n c) =
      some (running σ out n (startCommand r ⟨σ n, .idle, out n, [], []⟩ c)) := by
    simp only [step]
    exact if_pos rfl
  simp only [runActions, hstart, Option.bind_some]
  cases c with
  | read p => exact run_printPages .idle (out n) h
  | write p message =>
      obtain ⟨τ, hu, hp⟩ := Option.bind_eq_some_iff.mp h
      obtain ⟨acts, th, hst, hrun⟩ := run_updatePages p .idle (out n) hu
      obtain ⟨acts', hst', hrun'⟩ := run_printPages th (out n) hp
      refine ⟨acts ++ acts', by rw [List.filterMap_append, hst, hst']; rfl, ?_⟩
      rw [runActions_append]
      exact (congrArg (Option.bind · _) hrun).trans hrun'

end Sessions

end OperatingSystems.Dsm
