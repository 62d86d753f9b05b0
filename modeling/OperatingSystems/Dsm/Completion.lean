import OperatingSystems.Dsm.Matching
import OperatingSystems.Dsm.Sequential

/-!
# Every command ends

A blocked command has at most two steps left for the page it waits for, the peer's
answer and the delivery of the reply, and two for each page that its loop has still to
visit. Whatever the other node does in the meantime, these are its only messages: the
responder never sends a request of its own. So the commands of a run take at most two
steps for each of their pages, and without new commands every run comes to rest.
-/
namespace OperatingSystems.Dsm
open Library

/-- The pages that a blocked command visits after the one it waits for. -/
def Thread.ahead : Thread → ℕ
  | .idle => 0
  | .reading _ js => js.length
  | .writing _ is _ _ => is.length

/-- The steps that a command has left at most. -/
def Endpoint.stepsLeft (e : Endpoint) : ℕ :=
  if e.thread = .idle then 0 else 2 * e.thread.ahead + if e.replies = [] then 2 else 1

def stepsLeft (s : Sys) : ℕ := (s .first).stepsLeft + (s .second).stepsLeft

/-- A delivery or an answer. -/
def Action.continues (a : Action) : Bool := a.started.isNone

section Commands
variable {r : Region} {e : Endpoint}

theorem stepsLeft_fetching (js : List ℤ) (hrep : e.replies = []) :
    (resumePrint r true js e).stepsLeft ≤ 2 * js.length := by
  induction js generalizing e with
  | nil => simp [resumePrint, Endpoint.stepsLeft]
  | cons j js ih =>
      have hrest := ih (e := e.print j (r.pageText e.node.mem j)) hrep
      rw [List.length_cons, resumePrint]
      cases e.node.msiArray j with
      | m => exact hrest.trans (by omega)
      | s => exact hrest.trans (by omega)
      | i =>
          simp only [if_pos, Endpoint.stepsLeft, Thread.ahead, hrep, reduceCtorEq, if_false]
          omega

theorem stepsLeft_echo (js : List ℤ) (e : Endpoint) :
    (resumePrint r false js e).stepsLeft = 0 := by
  induction js generalizing e with
  | nil => exact if_pos rfl
  | cons j js ih =>
      rw [resumePrint]
      cases e.node.msiArray j with
      | m => exact ih _
      | s => exact ih _
      | i => exact ih _

theorem stepsLeft_resumeUpdate (p : ℤ) (message : CString) (is : List ℤ)
    (hrep : e.replies = []) : (resumeUpdate r p message is e).stepsLeft ≤ 2 * is.length := by
  cases is with
  | nil => exact Nat.le_of_eq (stepsLeft_echo (r.pagesOf p) e)
  | cons i is =>
      simp only [resumeUpdate, Endpoint.stepsLeft, Thread.ahead, hrep, reduceCtorEq, if_false,
        if_true, List.length_cons]
      omega

theorem stepsLeft_receive {e' : Endpoint} {text : CString} (hrep : e.replies = [])
    (h : receive r e text = some e') : e'.stepsLeft ≤ 2 * e.thread.ahead := by
  unfold receive at h
  cases ht : e.thread with
  | idle => simp [ht] at h
  | reading j js =>
      rw [ht] at h
      obtain rfl := Option.some.inj h
      exact stepsLeft_fetching js hrep
  | writing i is p m =>
      rw [ht] at h
      obtain rfl := Option.some.inj h
      exact stepsLeft_resumeUpdate p m is hrep

end Commands

section Steps
variable {r : SharedRegion} {W : ℤ → CString → Prop} {s t : Sys}

theorem Endpoint.stepsLeft_of_request {e : Endpoint} (ht : e.thread ≠ .idle)
    (h : e.replies = []) : e.stepsLeft = 2 * e.thread.ahead + 2 := by
  rw [stepsLeft, if_neg ht, if_pos h]

theorem Endpoint.stepsLeft_of_reply {e : Endpoint} (ht : e.thread ≠ .idle)
    (h : e.replies ≠ []) : e.stepsLeft = 2 * e.thread.ahead + 1 := by
  rw [stepsLeft, if_neg ht, if_neg h]

theorem stepsLeft_side (s : Sys) (n : Side) :
    stepsLeft s = (s n).stepsLeft + (s n.other).stepsLeft := by
  cases n with
  | first => rfl
  | second => exact Nat.add_comm _ _

theorem Endpoint.Wf.blocked_of_requests {e : Endpoint} (h : e.Wf r.toRegion W)
    (hreq : e.requests ≠ []) : e.thread ≠ .idle := fun hi => hreq (h.idle hi).1

theorem Endpoint.Wf.blocked_of_replies {e : Endpoint} (h : e.Wf r.toRegion W)
    (hrep : e.replies ≠ []) : e.thread ≠ .idle := fun hi => hrep (h.idle hi).2

theorem Endpoint.Wf.request_alone {e : Endpoint} {request : CString} {requests : List CString}
    (h : e.Wf r.toRegion W) (hreq : e.requests = request :: requests) :
    requests = [] ∧ e.replies = [] := by
  have hl := h.link
  rw [hreq] at hl
  generalize e.thread = th, e.replies = rp at hl ⊢
  cases hl with
  | readRequest j js hi => exact ⟨rfl, rfl⟩
  | writeRequest i is p m => exact ⟨rfl, rfl⟩

/-- In flight for a blocked command is its request or the reply. -/
theorem Endpoint.Wf.reply_of_no_request {e : Endpoint} (h : e.Wf r.toRegion W)
    (ht : e.thread ≠ .idle) (hreq : e.requests = []) : e.replies ≠ [] := by
  have hl := h.link
  rw [hreq] at hl
  generalize e.thread = th, e.replies = rp at hl ht ⊢
  cases hl with
  | idle => exact absurd rfl ht
  | readReply j js text hi hw => exact List.cons_ne_nil _ _
  | writeReply i is p m => exact List.cons_ne_nil _ _

theorem stepsLeft_deliver (hw : Sys.Wf r.toRegion W s) {n : Side}
    (h : step r.toRegion s (.deliver n) = some t) : stepsLeft t < stepsLeft s := by
  obtain ⟨reply, replies, e', hrep, hrec, rfl⟩ := step_deliver h
  have hne : (s n).replies ≠ [] := by rw [hrep]; exact List.cons_ne_nil _ _
  obtain ⟨rfl, -, -⟩ := (hw n).replied hrep
  have hafter : e'.stepsLeft ≤ 2 * (s n).thread.ahead :=
    stepsLeft_receive (e := { s n with replies := [] }) rfl hrec
  rw [stepsLeft_side _ n, stepsLeft_side s n, Function.update_self,
    Function.update_of_ne (Side.other_ne n),
    Endpoint.stepsLeft_of_reply ((hw n).blocked_of_replies hne) hne]
  omega

theorem stepsLeft_respond (hw : Sys.Wf r.toRegion W s) (hw' : Sys.Wf r.toRegion W t) {n : Side}
    (h : step r.toRegion s (.respond n) = some t) : stepsLeft t < stepsLeft s := by
  obtain ⟨request, requests, node, text, hreq, -, hn, ho⟩ := step_respond h
  have hne : (s n.other).requests ≠ [] := by rw [hreq]; exact List.cons_ne_nil _ _
  have hblocked := (hw n.other).blocked_of_requests hne
  obtain ⟨hlast, hbefore⟩ := (hw n.other).request_alone hreq
  have hthread : (t n.other).thread = (s n.other).thread := by rw [ho]
  have hrequests : (t n.other).requests = [] := by
    rw [ho]
    exact hlast
  have hafter : (t n.other).replies ≠ [] :=
    (hw' n.other).reply_of_no_request (by rwa [hthread]) hrequests
  have hsame : (t n).stepsLeft = (s n).stepsLeft := by rw [hn]; rfl
  rw [stepsLeft_side t n, stepsLeft_side s n, hsame,
    Endpoint.stepsLeft_of_reply (by rwa [hthread]) hafter,
    Endpoint.stepsLeft_of_request hblocked hbefore, hthread]
  omega

end Steps

section Runs
variable {r : SharedRegion}

/-- The states of runs, whatever has been written in them. -/
def Reachable (r : SharedRegion) (s : Sys) : Prop :=
  ∃ acts, Sys.Wf r.toRegion (Given r.toRegion acts) s

theorem Reachable.step {s t : Sys} {a : Action} (h : Reachable r s) (ha : a.continues)
    (hs : Dsm.step r.toRegion s a = some t) : Reachable r t ∧ stepsLeft t < stepsLeft s := by
  obtain ⟨acts, hw⟩ := h
  cases a with
  | start n c => cases ha
  | deliver n => exact ⟨⟨_, hw.step (a := .deliver n) trivial hs⟩, stepsLeft_deliver hw hs⟩
  | respond n =>
      have hw' := hw.step (a := .respond n) trivial hs
      have hgiven : Sys.Wf r.toRegion (Given r.toRegion (acts ++ [.respond n])) s :=
        fun k => (hw k).mono fun _ _ hg => hg.append _
      exact ⟨⟨_, hw'⟩, stepsLeft_respond hgiven hw' hs⟩

theorem Reachable.run {s t : Sys} {more : List Action} (h : Reachable r s)
    (hmore : ∀ a ∈ more, a.continues) (hrun : runActions (Dsm.step r.toRegion) s more = some t) :
    Reachable r t := by
  induction more generalizing s with
  | nil =>
      obtain rfl := Option.some.inj hrun
      exact h
  | cons a more ih =>
      obtain ⟨u, hu, hrest⟩ := Option.bind_eq_some_iff.mp hrun
      exact ih (h.step (hmore a List.mem_cons_self) hu).1
        (fun b hb => hmore b (List.mem_cons_of_mem a hb)) hrest

end Runs

end OperatingSystems.Dsm
