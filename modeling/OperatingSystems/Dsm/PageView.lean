import OperatingSystems.Dsm.Matching
import OperatingSystems.Dsm.PageProtocol

/-!
# The interleaved system refines the page protocol

Seen from one page, a step of the two nodes is at most two steps of the protocol
of that page: the delivery of a reply or the responder's answer comes first, and
the command may then issue the next fetch or write. `seen` lists them for each step,
by the page that the commands wait for before and after it. Steps about other pages
do not change the view, which is where the disjointness of the page ranges is used.
-/
namespace OperatingSystems.Dsm.PageView
open Library PageProtocol

/-- The exchange about page `p` that the command is blocked in. -/
def pendingAt (e : Endpoint) (p : ℤ) : Pending CString :=
  match e.thread with
  | .idle => .none
  | .reading j _ =>
      if j = p then
        match e.replies with
        | [] => .readRequest
        | reply :: _ => .readReply reply.text
      else .none
  | .writing i _ _ _ =>
      if i = p then
        match e.replies with
        | [] => .invalidateRequest
        | _ :: _ => .invalidateReply
      else .none

/-- The copy of a node whose command is not blocked in an exchange about `p`. -/
def resting (r : Region) (node : Node) (p : ℤ) : Copy CString :=
  ⟨node.msiArray p, r.pageText node.mem p, .none⟩

def copyAt (r : Region) (e : Endpoint) (p : ℤ) : Copy CString :=
  { resting r e.node p with pending := pendingAt e p }

def view (r : Region) (s : Sys) (p : ℤ) : View CString := fun n => copyAt r (s n) p

/-- `NULL` answers for an invalid page, and a page without data reads as empty. -/
abbrev ViewStep : View CString → PageAction CString → View CString → Prop :=
  PageStep nullText CString.empty

/-- The page of the exchange that a command waits for. -/
def waitsFor : Thread → Option ℤ
  | .idle => none
  | .reading j _ => some j
  | .writing i _ _ _ => some i

/-- The request about page `p` of a command of `n` that waits now. -/
def issued (p : ℤ) (n : Side) : Thread → Option (PageAction CString)
  | .idle => none
  | .reading j _ => if j = p then some (.fetch n) else none
  | .writing i _ _ m => if i = p then some (.write n m) else none

/-- What the step does first about page `p`: it reads a reply, or answers a request. -/
def settled (p : ℤ) (s : Sys) : Action → Option (PageAction CString)
  | .start _ _ => none
  | .deliver n => if waitsFor (s n).thread = some p then some (.receive n) else none
  | .respond n => if waitsFor (s n.other).thread = some p then some (.serve n.other) else none

/-- The request with which the step ends, if it is about page `p`; `t` is the state after it. -/
def requested (p : ℤ) (t : Sys) : Action → Option (PageAction CString)
  | .start n _ => issued p n (t n).thread
  | .deliver n => issued p n (t n).thread
  | .respond _ => none

/-- At most one step of the protocol. -/
def Takes (v : View CString) : Option (PageAction CString) → View CString → Prop
  | none, v' => v' = v
  | some b, v' => ViewStep v b v'

inductive ViewRun : View CString → List (PageAction CString) → View CString → Prop
  | done (v : View CString) : ViewRun v [] v
  | step {v v' v'' : View CString} {b : PageAction CString} {bs : List (PageAction CString)} :
      ViewStep v b v' → ViewRun v' bs v'' → ViewRun v (b :: bs) v''

section Labels
variable {v v' v'' : View CString} {p : ℤ} {s t : Sys} {a : Action} {n : Side} {m : CString}

theorem Takes.cases {ob : Option (PageAction CString)} (h : Takes v ob v') :
    v' = v ∨ ∃ b, ob = some b ∧ ViewStep v b v' := by
  cases ob with
  | none => exact .inl h
  | some b => exact .inr ⟨b, rfl, h⟩

theorem ViewRun.append {bs cs : List (PageAction CString)} (h : ViewRun v bs v')
    (k : ViewRun v' cs v'') : ViewRun v (bs ++ cs) v'' := by
  induction h with
  | done v => exact k
  | step hb _ ih => exact .step hb (ih k)

theorem Takes.run {ob : Option (PageAction CString)} (h : Takes v ob v') :
    ViewRun v ob.toList v' := by
  cases ob with
  | none =>
      obtain rfl : v' = v := h
      exact .done v'
  | some b => exact .step h (.done v')

theorem settled_ne_write : settled p s a ≠ some (.write n m) := by
  intro h
  cases a with
  | start k c => cases h
  | deliver k => simp [settled] at h
  | respond k => simp [settled] at h

theorem eq_respond_of_settled (h : settled p s a = some (.serve n)) : a = .respond n.other := by
  cases a with
  | start k c => cases h
  | deliver k => simp [settled] at h
  | respond k =>
      obtain ⟨-, hn⟩ : waitsFor (s k.other).thread = some p ∧ k.other = n := by
        simpa [settled] using h
      rw [← hn, Side.other_other]

theorem issued_ne_serve {th : Thread} {k : Side} : issued p k th ≠ some (.serve n) := by
  intro h
  cases th with
  | idle => cases h
  | reading j js => simp [issued] at h
  | writing i is q m => simp [issued] at h

theorem requested_ne_serve : requested p t a ≠ some (.serve n) := by
  cases a with
  | start k c => exact issued_ne_serve
  | deliver k => exact issued_ne_serve
  | respond k => exact fun h => by cases h

end Labels

theorem resting_pending (r : Region) (s : Sys) (n : Side) (p : ℤ) :
    { resting r (s n).node p with pending := (view r s p n).pending } = view r s p n := rfl

theorem view_update (r : Region) (s : Sys) (n : Side) (e : Endpoint) (p : ℤ) :
    view r (Function.update s n e) p = Function.update (view r s p) n (copyAt r e p) := by
  funext k
  by_cases hk : k = n
  · subst hk
    simp [view]
  · simp [view, Function.update_of_ne hk]

section
variable {r : SharedRegion} {W : ℤ → CString → Prop} {p : ℤ}

theorem requests_of_pending {e : Endpoint} (h : e.Wf r.toRegion W)
    (hp : pendingAt e p = .invalidateRequest) : e.requests = [requestText p invalidateOp] := by
  have hl := h.link
  unfold pendingAt at hp
  generalize e.thread = th, e.requests = rq, e.replies = rp at hl hp ⊢
  cases hl with
  | idle => cases hp
  | readRequest j js hi | readReply j js t hi ht | writeReply i is q m =>
      simp [ite_eq_iff] at hp
  | writeRequest i is q m =>
      obtain rfl : i = p := by simpa [ite_eq_iff] using hp
      rfl

theorem reply_of_pending {e : Endpoint} (h : e.Wf r.toRegion W) {t : CString}
    (hp : pendingAt e p = .readReply t) : e.replies = [⟨requestText p readOp, t⟩] := by
  have hl := h.link
  unfold pendingAt at hp
  generalize e.thread = th, e.requests = rq, e.replies = rp at hl hp ⊢
  cases hl with
  | idle => cases hp
  | readRequest j js hi | writeRequest i is q m | writeReply i is q m =>
      simp [ite_eq_iff] at hp
  | readReply j js u hi hu =>
      obtain ⟨rfl, rfl⟩ : j = p ∧ u = t := by simpa [ite_eq_iff] using hp
      rfl

theorem pageText_congr {mem mem' : ℤ → UInt8} (hp : r.IsPage p) {node : Node}
    (hc : CopyOk r.toRegion W node p) (hm : node.mem = mem) (hs : r.SamePage mem mem' p) :
    r.pageText mem' p = r.pageText mem p := by
  subst hm
  rcases hc with ⟨-, hb⟩ | ⟨-, t, ht, -⟩
  · rw [SharedRegion.pageText_of_blank hp hb, SharedRegion.pageText_of_blank hp (hb.congr hs)]
  · rw [SharedRegion.pageText_eq hp ht, SharedRegion.pageText_eq hp (ht.congr hs)]

theorem resting_store {node : Node} {j : ℤ} {t : CString} {st : MsiState} (hp : r.IsPage p)
    (hj : r.IsPage j) (hfit : t.strlen < r.pageSize) (hc : CopyOk r.toRegion W node p) :
    resting r.toRegion ((node.setMem (r.copyMessage t node.mem j)).setState j st) p =
      if j = p then ⟨st, t, .none⟩ else resting r.toRegion node p := by
  split_ifs with hjp
  · subst hjp
    simp [resting, SharedRegion.pageText_eq hp (Region.holds_copyMessage hfit node.mem j)]
  · have hpj : p ≠ j := fun h => hjp h.symm
    have hframe := SharedRegion.samePage_copyMessage hj hp hjp hfit node.mem
    simp [resting, Node.setState_msiArray, hpj, pageText_congr hp hc rfl hframe]

theorem resting_drop {node : Node} {j : ℤ} (st : MsiState) (hp : r.IsPage p)
    (hj : r.IsPage j) (hc : CopyOk r.toRegion W node p) :
    resting r.toRegion ((node.setState j st).setMem (r.dontNeed node.mem j)) p =
      if j = p then ⟨st, CString.empty, .none⟩ else resting r.toRegion node p := by
  split_ifs with hjp
  · subst hjp
    simp [resting, SharedRegion.pageText_of_blank hp (Region.blank_dontNeed node.mem j)]
  · have hpj : p ≠ j := fun h => hjp h.symm
    have hframe := SharedRegion.samePage_dontNeed hj hp hjp node.mem
    simp [resting, Node.setState_msiArray, hpj, pageText_congr hp hc rfl hframe]

/-- A command that goes on leaves the page alone, asks for it or writes it. -/
theorem takes_issued (hW : ∀ p m, W p m → r.IsMessage m) {v : View CString} {n : Side}
    {e e' : Endpoint} {todo : List ℤ} (hv : v n = resting r.toRegion e.node p)
    (h : Resumed r.toRegion W e todo e') (hrep : e.replies = []) (hp : r.IsPage p)
    (hc : CopyOk r.toRegion W e.node p) :
    Takes v (issued p n e'.thread) (Function.update v n (copyAt r.toRegion e' p)) := by
  have hnone : (v n).pending = .none := by rw [hv]; rfl
  have hsame : ∀ c, c = v n → Function.update v n c = v := by
    rintro c rfl
    exact Function.update_eq_self n v
  cases h with
  | finished out => exact hsame _ hv.symm
  | fetching out j js hi hok =>
      by_cases hjp : j = p
      · subst hjp
        have hasked : copyAt r.toRegion
            { e with
              thread := .reading j js
              printed := out
              requests := e.requests ++ [requestText j readOp] } j =
            { v n with pending := .readRequest } := by
          rw [hv]
          simp [copyAt, pendingAt, hrep]
        have hinvalid : (v n).state = .i := by
          rw [hv]
          exact hi
        rw [hasked, issued, if_pos rfl]
        exact .fetch n hnone hinvalid
      · rw [issued, if_neg hjp]
        apply hsame
        rw [hv]
        simp [copyAt, pendingAt, hjp, resting]
  | storing out i is q m hok =>
      obtain ⟨hi, hw⟩ := hok.1 i (by simp)
      simp only [copyAt, resting_store hp hi (hW i m hw).2 hc]
      by_cases hip : i = p
      · rw [issued, if_pos hip]
        simp only [pendingAt, hip, hrep, if_true]
        exact .write n m hnone
      · rw [issued, if_neg hip]
        apply hsame
        rw [hv]
        simp [pendingAt, hip, resting]

theorem view_start (hW : ∀ p m, W p m → r.IsMessage m) {s t : Sys} {n : Side} {c : Command}
    (h : Sys.Wf r.toRegion W s) (hc : r.IsRequest c.requestPage)
    (hw : ∀ p m, c = .write p m → ∀ k ∈ r.pagesOf p, W k m) (hp : r.IsPage p)
    (hs : step r.toRegion s (.start n c) = some t) :
    Takes (view r.toRegion s p) (issued p n (t n).thread) (view r.toRegion t p) := by
  obtain ⟨hi, rfl⟩ := step_start hs
  have hrest : view r.toRegion s p n = resting r.toRegion (s n).node p := by
    simp [view, copyAt, pendingAt, hi, resting]
  rw [view_update, Function.update_self]
  exact takes_issued hW hrest (resumed_startCommand hc hw (s n)) ((h n).idle hi).2 hp
    ((h n).copies p hp)

/-- A command goes on from a copy of the page that is at rest. -/
theorem takes_issued_update (hW : ∀ p m, W p m → r.IsMessage m) {v : View CString} {n : Side}
    {e e' : Endpoint} {todo : List ℤ} (h : Resumed r.toRegion W e todo e')
    (hrep : e.replies = []) (hp : r.IsPage p) (hc : CopyOk r.toRegion W e.node p) :
    Takes (Function.update v n (resting r.toRegion e.node p)) (issued p n e'.thread)
      (Function.update v n (copyAt r.toRegion e' p)) := by
  have hi := takes_issued hW (Function.update_self n _ v) h hrep hp hc
  rwa [Function.update_idem] at hi

/-- The text read for page `j`, stored: that page is shared, or blank after `NULL`. -/
theorem receive_storeReply (hW : ∀ p m, W p m → r.IsMessage m) {v : View CString} {n : Side}
    {node : Node} {j : ℤ} {t : CString} (hp : r.IsPage p) (hj : r.IsPage j)
    (hi : node.msiArray j = .i) (ht : t = nullText ∨ W j t) (hc : CopyOk r.toRegion W node p)
    (hv : v n = { resting r.toRegion node p with
      pending := if j = p then .readReply t else .none }) :
    Takes v (if j = p then some (.receive n) else none)
      (Function.update v n (resting r.toRegion (storeReply r.toRegion node j t) p)) := by
  have hpend := congrArg Copy.pending hv
  by_cases hjp : j = p
  · subst hjp
    simp only [if_true] at hpend ⊢
    unfold storeReply
    split_ifs with hnull
    · rw [Region.updatePageContents_of_isPage hj,
        resting_store hp hj (hW j t (ht.resolve_left hnull)).2 hc, if_pos rfl]
      exact .receiveText n t hpend hnull
    · obtain rfl : t = nullText := by simpa using hnull
      have hd := resting_drop .i hp hj hc
      rw [Node.setState_self hi, if_pos rfl] at hd
      have hs : ViewStep v (.receive n) _ := .receiveNull n hpend
      rw [hd]
      simpa [Takes, hv, resting, hi] using hs
  · rw [if_neg hjp]
    have hsame : resting r.toRegion (storeReply r.toRegion node j t) p =
        resting r.toRegion node p := by
      unfold storeReply
      split_ifs with hnull
      · rw [Region.updatePageContents_of_isPage hj,
          resting_store hp hj (hW j t (ht.resolve_left hnull)).2 hc, if_neg hjp]
      · have hd := resting_drop .i hp hj hc
        rwa [Node.setState_self hi, if_neg hjp] at hd
    rw [hsame]
    exact Function.update_eq_iff.mpr ⟨by simp [hv, hjp, resting], fun _ _ => rfl⟩

/-- The reply is read first; it concerns the page or changes nothing there. -/
theorem view_deliver (hW : ∀ p m, W p m → r.IsMessage m) {s t : Sys} {n : Side}
    (h : Sys.Wf r.toRegion W s) (hp : r.IsPage p)
    (hs : step r.toRegion s (.deliver n) = some t) :
    ∃ v, Takes (view r.toRegion s p) (settled p s (.deliver n)) v ∧
      Takes v (issued p n (t n).thread) (view r.toRegion t p) := by
  obtain ⟨reply, replies, e', hr, he, rfl⟩ := step_deliver hs
  obtain ⟨rfl, hrq, hkind⟩ := (h n).replied hr
  have hok : ({ s n with replies := [] } : Endpoint).thread.Ok r.toRegion W := (h n).thread
  have hcp := (h n).copies p hp
  rw [view_update, Function.update_self]
  rcases receive_cases hok he with ⟨j, js, ht, hres⟩ | ⟨i, is, q, m, ht, hres⟩
  · replace ht : (s n).thread = .reading j js := ht
    rcases hkind with ⟨j', js', ht', hi, -, htext⟩ | ⟨i, is, q, m, ht', -⟩
    · obtain ⟨rfl, rfl⟩ := Thread.reading.inj (ht.symm.trans ht')
      have hth := (h n).thread
      rw [ht] at hth
      have hj : r.IsPage j := hth j (by simp)
      have hcopy := copyOk_storeReply hW hj hi htext (h n).copies p hp
      refine ⟨_, ?_, takes_issued_update hW hres rfl hp hcopy⟩
      have hreceive := receive_storeReply (v := view r.toRegion s p) (n := n) hW hp hj hi htext
        hcp (by simp [view, copyAt, pendingAt, ht, hr])
      simpa only [settled, ht, waitsFor, Option.some.injEq] using hreceive
    · exact absurd (ht.symm.trans ht') (by simp)
  · replace ht : (s n).thread = .writing i is q m := ht
    have hv : view r.toRegion s p n = { resting r.toRegion (s n).node p with
        pending := if i = p then .invalidateReply else .none } := by
      simp [view, copyAt, pendingAt, ht, hr]
    refine ⟨_, ?_, takes_issued_update hW hres rfl hp hcp⟩
    simp only [settled, ht, waitsFor, Option.some.injEq]
    by_cases hip : i = p
    · have hd : ViewStep (view r.toRegion s p) (.receive n) _ :=
        .receiveDone n (by simp [hv, hip])
      rw [if_pos hip]
      simpa [Takes, hv, resting] using hd
    · rw [if_neg hip]
      exact Function.update_eq_iff.mpr ⟨by simp [hv, hip, resting], fun _ _ => rfl⟩

theorem resting_share {node : Node} {j : ℤ} :
    resting r.toRegion (node.setState j .s) p =
      if j = p then { resting r.toRegion node p with state := .s }
      else resting r.toRegion node p := by
  split_ifs with hjp
  · simp [resting, hjp]
  · have hpj : p ≠ j := fun h => hjp h.symm
    simp [resting, Node.setState_msiArray, hpj]

/-- What an answer turns a pending request into. -/
def answered (text : CString) : Pending CString → Pending CString
  | .readRequest => .readReply text
  | .invalidateRequest => .invalidateReply
  | c => c

theorem pendingAt_answered {e : Endpoint} {rest : List CString} {request text : CString}
    (hrep : e.replies = []) (htext : text.strlen ≠ 0) :
    pendingAt { e with
        requests := rest
        replies := e.replies ++ sendReply request text } p =
      answered text (pendingAt e p) := by
  cases ht : e.thread with
  | idle => simp [pendingAt, ht, answered]
  | reading j js =>
      by_cases hjp : j = p <;> simp [pendingAt, ht, hjp, hrep, htext, sendReply, answered]
  | writing i is q m =>
      by_cases hip : i = p <;> simp [pendingAt, ht, hip, hrep, htext, sendReply, answered]

/-- The view after one turn of the responder of `n`. -/
theorem view_answered {s t : Sys} {n : Side} {node : Node} {rest : List CString}
    {request text : CString} (hn : t n = { s n with node := node })
    (ho : t n.other = { s n.other with
      requests := rest
      replies := (s n.other).replies ++ sendReply request text })
    (hrep : (s n.other).replies = []) (htext : text.strlen ≠ 0) :
    view r.toRegion t p =
      Function.update (Function.update (view r.toRegion s p) n
        { resting r.toRegion node p with pending := (view r.toRegion s p n).pending }) n.other
        { view r.toRegion s p n.other with
          pending := answered text (view r.toRegion s p n.other).pending } := by
  funext k
  rcases Side.eq_or_other n k with rfl | rfl
  · simp only [view, hn, copyAt, Function.update_self, Function.update_of_ne (Side.ne_other k)]
    rfl
  · simp only [view, ho, copyAt, Function.update_self, pendingAt_answered hrep htext]

/-- An answer about page `j` changes the view of no other page. -/
theorem view_answered_about {s t : Sys} {n : Side} {node : Node} {rest : List CString}
    {request text : CString} {j : ℤ} {c : Copy CString} {q : Pending CString}
    (hn : t n = { s n with node := node })
    (ho : t n.other = { s n.other with
      requests := rest
      replies := (s n.other).replies ++ sendReply request text })
    (hrep : (s n.other).replies = []) (htext : text.strlen ≠ 0)
    (hc : resting r.toRegion node p = if j = p then c else resting r.toRegion (s n).node p)
    (hq : (view r.toRegion s p n.other).pending = if j = p then q else .none)
    (hserve : j = p → ViewStep (view r.toRegion s p) (.serve n.other)
      (Function.update (Function.update (view r.toRegion s p) n
        { c with pending := (view r.toRegion s p n).pending }) n.other
        { view r.toRegion s p n.other with pending := answered text q })) :
    Takes (view r.toRegion s p) (if j = p then some (.serve n.other) else none)
      (view r.toRegion t p) := by
  rw [view_answered hn ho hrep htext, hc]
  by_cases hjp : j = p
  · rw [if_pos hjp] at hq ⊢
    rw [hq, if_pos hjp]
    exact hserve hjp
  · rw [if_neg hjp] at hq
    have hsame : answered text (view r.toRegion s p n.other).pending =
        (view r.toRegion s p n.other).pending := by rw [hq]; rfl
    rw [if_neg hjp, if_neg hjp, resting_pending, hsame, Function.update_eq_self,
      Function.update_eq_self]
    rfl

theorem view_respond (hW : ∀ p m, W p m → r.IsMessage m) {s t : Sys} {n : Side}
    (h : Sys.Wf r.toRegion W s) (hp : r.IsPage p)
    (hs : step r.toRegion s (.respond n) = some t) :
    Takes (view r.toRegion s p) (settled p s (.respond n)) (view r.toRegion t p) := by
  obtain ⟨request, requests, node, text, hreq, hresp, hn, ho⟩ := step_respond hs
  have hl := (h n.other).link
  have hth := (h n.other).thread
  rw [hreq] at hl
  generalize hthr : (s n.other).thread = th, hrep : (s n.other).replies = rp at hl hth
  simp only [settled, hthr]
  cases hl with
  | readRequest j js hi =>
      simp only [waitsFor, Option.some.injEq]
      have hj : r.IsPage j := hth j (by simp)
      have hq : (view r.toRegion s p n.other).pending =
          if j = p then .readRequest else .none := by
        simp [view, copyAt, pendingAt, hthr, hrep]
      rcases (h n).copies j hj with ⟨hinv, -⟩ | ⟨hheld, u, hu, hw⟩
      · rw [responder_read_invalid r hj.1 hinv] at hresp
        obtain ⟨rfl, rfl⟩ := Prod.mk.inj (Option.some.inj hresp)
        apply view_answered_about hn ho hrep (by decide) (ite_self _).symm hq
        intro hjp
        subst hjp
        have hs : ViewStep (view r.toRegion s j) (.serve n.other) _ :=
          .serveInvalid n.other (hq.trans (if_pos rfl))
            (by simpa [view, copyAt, resting] using hinv)
        rw [resting_pending, Function.update_eq_self]
        simpa [answered] using hs
      · rw [responder_read_held r hj hheld hu] at hresp
        obtain ⟨rfl, rfl⟩ := Prod.mk.inj (Option.some.inj hresp)
        have h0 : u.strlen ≠ 0 := fun h0 => (hW j u hw).1 (CString.strlen_eq_zero.mp h0)
        apply view_answered_about hn ho hrep h0 resting_share hq
        intro hjp
        subst hjp
        have hs : ViewStep (view r.toRegion s j) (.serve n.other) _ :=
          .serveHeld n.other (hq.trans (if_pos rfl))
            (by simpa [view, copyAt, resting] using hheld)
        have htext : (resting r.toRegion (s n).node j).text = u :=
          SharedRegion.pageText_eq hj hu
        simpa [answered, htext, view, copyAt] using hs
  | writeRequest i is q m =>
      simp only [waitsFor, Option.some.injEq]
      have hi : r.IsPage i := (hth.1 i (by simp)).1
      have hq : (view r.toRegion s p n.other).pending =
          if i = p then .invalidateRequest else .none := by
        simp [view, copyAt, pendingAt, hthr, hrep]
      rw [responder_invalidate r _ hi.1] at hresp
      obtain ⟨rfl, rfl⟩ := Prod.mk.inj (Option.some.inj hresp)
      have hdrop := resting_drop .i hp hi ((h n).copies p hp)
      apply view_answered_about hn ho hrep (by decide) hdrop hq
      intro hip
      subst hip
      have hs : ViewStep (view r.toRegion s i) (.serve n.other) _ :=
        .serveInvalidate n.other (hq.trans (if_pos rfl))
      simpa [answered, view, copyAt] using hs

/-- One step of the system: a reply read or an answer given, then the next request. -/
theorem view_step {acts : List Action} {s t : Sys} {a : Action}
    (h : Sys.Wf r.toRegion (Given r.toRegion acts) s) (ha : a.Ok r.toRegion) (hp : r.IsPage p)
    (hs : step r.toRegion s a = some t) :
    ∃ v, Takes (view r.toRegion s p) (settled p s a) v ∧
      Takes v (requested p t a) (view r.toRegion t p) := by
  have h' : Sys.Wf r.toRegion (Given r.toRegion (acts ++ [a])) s :=
    fun n => (h n).mono fun _ _ hg => hg.append [a]
  have hW : ∀ p m, Given r.toRegion (acts ++ [a]) p m → r.IsMessage m := fun _ _ hg => hg.1
  cases a with
  | start n c =>
      refine ⟨view r.toRegion s p, rfl, view_start hW h' ha.isRequest ?_ hp hs⟩
      intro q m hc k hk
      subst hc
      exact given_start ha hk
  | deliver n => exact view_deliver hW h' hp hs
  | respond n => exact ⟨view r.toRegion t p, view_respond hW h' hp hs, rfl⟩

end

end OperatingSystems.Dsm.PageView
