import OperatingSystems.Dsm.Interleaving

/-!
# Requests, replies and page contents in any order of steps

A command is blocked exactly while its own request or the reply to it is in
flight. For this to be kept, a page in M or S must never be empty, since an empty
page would be sent as zero bytes; and a page that is being read stays in I until
its reply arrives, since only the responder runs in the meantime. Every page text
and every text in flight is a message that a command gave for that page.

`W p t` says that the message `t` was given for page `p`. It only grows along a
run, and the invariant is monotone in it.
-/
namespace OperatingSystems.Dsm
open Library

/-- One copy of a page: invalid and blank, or held with a message. -/
def CopyOk (r : Region) (W : ℤ → CString → Prop) (node : Node) (p : ℤ) : Prop :=
  (node.msiArray p = .i ∧ r.Blank node.mem p) ∨
    (node.msiArray p ≠ .i ∧ ∃ t, r.Holds node.mem p t ∧ W p t)

/-- What is in flight for a blocked command: its request, or the reply to it. -/
inductive Link (W : ℤ → CString → Prop) (node : Node) :
    Thread → List CString → List Reply → Prop
  | idle : Link W node .idle [] []
  | readRequest (j : ℤ) (js : List ℤ) : node.msiArray j = .i →
      Link W node (.reading j js) [requestText j readOp] []
  | readReply (j : ℤ) (js : List ℤ) (t : CString) : node.msiArray j = .i →
      t = nullText ∨ W j t →
      Link W node (.reading j js) [] [⟨requestText j readOp, t⟩]
  | writeRequest (i : ℤ) (is : List ℤ) (p : ℤ) (m : CString) :
      Link W node (.writing i is p m) [requestText i invalidateOp] []
  | writeReply (i : ℤ) (is : List ℤ) (p : ℤ) (m : CString) :
      Link W node (.writing i is p m) [] [⟨requestText i invalidateOp, successText⟩]

structure Endpoint.Wf (r : Region) (W : ℤ → CString → Prop) (e : Endpoint) : Prop where
  thread : e.thread.Ok r W
  link : Link W e.node e.thread e.requests e.replies
  copies : ∀ p, r.IsPage p → CopyOk r W e.node p

def Sys.Wf (r : Region) (W : ℤ → CString → Prop) (s : Sys) : Prop := ∀ n, (s n).Wf r W

section Monotone
variable {r : Region} {W W' : ℤ → CString → Prop}

theorem Thread.Ok.mono {t : Thread} (h : t.Ok r W) (hW : ∀ p m, W p m → W' p m) :
    t.Ok r W' := by
  cases t with
  | idle => trivial
  | reading j js => exact h
  | writing i is p m => exact ⟨fun k hk => ⟨(h.1 k hk).1, hW _ _ (h.1 k hk).2⟩, h.2⟩

theorem Endpoint.Wf.mono {e : Endpoint} (h : e.Wf r W) (hW : ∀ p m, W p m → W' p m) :
    e.Wf r W' where
  thread := h.thread.mono hW
  link := by
    have hl := h.link
    generalize e.thread = th, e.requests = rq, e.replies = rp at hl ⊢
    cases hl with
    | idle => exact .idle
    | readRequest j js hi => exact .readRequest j js hi
    | readReply j js t hi ht => exact .readReply j js t hi (ht.imp id (hW j t))
    | writeRequest i is p m => exact .writeRequest i is p m
    | writeReply i is p m => exact .writeReply i is p m
  copies p hp := by
    rcases h.copies p hp with hc | ⟨hs, t, ht, hw⟩
    · exact .inl hc
    · exact .inr ⟨hs, t, ht, hW p t hw⟩

/-- The responder only takes pages out of use, so a read stays on an invalid page. -/
theorem Link.node_congr {node node' : Node} {t : Thread} {rq : List CString} {rp : List Reply}
    (h : Link W node t rq rp) (hn : ∀ j, node.msiArray j = .i → node'.msiArray j = .i) :
    Link W node' t rq rp := by
  cases h with
  | idle => exact .idle
  | readRequest j js hi => exact .readRequest j js (hn j hi)
  | readReply j js t hi ht => exact .readReply j js t (hn j hi) ht
  | writeRequest i is p m => exact .writeRequest i is p m
  | writeReply i is p m => exact .writeReply i is p m

end Monotone

section Steps
variable {r : SharedRegion} {W : ℤ → CString → Prop}

theorem CopyOk.frame {node node' : Node} {p : ℤ} (h : CopyOk r.toRegion W node p)
    (hs : node'.msiArray p = node.msiArray p) (hm : r.SamePage node.mem node'.mem p) :
    CopyOk r.toRegion W node' p := by
  rcases h with ⟨hi, hb⟩ | ⟨hi, t, ht, hw⟩
  · exact .inl ⟨hs.trans hi, hb.congr hm⟩
  · exact .inr ⟨by rwa [hs], t, ht.congr hm, hw⟩

theorem copyOk_store {node : Node} {j : ℤ} {t : CString} {st : MsiState} (hst : st ≠ .i)
    (hj : r.IsPage j) (hfit : t.strlen < r.pageSize) (hw : W j t)
    (h : ∀ p, r.IsPage p → CopyOk r.toRegion W node p) :
    ∀ p, r.IsPage p → CopyOk r.toRegion W
      ((node.setMem (r.copyMessage t node.mem j)).setState j st) p := by
  intro p hp
  by_cases hpj : p = j
  · subst hpj
    exact .inr ⟨by simpa using hst, t, by simpa using Region.holds_copyMessage hfit _ _, hw⟩
  · apply (h p hp).frame (by simp [Node.setState_msiArray, hpj])
    simpa using SharedRegion.samePage_copyMessage hj hp (Ne.symm hpj) hfit node.mem

theorem copyOk_drop {node : Node} {j : ℤ} (hj : r.IsPage j)
    (h : ∀ p, r.IsPage p → CopyOk r.toRegion W node p) :
    ∀ p, r.IsPage p → CopyOk r.toRegion W
      ((node.setState j .i).setMem (r.dontNeed node.mem j)) p := by
  intro p hp
  by_cases hpj : p = j
  · subst hpj
    exact .inl ⟨by simp, by simpa using Region.blank_dontNeed _ _⟩
  · apply (h p hp).frame (by simp [Node.setState_msiArray, hpj])
    simpa using SharedRegion.samePage_dontNeed hj hp (Ne.symm hpj) node.mem

theorem copyOk_share {node : Node} {j : ℤ} (hi : node.msiArray j ≠ .i)
    (h : ∀ p, r.IsPage p → CopyOk r.toRegion W node p) :
    ∀ p, r.IsPage p → CopyOk r.toRegion W (node.setState j .s) p := by
  intro p hp
  by_cases hpj : p = j
  · subst hpj
    rcases h p hp with hc | hc
    · exact absurd hc.1 hi
    · exact .inr ⟨by simp, hc.2⟩
  · exact (h p hp).frame (by simp [Node.setState_msiArray, hpj]) fun _ _ => rfl

/-- A command that goes on with nothing in flight sends at most one request. -/
theorem wf_of_resumed (hW : ∀ p m, W p m → r.IsMessage m) {e e' : Endpoint} {todo : List ℤ}
    (h : Resumed r.toRegion W e todo e') (hrq : e.requests = []) (hrp : e.replies = [])
    (hc : ∀ p, r.IsPage p → CopyOk r.toRegion W e.node p) : e'.Wf r.toRegion W := by
  cases h with
  | finished out =>
      refine ⟨trivial, ?_, hc⟩
      simpa only [hrq, hrp] using Link.idle
  | fetching out j js hi hok =>
      refine ⟨hok, ?_, hc⟩
      simpa only [hrq, hrp, List.nil_append] using Link.readRequest j js hi
  | storing out i is p m hok =>
      obtain ⟨hi, hw⟩ := hok.1 i (by simp)
      refine ⟨hok, ?_, copyOk_store (by decide) hi (hW i m hw).2 hw hc⟩
      simpa only [hrq, hrp, List.nil_append] using Link.writeRequest i is p m

theorem Sys.Wf.update {s : Sys} {n : Side} {e : Endpoint} (h : Sys.Wf r.toRegion W s)
    (he : e.Wf r.toRegion W) : Sys.Wf r.toRegion W (Function.update s n e) :=
  (Function.forall_update_iff s fun _ e => e.Wf r.toRegion W).mpr ⟨he, fun k _ => h k⟩

theorem Endpoint.Wf.idle {e : Endpoint} (h : e.Wf r.toRegion W) (hi : e.thread = .idle) :
    e.requests = [] ∧ e.replies = [] := by
  have hl := h.link
  rw [hi] at hl
  generalize e.requests = rq, e.replies = rp at hl ⊢
  cases hl
  exact ⟨rfl, rfl⟩

/-- The reply a blocked command reads is the only text in flight for it. -/
theorem Endpoint.Wf.replied {e : Endpoint} {reply : Reply} {replies : List Reply}
    (h : e.Wf r.toRegion W) (hr : e.replies = reply :: replies) :
    replies = [] ∧ e.requests = [] ∧
      ((∃ j js, e.thread = .reading j js ∧ e.node.msiArray j = .i ∧
          reply.request = requestText j readOp ∧ (reply.text = nullText ∨ W j reply.text)) ∨
        (∃ i is p m, e.thread = .writing i is p m ∧
          reply.request = requestText i invalidateOp ∧ reply.text = successText)) := by
  have hl := h.link
  rw [hr] at hl
  generalize e.thread = th, e.requests = rq at hl ⊢
  cases hl with
  | readReply j js t hi ht => exact ⟨rfl, rfl, .inl ⟨j, js, rfl, hi, rfl, ht⟩⟩
  | writeReply i is p m => exact ⟨rfl, rfl, .inr ⟨i, is, p, m, rfl, rfl, rfl⟩⟩

theorem Endpoint.Wf.reply_kind {e : Endpoint} {reply : Reply} (h : e.Wf r.toRegion W)
    (hmem : reply ∈ e.replies) :
    (∃ j js, e.thread = .reading j js ∧ (reply.text = nullText ∨ W j reply.text)) ∨
      (∃ i is p m, e.thread = .writing i is p m ∧ reply.text = successText) := by
  obtain ⟨first, rest, hr⟩ := List.exists_cons_of_ne_nil (List.ne_nil_of_mem hmem)
  obtain ⟨rfl, -, hk⟩ := h.replied hr
  obtain rfl : reply = first := by simpa [hr] using hmem
  rcases hk with ⟨j, js, ht, -, -, htext⟩ | ⟨i, is, p, m, ht, -, htext⟩
  · exact .inl ⟨j, js, ht, htext⟩
  · exact .inr ⟨i, is, p, m, ht, htext⟩

theorem Endpoint.Wf.reply_pos (hW : ∀ p m, W p m → r.IsMessage m) {e : Endpoint}
    {reply : Reply} (h : e.Wf r.toRegion W) (hmem : reply ∈ e.replies) :
    0 < reply.text.strlen := by
  have hlen : ∀ m : CString, m ≠ CString.empty → 0 < m.strlen := fun m hm =>
    Nat.pos_of_ne_zero fun h0 => hm (CString.strlen_eq_zero.mp h0)
  rcases h.reply_kind hmem with ⟨j, js, -, htext | hw⟩ | ⟨i, is, p, m, -, htext⟩
  · exact hlen _ (htext ▸ by decide)
  · exact hlen _ (hW j _ hw).1
  · exact hlen _ (htext ▸ by decide)

theorem copyOk_storeReply (hW : ∀ p m, W p m → r.IsMessage m) {node : Node} {j : ℤ}
    {t : CString} (hj : r.IsPage j) (hi : node.msiArray j = .i) (ht : t = nullText ∨ W j t)
    (h : ∀ p, r.IsPage p → CopyOk r.toRegion W node p) :
    ∀ p, r.IsPage p → CopyOk r.toRegion W (storeReply r.toRegion node j t) p := by
  unfold storeReply
  split_ifs with hnull
  · have hw := ht.resolve_left hnull
    rw [Region.updatePageContents_of_isPage hj]
    exact copyOk_store (by decide) hj (hW j t hw).2 hw h
  · have hd := copyOk_drop hj h
    rwa [Node.setState_self hi] at hd

/-- What the responder does for a request that is really in flight. -/
theorem responder_wf {node : Node} {e : Endpoint} {request : CString} {requests : List CString}
    (he : e.Wf r.toRegion W) (hreq : e.requests = request :: requests)
    (hc : ∀ p, r.IsPage p → CopyOk r.toRegion W node p)
    (hne : ∀ p m, W p m → m ≠ CString.empty) :
    ∃ node' text, node.responder r.toRegion request = some (node', text) ∧
      (∀ j, node.msiArray j = .i → node'.msiArray j = .i) ∧
      (∀ p, r.IsPage p → CopyOk r.toRegion W node' p) ∧
      ({ e with
          requests := requests
          replies := e.replies ++ sendReply request text } : Endpoint).Wf r.toRegion W := by
  obtain ⟨enode, th, out, rq, rp⟩ := e
  obtain ⟨hok, hl, hcopies⟩ := he
  dsimp only at hreq hok hl hcopies ⊢
  subst hreq
  cases hl with
  | readRequest j js hi =>
      have hj : r.IsPage j := hok j (by simp)
      rcases hc j hj with ⟨hinv, -⟩ | ⟨hheld, t, ht, hw⟩
      · refine ⟨_, _, responder_read_invalid r hj.1 hinv, fun _ hk => hk, hc, hok, ?_, hcopies⟩
        exact .readReply j js nullText hi (.inl rfl)
      · have h0 : t.strlen ≠ 0 := fun h => hne j t hw (CString.strlen_eq_zero.mp h)
        refine ⟨_, _, responder_read_held r hj hheld ht, fun k hk => ?_,
          copyOk_share hheld hc, hok, ?_, hcopies⟩
        · have hkj : k ≠ j := fun h => hheld (h ▸ hk)
          simpa [Node.setState_msiArray, hkj] using hk
        · simpa [sendReply, h0] using Link.readReply j js t hi (.inr hw)
  | writeRequest i is p m =>
      have hi : r.IsPage i := (hok.1 i (by simp)).1
      refine ⟨_, _, responder_invalidate r _ hi.1, fun k hk => ?_, copyOk_drop hi hc, hok,
        .writeReply i is p m, hcopies⟩
      simp [Node.setState_msiArray, hk]

theorem Sys.Wf.deliver (hW : ∀ p m, W p m → r.IsMessage m) {s t : Sys} {n : Side}
    (h : Sys.Wf r.toRegion W s) (hs : step r.toRegion s (.deliver n) = some t) :
    Sys.Wf r.toRegion W t := by
  obtain ⟨reply, replies, e', hr, he, rfl⟩ := step_deliver hs
  obtain ⟨rfl, hrq, hkind⟩ := (h n).replied hr
  have hok : ({ s n with replies := [] } : Endpoint).thread.Ok r.toRegion W := (h n).thread
  apply h.update
  rcases receive_cases hok he with ⟨j, js, ht, hres⟩ | ⟨i, is, p, m, ht, hres⟩
  · rcases hkind with ⟨j', js', ht', hi, -, htext⟩ | ⟨i, is, p, m, ht', -⟩
    · obtain ⟨rfl, rfl⟩ := Thread.reading.inj (ht.symm.trans ht')
      have hj : r.IsPage j := by
        have hth := (h n).thread
        rw [ht'] at hth
        exact hth j (by simp)
      exact wf_of_resumed hW hres hrq rfl (copyOk_storeReply hW hj hi htext (h n).copies)
    · exact absurd (ht.symm.trans ht') (by simp)
  · exact wf_of_resumed hW hres hrq rfl (h n).copies

theorem Sys.Wf.respond (hW : ∀ p m, W p m → r.IsMessage m) {s t : Sys} {n : Side}
    (h : Sys.Wf r.toRegion W s) (hs : step r.toRegion s (.respond n) = some t) :
    Sys.Wf r.toRegion W t := by
  obtain ⟨request, requests, node, text, hreq, hresp, hn, ho⟩ := step_respond hs
  obtain ⟨node', text', hresp', hinv, hcopies, hwf⟩ :=
    responder_wf (h n.other) hreq (h n).copies fun p m hw => (hW p m hw).1
  obtain ⟨rfl, rfl⟩ := Prod.mk.inj (Option.some.inj (hresp.symm.trans hresp'))
  intro k
  rcases Side.eq_or_other n k with rfl | rfl
  · rw [hn]
    exact ⟨(h k).thread, (h k).link.node_congr hinv, hcopies⟩
  · rw [ho]
    exact hwf

theorem Sys.Wf.start (hW : ∀ p m, W p m → r.IsMessage m) {s t : Sys} {n : Side} {c : Command}
    (h : Sys.Wf r.toRegion W s) (hc : r.IsRequest c.requestPage)
    (hw : ∀ p m, c = .write p m → ∀ k ∈ r.pagesOf p, W k m)
    (hs : step r.toRegion s (.start n c) = some t) : Sys.Wf r.toRegion W t := by
  obtain ⟨hi, rfl⟩ := step_start hs
  obtain ⟨hrq, hrp⟩ := (h n).idle hi
  exact h.update (wf_of_resumed hW (resumed_startCommand hc hw _) hrq hrp (h n).copies)

theorem wf_start (r : SharedRegion) : Sys.Wf r.toRegion W (startSys r.toRegion) := fun _ =>
  ⟨trivial, .idle, fun _ hp => .inl
    ⟨if_pos ⟨hp.1, by have := hp.2; omega⟩, fun _ _ => rfl⟩⟩

/-- A request in flight can be handled at once. -/
theorem Sys.Wf.respond_enabled (hW : ∀ p m, W p m → r.IsMessage m) {s : Sys} {n : Side}
    (h : Sys.Wf r.toRegion W s) (hreq : (s n).requests ≠ []) :
    ∃ t, step r.toRegion s (.respond n.other) = some t := by
  obtain ⟨request, requests, hreq⟩ := List.exists_cons_of_ne_nil hreq
  obtain ⟨node, text, hresp, -⟩ :=
    responder_wf (h n) hreq (h n.other).copies fun p m hw => (hW p m hw).1
  simp [step, hreq, hresp]

theorem deliver_enabled {s : Sys} {n : Side} (ht : (s n).thread ≠ .idle)
    (hrep : (s n).replies ≠ []) : ∃ t, step r.toRegion s (.deliver n) = some t := by
  obtain ⟨reply, replies, hrep⟩ := List.exists_cons_of_ne_nil hrep
  cases hth : (s n).thread with
  | idle => exact absurd hth ht
  | reading j js => simp [step, hrep, receive, hth]
  | writing i is p m => simp [step, hrep, receive, hth]

end Steps

/-- Messages that the commands started so far write to page `p`. -/
def writtenTo (r : Region) (acts : List Action) (p : ℤ) : List CString :=
  acts.filterMap fun a => match a with
    | .start _ (.write q m) => if p ∈ r.pagesOf q then some m else none
    | _ => none

def Given (r : Region) (acts : List Action) (p : ℤ) (m : CString) : Prop :=
  r.IsMessage m ∧ m ∈ writtenTo r acts p

/-- Only the start of a write to the page adds a message. -/
theorem mem_writtenTo_concat {r : Region} {acts : List Action} {a : Action} {p : ℤ}
    {m : CString} : m ∈ writtenTo r (acts ++ [a]) p ↔
      m ∈ writtenTo r acts p ∨ ∃ n q, a = .start n (.write q m) ∧ p ∈ r.pagesOf q := by
  rw [writtenTo, List.filterMap_append, List.mem_append]
  apply or_congr Iff.rfl
  cases a with
  | start n c => cases c <;> simp [and_comm]
  | deliver n | respond n => simp

theorem Given.append {r : Region} {acts : List Action} {p : ℤ} {m : CString}
    (h : Given r acts p m) (bs : List Action) : Given r (acts ++ bs) p m :=
  ⟨h.1, by simpa [writtenTo] using .inl (by simpa [writtenTo] using h.2)⟩

theorem given_start {r : Region} {acts : List Action} {n : Side} {q p : ℤ} {m : CString}
    (hc : r.IsCommand (.write q m)) (hp : p ∈ r.pagesOf q) :
    Given r (acts ++ [.start n (.write q m)]) p m :=
  ⟨hc.2, mem_writtenTo_concat.mpr (.inr ⟨n, q, rfl, hp⟩)⟩

theorem Sys.Wf.step {r : SharedRegion} {acts : List Action} {s t : Sys} {a : Action}
    (h : Sys.Wf r.toRegion (Given r.toRegion acts) s) (ha : a.Ok r.toRegion)
    (hs : Dsm.step r.toRegion s a = some t) :
    Sys.Wf r.toRegion (Given r.toRegion (acts ++ [a])) t := by
  have h' : Sys.Wf r.toRegion (Given r.toRegion (acts ++ [a])) s :=
    fun n => (h n).mono fun _ _ hg => hg.append [a]
  have hW : ∀ p m, Given r.toRegion (acts ++ [a]) p m → r.IsMessage m := fun _ _ hg => hg.1
  cases a with
  | start n c =>
      refine h'.start hW ha.isRequest (fun p m hc k hk => ?_) hs
      subst hc
      exact given_start ha hk
  | deliver n => exact h'.deliver hW hs
  | respond n => exact h'.respond hW hs

theorem wf_run {r : SharedRegion} {acts : List Action} {s : Sys}
    (h : GuardedRun (Dsm.step r.toRegion) (fun _ a => a.Ok r.toRegion) (startSys r.toRegion)
      acts s) : Sys.Wf r.toRegion (Given r.toRegion acts) s :=
  h.invariant (I := fun as s => Sys.Wf r.toRegion (Given r.toRegion as) s) (wf_start r)
    fun _ _ _ _ hi ha hs => hi.step ha hs

/-- The command of `n` has its own request in flight, or the reply to that request,
and nothing else. -/
def OneInFlight (s : Sys) (n : Side) : Prop :=
  ∃ request, (s n).thread.request = some request ∧
    (((s n).requests = [request] ∧ (s n).replies = []) ∨
      ((s n).requests = [] ∧ ∃ text, (s n).replies = [⟨request, text⟩]))

theorem oneInFlight_of_wf {r : Region} {W : ℤ → CString → Prop} {s : Sys} {n : Side}
    (h : (s n).Wf r W) (hne : (s n).thread ≠ .idle) : OneInFlight s n := by
  have hl := h.link
  unfold OneInFlight
  generalize (s n).thread = th, (s n).requests = rq, (s n).replies = rp at hl hne ⊢
  cases hl with
  | idle => exact absurd rfl hne
  | readRequest j js hi => exact ⟨_, rfl, .inl ⟨rfl, rfl⟩⟩
  | readReply j js t hi ht => exact ⟨_, rfl, .inr ⟨rfl, t, rfl⟩⟩
  | writeRequest i is p m => exact ⟨_, rfl, .inl ⟨rfl, rfl⟩⟩
  | writeReply i is p m => exact ⟨_, rfl, .inr ⟨rfl, _, rfl⟩⟩

/-- Requests and replies match, replies have the right kind, and no command is stuck. -/
theorem requests_matched (r : SharedRegion) {acts : List Action} {s : Sys}
    (h : GuardedRun (Dsm.step r.toRegion) (fun _ a => a.Ok r.toRegion) (startSys r.toRegion)
      acts s) (n : Side) :
    ((s n).thread ≠ .idle ↔ OneInFlight s n) ∧
      ((s n).thread = .idle → (s n).requests = [] ∧ (s n).replies = []) ∧
      (∀ reply ∈ (s n).replies, 0 < reply.text.strlen) ∧
      (∀ j js, (s n).thread = .reading j js → ∀ reply ∈ (s n).replies,
        reply.text = nullText ∨ reply.text ∈ writtenTo r.toRegion acts j) ∧
      (∀ i is p m, (s n).thread = .writing i is p m → ∀ reply ∈ (s n).replies,
        reply.text = successText) ∧
      ((s n).thread ≠ .idle → (∃ t, Dsm.step r.toRegion s (.respond n.other) = some t) ∨
        ∃ t, Dsm.step r.toRegion s (.deliver n) = some t) := by
  have hwf := wf_run h
  have hW : ∀ p m, Given r.toRegion acts p m → r.IsMessage m := fun _ _ hg => hg.1
  refine ⟨⟨oneInFlight_of_wf (hwf n), fun ⟨q, hq, _⟩ hi => by simp [hi, Thread.request] at hq⟩,
    (hwf n).idle, fun reply hmem => (hwf n).reply_pos hW hmem, fun j js ht reply hmem => ?_,
    fun i is p m ht reply hmem => ?_, fun hne => ?_⟩
  · rcases (hwf n).reply_kind hmem with ⟨j', js', ht', htext⟩ | ⟨i, is, p, m, ht', -⟩
    · obtain ⟨rfl, rfl⟩ := Thread.reading.inj (ht.symm.trans ht')
      exact htext.imp id And.right
    · exact absurd (ht.symm.trans ht') (by simp)
  · rcases (hwf n).reply_kind hmem with ⟨j', js', ht', -⟩ | ⟨i', is', p', m', ht', htext⟩
    · exact absurd (ht.symm.trans ht') (by simp)
    · exact htext
  · obtain ⟨q, -, ⟨hreq, -⟩ | ⟨-, t, hrep⟩⟩ := oneInFlight_of_wf (hwf n) hne
    · exact .inl (hwf.respond_enabled hW (by simp [hreq]))
    · exact .inr (deliver_enabled hne (by simp [hrep]))

/-- The second node reads a page that the first one writes meanwhile. -/
def crossingRead : List Action :=
  [.start .second (.read 0), .start .first (.write (-1) textA), .respond .first]

theorem requests_matched_crossing :
    ∃ s, GuardedRun (Dsm.step twoPages.toRegion) (fun _ a => a.Ok twoPages.toRegion)
        (startSys twoPages.toRegion) crossingRead s ∧
      ((s .second).thread ≠ .idle ↔ OneInFlight s .second) ∧
      ∀ reply ∈ (s .second).replies, 0 < reply.text.strlen := by
  obtain ⟨s, hs⟩ := Option.isSome_iff_exists.mp (by decide +kernel :
    (runActions (guardedStep (Dsm.step twoPages.toRegion) fun _ a => a.Ok twoPages.toRegion)
      (startSys twoPages.toRegion) crossingRead).isSome)
  obtain ⟨hblocked, -, hlen, -⟩ := requests_matched twoPages (.of_runActions hs) .second
  exact ⟨s, .of_runActions hs, hblocked, hlen⟩

end OperatingSystems.Dsm
