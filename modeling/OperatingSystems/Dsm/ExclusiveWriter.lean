import OperatingSystems.Dsm.Interleaving

/-!
# At most one writer once invalidations are processed

A write takes state M locally before its invalidation reaches the peer, so both
nodes may hold a page in M for a while. Only a write leads to M, and its
invalidation is sent in the same step; only the responder takes an invalidation
away, and it leaves state M in that step. No assumption about the messages is
needed: neither the contents of the pages nor of the replies matter here.
-/
namespace OperatingSystems.Dsm.ExclusiveWriter
open Library

/-- An invalidation of `p` sent by `n` that its peer has not processed. -/
def Unprocessed (s : Sys) (n : Side) (p : ℤ) : Prop :=
  requestText p invalidateOp ∈ (s n).requests

structure Inv (r : Region) (s : Sys) : Prop where
  threads : ∀ n, (s n).thread.Ok r fun _ _ => True
  requests : ∀ n, ∀ q ∈ (s n).requests,
    ∃ j op, r.IsPage j ∧ (op = readOp ∨ op = invalidateOp) ∧ q = requestText j op
  writers : ∀ p, r.IsPage p → (∀ n, (s n).node.msiArray p = .m) → ∃ n, Unprocessed s n p

section Local
variable {r : Region} {e e' : Endpoint} {todo : List ℤ}

/-- A command enters M only together with the send of an invalidation. -/
theorem resumed_writer {p : ℤ} (h : Resumed r (fun _ _ => True) e todo e')
    (hm : e'.node.msiArray p = .m) :
    e.node.msiArray p = .m ∨ requestText p invalidateOp ∈ e'.requests := by
  cases h with
  | finished out => exact .inl hm
  | fetching out j js hi hok => exact .inl hm
  | storing out i is q m hok =>
      by_cases hp : p = i
      · exact .inr (by simp [hp])
      · exact .inl (by simpa [Node.setState_msiArray, hp] using hm)

theorem resumed_requests (h : Resumed r (fun _ _ => True) e todo e') :
    e.requests ⊆ e'.requests ∧ ∀ q ∈ e'.requests, q ∈ e.requests ∨
      ∃ j op, r.IsPage j ∧ (op = readOp ∨ op = invalidateOp) ∧ q = requestText j op := by
  cases h with
  | finished out => exact ⟨fun _ hq => hq, fun q hq => .inl hq⟩
  | fetching out j js hi hok =>
      refine ⟨fun _ hq => List.mem_append_left _ hq, fun q hq => ?_⟩
      rcases List.mem_append.mp hq with hq | hq
      · exact .inl hq
      · exact .inr ⟨j, readOp, hok j (by simp), .inl rfl, List.mem_singleton.mp hq⟩
  | storing out i is p m hok =>
      refine ⟨fun _ hq => List.mem_append_left _ hq, fun q hq => ?_⟩
      rcases List.mem_append.mp hq with hq | hq
      · exact .inl hq
      · exact .inr ⟨i, invalidateOp, (hok.1 i (by simp)).1, .inr rfl, List.mem_singleton.mp hq⟩

theorem storeReply_writer {node : Node} {j p : ℤ} {message : CString}
    (h : (storeReply r node j message).msiArray p = .m) : node.msiArray p = .m := by
  unfold storeReply at h
  split_ifs at h
  · by_cases hp : p = j
    · simp [hp] at h
    · simpa [Node.setState_msiArray, hp] using h
  · exact h

/-- A page still in M was in M before, and its own invalidation was not the one handled. -/
theorem responder_writer {node node' : Node} {j op p : ℤ} {text : CString} (hj : 0 ≤ j)
    (hp : 0 ≤ p) (hop : op = readOp ∨ op = invalidateOp)
    (h : node.responder r (requestText j op) = some (node', text))
    (hm : node'.msiArray p = .m) :
    node.msiArray p = .m ∧ requestText p invalidateOp ≠ requestText j op := by
  rw [responder_requestText r _ hj (by rcases hop with rfl | rfl <;> decide)] at h
  rw [Ne, requestText_inj hp hj]
  rcases hop with rfl | rfl
  · rw [if_neg (by decide), if_pos rfl, getResponse_transition] at h
    obtain ⟨rfl, -⟩ := Prod.mk.inj (Option.some.inj h)
    refine ⟨?_, fun he => absurd he.2 (by decide)⟩
    split_ifs at hm
    · exact hm
    · by_cases hpj : p = j
      · simp [hpj] at hm
      · simpa [Node.setState_msiArray, hpj] using hm
  · rw [if_pos rfl] at h
    obtain ⟨rfl, -⟩ := Prod.mk.inj (Option.some.inj h)
    by_cases hpj : p = j
    · simp [hpj] at hm
    · exact ⟨by simpa [Node.setState_msiArray, hpj] using hm, fun he => hpj he.1⟩

end Local

variable {r : Region} {s t : Sys}

/-- A command step of `n`, told apart from the state of the node it resumes with. -/
theorem Inv.command {n : Side} {e e' : Endpoint} {todo : List ℤ} (h : Inv r s)
    (he : Resumed r (fun _ _ => True) e todo e')
    (hm : ∀ p, e.node.msiArray p = .m → (s n).node.msiArray p = .m)
    (hreq : e.requests = (s n).requests) : Inv r (Function.update s n e') := by
  obtain ⟨hsub, hnew⟩ := resumed_requests he
  have hmono : ∀ k p, Unprocessed s k p → Unprocessed (Function.update s n e') k p := by
    intro k p hk
    by_cases hkn : k = n
    · subst hkn
      simpa [Unprocessed] using hsub (hreq ▸ hk)
    · simpa [Unprocessed, Function.update_of_ne hkn] using hk
  constructor
  case threads =>
    exact (Function.forall_update_iff s fun _ e => e.thread.Ok r fun _ _ => True).mpr
      ⟨he.thread, fun k _ => h.threads k⟩
  case requests =>
    refine (Function.forall_update_iff s fun _ e => ∀ q ∈ e.requests,
        ∃ j op, r.IsPage j ∧ (op = readOp ∨ op = invalidateOp) ∧ q = requestText j op).mpr
      ⟨fun q hq => ?_, fun k _ => h.requests k⟩
    rcases hnew q hq with ho | ho
    · exact h.requests n q (hreq ▸ ho)
    · exact ho
  case writers =>
    intro p hp hall
    obtain ⟨hn, hothers⟩ :=
      (Function.forall_update_iff s fun _ e => e.node.msiArray p = .m).mp hall
    rcases resumed_writer he hn with ho | ho
    · have hboth : ∀ k, (s k).node.msiArray p = .m := by
        intro k
        by_cases hkn : k = n
        · exact hkn ▸ hm p ho
        · exact hothers k hkn
      obtain ⟨k, hk⟩ := h.writers p hp hboth
      exact ⟨k, hmono k p hk⟩
    · exact ⟨n, by simpa [Unprocessed] using ho⟩

theorem Inv.respond {n : Side} (h : Inv r s) (hs : step r s (.respond n) = some t) : Inv r t := by
  obtain ⟨request, requests, node, text, hreq, hresp, hn, ho⟩ := step_respond hs
  obtain ⟨j, op, hj, hop, rfl⟩ := h.requests n.other request (by simp [hreq])
  constructor
  case threads =>
    refine (Side.forall_iff n).mpr ⟨?_, ?_⟩
    · simpa [hn] using h.threads n
    · simpa [ho] using h.threads n.other
  case requests =>
    refine (Side.forall_iff n).mpr ⟨?_, fun q hq => ?_⟩
    · simpa [hn] using h.requests n
    · have hq' : q ∈ requests := by simpa [ho] using hq
      exact h.requests _ q (hreq ▸ List.mem_cons_of_mem _ hq')
  case writers =>
    intro p hp hall
    obtain ⟨hm, hne⟩ := responder_writer hj.1 hp.1 hop hresp (by simpa [hn] using hall n)
    have hboth : ∀ k, (s k).node.msiArray p = .m :=
      (Side.forall_iff n).mpr ⟨hm, by simpa [ho] using hall n.other⟩
    obtain ⟨k, hk⟩ := h.writers p hp hboth
    refine ⟨k, ?_⟩
    rcases Side.eq_or_other n k with rfl | rfl
    · simpa [Unprocessed, hn] using hk
    · simpa [Unprocessed, ho] using (List.mem_cons.mp (hreq ▸ hk)).resolve_left hne

theorem Inv.step {a : Action} (h : Inv r s) (ha : a.PagesOk r) (hs : Dsm.step r s a = some t) :
    Inv r t := by
  cases a with
  | start n c =>
      obtain ⟨-, rfl⟩ := step_start hs
      exact h.command (resumed_startCommand ha (fun _ _ _ _ _ => trivial) _) (fun _ hm => hm) rfl
  | deliver n =>
      obtain ⟨reply, replies, e', -, he, rfl⟩ := step_deliver hs
      have hok : ({ s n with replies := replies } : Endpoint).thread.Ok r fun _ _ => True :=
        h.threads n
      rcases receive_cases hok he with ⟨j, js, -, hres⟩ | ⟨i, is, p, m, -, hres⟩
      · exact h.command hres (fun _ hm => storeReply_writer hm) rfl
      · exact h.command hres (fun _ hm => hm) rfl
  | respond n => exact h.respond hs

theorem inv_start (r : Region) : Inv r (startSys r) where
  threads _ := trivial
  requests _ q hq := absurd hq List.not_mem_nil
  writers p hp hall := by
    have hi : (startSys r .first).node.msiArray p = .i :=
      if_pos ⟨hp.1, by have := hp.2; omega⟩
    simp [hall .first] at hi

/-- Two nodes in M for one page still have an invalidation of it to process; with no
request in flight at most one node is in M. -/
theorem exclusive_writer (r : Region) {acts : List Action} {s : Sys}
    (h : GuardedRun (Dsm.step r) (fun _ a => a.PagesOk r) (startSys r) acts s) {p : ℤ}
    (hp : r.IsPage p) :
    ((∀ n, (s n).node.msiArray p = .m) → ∃ n, Unprocessed s n p) ∧
      ((∀ n, (s n).requests = []) → ∃ n, (s n).node.msiArray p ≠ .m) := by
  have hi : Inv r s := h.invariant (I := fun _ s => Inv r s) (inv_start r)
    fun _ _ _ _ hi ha hs => hi.step ha hs
  refine ⟨hi.writers p hp, fun hempty => ?_⟩
  by_contra hall
  obtain ⟨n, hn⟩ := hi.writers p hp fun n => by
    by_contra hne
    exact hall ⟨n, hne⟩
  simp [Unprocessed, hempty n] at hn

/-- Both nodes write page 0 before either invalidation is read. -/
def crossingWrites : List Action :=
  [.start .first (.write 0 textA), .start .second (.write 0 textB)]

theorem exclusive_writer_crossing :
    ∃ s, GuardedRun (Dsm.step twoPages.toRegion) (fun _ a => a.PagesOk twoPages.toRegion)
        (startSys twoPages.toRegion) crossingWrites s ∧
      ((∀ n, (s n).node.msiArray 0 = .m) → ∃ n, Unprocessed s n 0) ∧
      ((∀ n, (s n).requests = []) → ∃ n, (s n).node.msiArray 0 ≠ .m) := by
  obtain ⟨s, hs⟩ := Option.isSome_iff_exists.mp (by decide +kernel :
    (runActions (guardedStep (Dsm.step twoPages.toRegion) fun _ a => a.PagesOk twoPages.toRegion)
      (startSys twoPages.toRegion) crossingWrites).isSome)
  exact ⟨s, .of_runActions hs, exclusive_writer twoPages.toRegion (.of_runActions hs) (by decide)⟩

end OperatingSystems.Dsm.ExclusiveWriter
