import OperatingSystems.Dsm.PageView

/-!
# Shared copies at rest

Requests and replies of the two nodes travel on different connections, so the
owner of a page can answer a read, write the page again and have its invalidation
processed before the reader stores the old answer. The reader then stays in S
beside an owner in M with nothing in flight to repair it. Runs without this race
end in a state where shared copies agree.
-/
namespace OperatingSystems.Dsm.StaleCopies
open Library PageProtocol PageView

/-- The responder of a node is about to process an invalidation of `p` while a text
that answers the read of `p` by the same node is on its way. -/
def Overtaken (s : Sys) (p : ℤ) : Action → Prop
  | .respond n =>
      (s n.other).requests.head? = some (requestText p invalidateOp) ∧
        ∃ reply ∈ (s n).replies, reply.request = requestText p readOp ∧ reply.text ≠ nullText
  | _ => False

instance (s : Sys) (p : ℤ) : DecidablePred (Overtaken s p)
  | .start _ _ => isFalse id
  | .deliver _ => isFalse id
  | .respond _ => inferInstanceAs (Decidable (_ ∧ _))

/-- No node shares a page that the other one owns, and two shared copies are equal. -/
def SharedAlike (r : Region) (s : Sys) (p : ℤ) : Prop :=
  (∀ n, (s n).node.msiArray p = .s → (s n.other).node.msiArray p ≠ .m) ∧
    ((∀ n, (s n).node.msiArray p = .s) →
      r.pageText (s .first).node.mem p = r.pageText (s .second).node.mem p)

section
variable {r : SharedRegion} {p : ℤ} {acts : List Action} {s t : Sys} {a : Action}

theorem noStale_step (hw : Sys.Wf r.toRegion (Given r.toRegion acts) s)
    (h : NoStale nullText (view r.toRegion s p)) (hp : r.IsPage p) (ha : a.Ok r.toRegion)
    (hg : ¬ Overtaken s p a) (hs : step r.toRegion s a = some t) :
    NoStale nullText (view r.toRegion t p) := by
  obtain ⟨v, hv, ht⟩ := view_step hw ha hp hs
  have hnew : NoStale nullText v := by
    rcases hv.cases with rfl | ⟨b, hsettled, hb⟩
    · exact h
    · refine h.step ?_ hb
      rintro ⟨n, u, rfl, hinv, hrep, hne⟩
      obtain rfl := eq_respond_of_settled hsettled
      have hreply : ⟨requestText p readOp, u⟩ ∈ (s n.other).replies := by
        rw [reply_of_pending (hw n.other) hrep]
        exact List.mem_singleton_self _
      exact hg ⟨by simp [requests_of_pending (hw n) hinv], _, hreply, rfl, hne⟩
  rcases ht.cases with ht | ⟨b, hrequested, hb⟩
  · rwa [ht]
  · refine hnew.step ?_ hb
    rintro ⟨n, u, rfl, -⟩
    exact requested_ne_serve hrequested

/-- Every copy starts in state I with nothing pending. -/
theorem noStale_start (hp : r.IsPage p) :
    NoStale nullText (view r.toRegion (startSys r.toRegion) p) := by
  have hi : ∀ n, (view r.toRegion (startSys r.toRegion) p n).state = .i := fun n =>
    if_pos ⟨hp.1, by have := hp.2; omega⟩
  have hnone : ∀ n, (view r.toRegion (startSys r.toRegion) p n).pending = .none := fun n => rfl
  exact fun n => ⟨by simp [hnone], by simp [hnone], by simp [hi], by simp [hi]⟩

theorem sharedAlike_of_quiescent (h : NoStale nullText (view r.toRegion s p))
    (hq : Quiescent s) : SharedAlike r.toRegion s p := by
  have hnone : ∀ n, (view r.toRegion s p n).pending = .none := by
    intro n
    simp [view, copyAt, pendingAt, (hq n).1]
  refine ⟨fun n hs hm => ?_, fun hs => ?_⟩
  · have hinv := (h n).stale hs hm
    simp [hnone] at hinv
  · have htext := (h .first).texts (hs .first) (hs .second)
    simp only [hnone, reduceCtorEq, or_false] at htext
    exact htext

end

/-- At rest, shared copies are not stale, if no invalidation has overtaken a text. -/
theorem shared_copies_alike (r : SharedRegion) {p : ℤ} (hp : r.IsPage p) {acts : List Action}
    {s : Sys}
    (h : GuardedRun (step r.toRegion) (fun s a => a.Ok r.toRegion ∧ ¬ Overtaken s p a)
      (startSys r.toRegion) acts s) (hq : Quiescent s) : SharedAlike r.toRegion s p := by
  have hinv : Sys.Wf r.toRegion (Given r.toRegion acts) s ∧
      NoStale nullText (view r.toRegion s p) :=
    h.invariant (I := fun as s => Sys.Wf r.toRegion (Given r.toRegion as) s ∧
        NoStale nullText (view r.toRegion s p)) ⟨wf_start r, noStale_start hp⟩
      fun _ _ _ _ hi hg hs => ⟨hi.1.step hg.1 hs, noStale_step hi.1 hi.2 hp hg.1 hg.2 hs⟩
  exact sharedAlike_of_quiescent hinv.2 hq

/-- The second node writes page 0 and the first one reads it. -/
def writeThenRead : List Action :=
  [.start .second (.write 0 textA), .respond .first, .deliver .second,
    .start .first (.read 0), .respond .second]

theorem shared_copies_alike_read :
    ∃ s, GuardedRun (step twoPages.toRegion)
        (fun s a => a.Ok twoPages.toRegion ∧ ¬ Overtaken s 0 a) (startSys twoPages.toRegion)
        (writeThenRead ++ [.deliver .first]) s ∧ Quiescent s ∧
      SharedAlike twoPages.toRegion s 0 := by
  obtain ⟨s, hs, hq⟩ : ∃ s ∈ runActions (guardedStep (step twoPages.toRegion)
      fun s a => a.Ok twoPages.toRegion ∧ ¬ Overtaken s 0 a) (startSys twoPages.toRegion)
      (writeThenRead ++ [.deliver .first]), Quiescent s := by
    decide +kernel
  exact ⟨s, .of_runActions hs, hq,
    shared_copies_alike twoPages (by decide) (.of_runActions hs) hq⟩

/-- The owner writes again before the reader has stored the first text. -/
def staleRun : List Action :=
  writeThenRead ++ [.start .second (.write 0 textB), .respond .first, .deliver .first,
    .deliver .second]

theorem stale_copy_at_rest :
    ∃ s, GuardedRun (step twoPages.toRegion) (fun _ a => a.Ok twoPages.toRegion)
        (startSys twoPages.toRegion) staleRun s ∧ Quiescent s ∧
      ¬ SharedAlike twoPages.toRegion s 0 := by
  obtain ⟨s, hs, hq, h1, h2⟩ : ∃ s ∈ runActions (guardedStep (step twoPages.toRegion)
      fun _ a => a.Ok twoPages.toRegion) (startSys twoPages.toRegion) staleRun, Quiescent s ∧
      (s .first).node.msiArray 0 = .s ∧ (s .second).node.msiArray 0 = .m := by
    decide +kernel
  exact ⟨s, .of_runActions hs, hq, fun h => h.1 .first h1 h2⟩

end OperatingSystems.Dsm.StaleCopies
