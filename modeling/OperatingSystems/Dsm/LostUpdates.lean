import OperatingSystems.Dsm.PageView

/-!
# Written pages at rest

A write owns its page before the peer has dropped its copy. If both nodes write a
page and each processes the other's invalidation afterwards, both drop the page
and both texts are gone. While the invalidations of the two nodes are never in
flight together, an invalidation only takes the copy that is out of date: the
node that sent it still holds the page.

A command over all pages writes them one after the other, so a page may be
written only when the command has gone on; at rest no page is left to write.
-/
namespace OperatingSystems.Dsm.LostUpdates
open Library PageProtocol PageView

/-- The invalidations of `p` by both nodes are in flight. -/
def Crossing (s : Sys) (p : ℤ) : Prop := ∀ n, requestText p invalidateOp ∈ (s n).requests

instance (s : Sys) (p : ℤ) : Decidable (Crossing s p) :=
  inferInstanceAs (Decidable (∀ _ : Side, _))

/-- A written page is held by a node, and whoever holds it has a text written to it. -/
def Kept (r : Region) (acts : List Action) (s : Sys) (p : ℤ) : Prop :=
  writtenTo r acts p ≠ [] → (∃ n, (s n).node.msiArray p ≠ .i) ∧
    ∀ n, (s n).node.msiArray p ≠ .i → r.pageText (s n).node.mem p ∈ writtenTo r acts p

/-- The pages that the write in progress has still to visit. -/
def remaining : Thread → List ℤ
  | .writing _ is _ _ => is
  | _ => []

/-- A write command has reached the page and it is still held, or will reach it. -/
def Pursued (r : Region) (s : Sys) (p : ℤ) : Prop :=
  Held (view r s p) ∨ ∃ n, p ∈ remaining (s n).thread

structure Inv (r : Region) (acts : List Action) (s : Sys) (p : ℤ) : Prop where
  alone : NoCrossing (view r s p)
  pursued : writtenTo r acts p ≠ [] → Pursued r s p

section
variable {r : SharedRegion} {p : ℤ} {acts : List Action} {s t : Sys} {a : Action}

/-- The first page of `todo` is written at once, the others stay to be written. -/
theorem resumed_pursued {W : ℤ → CString → Prop} {e e' : Endpoint} {todo : List ℤ} {n : Side}
    (h : Resumed r.toRegion W e todo e') (hp : p ∈ todo) :
    Pursued r.toRegion (Function.update s n e') p := by
  cases h with
  | finished out => simp at hp
  | fetching out j js hi hok => simp at hp
  | storing out i is q m hok =>
      rcases List.mem_cons.mp hp with rfl | hp
      · exact .inl ⟨n, by simp [view, copyAt, resting]⟩
      · exact .inr ⟨n, by simpa [remaining] using hp⟩

/-- What is left to write is only shortened by the write itself. -/
theorem pursued_of_remaining (hw : Sys.Wf r.toRegion (Given r.toRegion acts) s) {n : Side}
    (hn : p ∈ remaining (s n).thread) (hs : step r.toRegion s a = some t) :
    Pursued r.toRegion t p := by
  cases a with
  | start k c =>
      obtain ⟨hidle, rfl⟩ := step_start hs
      have hnk : n ≠ k := by
        rintro rfl
        simp [hidle, remaining] at hn
      exact .inr ⟨n, by rwa [Function.update_of_ne hnk]⟩
  | deliver k =>
      obtain ⟨reply, replies, e', -, he, rfl⟩ := step_deliver hs
      by_cases hnk : n = k
      · subst hnk
        have hok : ({ s n with replies := replies } : Endpoint).thread.Ok r.toRegion
          (Given r.toRegion acts) := (hw n).thread
        rcases receive_cases hok he with ⟨j, js, hthr, -⟩ | ⟨i, is, q, m, hthr, hres⟩
        · replace hthr : (s n).thread = .reading j js := hthr
          simp [hthr, remaining] at hn
        · replace hthr : (s n).thread = .writing i is q m := hthr
          rw [hthr] at hn
          exact resumed_pursued hres hn
      · exact .inr ⟨n, by rwa [Function.update_of_ne hnk]⟩
  | respond k =>
      obtain ⟨request, requests, node, text, -, -, hk, ho⟩ := step_respond hs
      refine .inr ⟨n, ?_⟩
      rcases Side.eq_or_other k n with rfl | rfl
      · rwa [hk]
      · rwa [ho]

theorem held_step (hw : Sys.Wf r.toRegion (Given r.toRegion acts) s) (hp : r.IsPage p)
    (ha : a.Ok r.toRegion) (hc : NoCrossing (view r.toRegion s p)) (ht : ¬ Crossing t p)
    (hs : step r.toRegion s a = some t) :
    NoCrossing (view r.toRegion t p) ∧
      (Held (view r.toRegion s p) → Held (view r.toRegion t p)) := by
  have hwt := hw.step ha hs
  obtain ⟨v, hv, hvt⟩ := view_step hw ha hp hs
  have hnew : NoCrossing v ∧ (Held (view r.toRegion s p) → Held v) := by
    rcases hv.cases with rfl | ⟨b, hsettled, hb⟩
    · exact ⟨hc, id⟩
    · refine ⟨hc.step ?_ hb, fun hheld => hheld.step hc hb⟩
      rintro ⟨n, m, rfl, -⟩
      exact settled_ne_write hsettled
  rcases hvt.cases with hvt | ⟨b, -, hb⟩
  · rwa [hvt]
  · refine ⟨hnew.1.step ?_ hb, fun hheld => (hnew.2 hheld).step hnew.1 hb⟩
    -- A write over the peer's invalidation puts the second one in flight.
    rintro ⟨n, m, rfl, hinv⟩
    obtain ⟨hn, ho⟩ := hb.write_pending
    apply ht
    intro k
    have hk : pendingAt (t k) p = .invalidateRequest := by
      rcases Side.eq_or_other n k with rfl | rfl
      · exact hn
      · exact (congrArg Copy.pending ho).trans hinv
    rw [requests_of_pending (hwt k) hk]
    exact List.mem_singleton_self _

/-- A page written for the first time is written by the command that starts. -/
theorem pursued_of_written (hne : writtenTo r.toRegion (acts ++ [a]) p ≠ [])
    (hold : writtenTo r.toRegion acts p = []) (ha : a.Ok r.toRegion)
    (hs : step r.toRegion s a = some t) : Pursued r.toRegion t p := by
  have hmem : ∃ n q m, a = .start n (.write q m) ∧ p ∈ r.pagesOf q := by
    obtain ⟨m, hm⟩ := List.exists_mem_of_ne_nil _ hne
    rw [mem_writtenTo_concat, hold] at hm
    obtain hm | ⟨n, q, hm⟩ := hm
    · simp at hm
    · exact ⟨n, q, m, hm⟩
  obtain ⟨n, q, m, rfl, hq⟩ := hmem
  obtain ⟨-, rfl⟩ := step_start hs
  have hrequest : r.IsRequest (Command.write q m).requestPage := ha.pagesOk
  exact resumed_pursued
    (resumed_startCommand (W := fun _ _ => True) hrequest (fun _ _ _ _ _ => trivial) (s n)) hq

theorem Inv.step (h : Inv r.toRegion acts s p)
    (hw : Sys.Wf r.toRegion (Given r.toRegion acts) s) (hp : r.IsPage p) (ha : a.Ok r.toRegion)
    (ht : ¬ Crossing t p) (hs : Dsm.step r.toRegion s a = some t) :
    Inv r.toRegion (acts ++ [a]) t p := by
  obtain ⟨halone, hheld⟩ := held_step hw hp ha h.alone ht hs
  refine ⟨halone, fun hne => ?_⟩
  by_cases hold : writtenTo r.toRegion acts p = []
  · exact pursued_of_written hne hold ha hs
  · rcases h.pursued hold with hk | ⟨n, hn⟩
    · exact .inl (hheld hk)
    · exact pursued_of_remaining hw hn hs

theorem inv_start (r : Region) (p : ℤ) : Inv r [] (startSys r) p where
  alone n := ⟨by simp [view, copyAt, pendingAt, startSys, Endpoint.start],
    by simp [view, copyAt, pendingAt, startSys, Endpoint.start]⟩
  pursued hne := absurd rfl hne

end

end OperatingSystems.Dsm.LostUpdates
