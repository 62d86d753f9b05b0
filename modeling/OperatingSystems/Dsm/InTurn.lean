import OperatingSystems.Dsm.Matching
import OperatingSystems.Dsm.Sequential

/-!
# Runs that start commands at rest

The memory is meant for commands that do not run concurrently. A run that starts
a command only at rest has at most one node with a blocked command, and then at
most one step other than a start is enabled: the peer's answer, or the delivery
of its reply. Such a run can only complete the command as the session does, so
its copies are coherent at rest and it prints the texts of the session.
-/
namespace OperatingSystems.Dsm
open Library

/-- A command is started only at rest. -/
def InTurn (s : Sys) (a : Action) : Prop := ∀ n c, a = .start n c → Quiescent s

instance (s : Sys) : DecidablePred (InTurn s)
  | .start n c => decidable_of_iff (Quiescent s)
      ⟨fun h _ _ _ => h, fun h => h n c rfl⟩
  | .deliver _ => .isTrue fun _ _ h => nomatch h
  | .respond _ => .isTrue fun _ _ h => nomatch h

/-- At most one node runs a command. -/
def Solo (s : Sys) : Prop := ∃ n : Side, (s n.other).thread = .idle

section Steps
variable {r : SharedRegion} {W : ℤ → CString → Prop} {s t : Sys}

theorem not_quiescent_of_enabled {a : Action} (ha : a.started = none)
    (hs : step r.toRegion s a = some t) : ¬ Quiescent s := by
  intro hq
  cases a with
  | start n c => cases ha
  | deliver n =>
      obtain ⟨reply, replies, e', hr, -⟩ := step_deliver hs
      simp [(hq n).2.2] at hr
  | respond n =>
      obtain ⟨request, requests, node, text, hr, -⟩ := step_respond hs
      simp [(hq n.other).2.1] at hr

/-- While only `n` runs a command, a step is its own delivery or the peer's answer to it. -/
theorem enabled_of_solo (hw : Sys.Wf r.toRegion W s) {n : Side}
    (hn : (s n.other).thread = .idle) {a : Action} (ha : a.started = none)
    (hs : step r.toRegion s a = some t) :
    (a = .deliver n ∧ (s n).replies ≠ []) ∨ (a = .respond n.other ∧ (s n).requests ≠ []) := by
  obtain ⟨hrq, hrp⟩ := (hw n.other).idle hn
  cases a with
  | start k c => cases ha
  | deliver k =>
      obtain ⟨reply, replies, e', hr, -⟩ := step_deliver hs
      rcases Side.eq_or_other n k with rfl | rfl
      · exact .inl ⟨rfl, by simp [hr]⟩
      · simp [hrp] at hr
  | respond k =>
      obtain ⟨request, requests, node, text, hr, -⟩ := step_respond hs
      rcases Side.eq_or_other n k with rfl | rfl
      · simp [hrq] at hr
      · rw [Side.other_other] at hr
        exact .inr ⟨rfl, by simp [hr]⟩

theorem enabled_unique (hw : Sys.Wf r.toRegion W s) (hsolo : Solo s) {a b : Action} {u : Sys}
    (ha : a.started = none) (hb : b.started = none) (hs : step r.toRegion s a = some t)
    (hu : step r.toRegion s b = some u) : a = b := by
  obtain ⟨n, hn⟩ := hsolo
  have hboth : (s n).replies ≠ [] → (s n).requests = [] := by
    intro hrep
    obtain ⟨reply, replies, hr⟩ := List.exists_cons_of_ne_nil hrep
    exact ((hw n).replied hr).2.1
  rcases enabled_of_solo hw hn ha hs with ⟨rfl, hrep⟩ | ⟨rfl, hreq⟩
  · rcases enabled_of_solo hw hn hb hu with ⟨rfl, -⟩ | ⟨-, hreq⟩
    · rfl
    · exact absurd (hboth hrep) hreq
  · rcases enabled_of_solo hw hn hb hu with ⟨-, hrep⟩ | ⟨rfl, -⟩
    · exact absurd (hboth hrep) hreq
    · rfl

theorem Solo.step (h : Solo s) (hw : Sys.Wf r.toRegion W s) {a : Action} (ha : InTurn s a)
    (hs : Dsm.step r.toRegion s a = some t) : Solo t := by
  obtain ⟨n, hn⟩ := h
  cases a with
  | start k c =>
      have hidle := (ha k c rfl k.other).1
      obtain ⟨-, rfl⟩ := step_start hs
      exact ⟨k, by rwa [Function.update_of_ne (Side.other_ne k)]⟩
  | deliver k =>
      obtain ⟨hd, -⟩ | ⟨hd, -⟩ := enabled_of_solo hw hn rfl hs
      · obtain rfl := Action.deliver.inj hd
        obtain ⟨reply, replies, e', -, -, rfl⟩ := step_deliver hs
        exact ⟨k, by rwa [Function.update_of_ne (Side.other_ne k)]⟩
      · cases hd
  | respond k =>
      obtain ⟨request, requests, node, text, -, -, hk, ho⟩ := step_respond hs
      refine ⟨n, ?_⟩
      rcases Side.eq_or_other k n.other with he | he
      · rw [he, hk, ← he]
        exact hn
      · rw [he, ho, ← he]
        exact hn

end Steps

/-- The command in progress can only be completed, with the copies and the texts of the
session of all commands started so far. -/
def Completes (r : SharedRegion) (cmds : List (Side × Command)) (s : Sys) : Prop :=
  ∃ future σ, future.filterMap Action.started = [] ∧
    runActions (step r.toRegion) s future = some (settled σ fun n =>
      printedAt n cmds (transcriptOf r.toRegion shownText (fun _ => none) cmds)) ∧
    Coherent r.toRegion σ (lastWrite r.toRegion cmds)

theorem transcriptOf_concat (r : Region) (shown : Side → Option (Side × CString) → CString)
    (last : LastWrite) (cmds : List (Side × Command)) (n : Side) (c : Command) :
    transcriptOf r shown last (cmds ++ [(n, c)]) = transcriptOf r shown last cmds ++
      [(r.pagesOf c.requestPage).map fun p => (p, shown n
        ((cmds.foldl (fun l d => l.record r d.1 d.2) last).record r n c p))] := by
  induction cmds generalizing last with
  | nil => rfl
  | cons d cs ih => simp only [List.cons_append, transcriptOf, ih, List.foldl_cons]

theorem length_transcriptOf (r : Region) (shown : Side → Option (Side × CString) → CString)
    (last : LastWrite) (cmds : List (Side × Command)) :
    (transcriptOf r shown last cmds).length = cmds.length := by
  induction cmds generalizing last with
  | nil => rfl
  | cons d cs ih => simp only [transcriptOf, List.length_cons, ih]

theorem printedAt_concat {cmds : List (Side × Command)} {outputs : List (List (ℤ × CString))}
    (h : outputs.length = cmds.length) (k n : Side) (c : Command) (o : List (ℤ × CString)) :
    printedAt k (cmds ++ [(n, c)]) (outputs ++ [o]) =
      printedAt k cmds outputs ++ if n = k then o else [] := by
  unfold printedAt
  rw [List.zip_append h.symm, List.filter_append, List.flatMap_append]
  by_cases hk : n = k <;> simp [hk]

section Runs
variable {r : SharedRegion} {cmds : List (Side × Command)} {s t : Sys}

theorem filterMap_started_cons {b : Action} {bs : List Action}
    (h : (b :: bs).filterMap Action.started = []) :
    b.started = none ∧ bs.filterMap Action.started = [] := by
  rw [List.filterMap_cons] at h
  cases hb : b.started with
  | none => exact ⟨rfl, by rwa [hb] at h⟩
  | some d => simp [hb] at h

theorem Completes.settled_of_quiescent (h : Completes r cmds s) (hq : Quiescent s) :
    ∃ σ, s = settled σ (fun n =>
        printedAt n cmds (transcriptOf r.toRegion shownText (fun _ => none) cmds)) ∧
      Coherent r.toRegion σ (lastWrite r.toRegion cmds) := by
  obtain ⟨future, σ, hst, hrun, hc⟩ := h
  cases future with
  | nil => exact ⟨σ, Option.some.inj hrun, hc⟩
  | cons b bs =>
      obtain ⟨u, hu, -⟩ := Option.bind_eq_some_iff.mp hrun
      exact absurd hq (not_quiescent_of_enabled (filterMap_started_cons hst).1 hu)

/-- A command that starts at rest runs from there to its end. -/
theorem Completes.start (h : Completes r cmds s) (hq : Quiescent s) {n : Side} {c : Command}
    (hc : r.IsCommand c) (hs : step r.toRegion s (.start n c) = some t) :
    Completes r (cmds ++ [(n, c)]) t := by
  obtain ⟨σ, rfl, hcoh⟩ := h.settled_of_quiescent hq
  obtain ⟨τ, he, hτ⟩ := execute_coherent (n := n) hc hcoh
  obtain ⟨future, hst, hrun⟩ := execute_is_run (fun k =>
    printedAt k cmds (transcriptOf r.toRegion shownText (fun _ => none) cmds)) he
  rw [runActions, hs, Option.bind_some] at hrun
  have hlast : lastWrite r.toRegion (cmds ++ [(n, c)]) =
      (lastWrite r.toRegion cmds).record r.toRegion n c := by
    rw [lastWrite, List.foldl_append]
    rfl
  refine ⟨future, τ, hst, hrun.trans ?_, by rwa [hlast]⟩
  refine congrArg (some <| settled τ ·) (funext fun k => ?_)
  rw [transcriptOf_concat, printedAt_concat (length_transcriptOf ..)]
  rcases Side.eq_or_other n k with rfl | rfl
  · rw [Function.update_self, if_pos rfl]
    rfl
  · rw [Function.update_of_ne (Side.other_ne n), if_neg (Side.ne_other n), List.append_nil]

theorem Completes.step {W : ℤ → CString → Prop} (h : Completes r cmds s)
    (hw : Sys.Wf r.toRegion W s) (hsolo : Solo s) {a : Action} (ha : a.Ok r.toRegion)
    (ht : InTurn s a) (hs : Dsm.step r.toRegion s a = some t) :
    Completes r (cmds ++ a.started.toList) t := by
  have hnext : a.started = none → Completes r cmds t := by
    intro hnone
    obtain ⟨future, σ, hst, hrun, hc⟩ := h
    cases future with
    | nil =>
        obtain rfl := Option.some.inj hrun
        exact absurd (quiescent_settled _ _) (not_quiescent_of_enabled hnone hs)
    | cons b bs =>
        obtain ⟨u, hu, hrest⟩ := Option.bind_eq_some_iff.mp hrun
        obtain ⟨hb, hbs⟩ := filterMap_started_cons hst
        obtain rfl := enabled_unique hw hsolo hnone hb hs hu
        obtain rfl := Option.some.inj (hs.symm.trans hu)
        exact ⟨bs, σ, hbs, hrest, hc⟩
  cases a with
  | start n c => exact h.start (ht n c rfl) ha hs
  | deliver n => simpa [Action.started] using hnext rfl
  | respond n => simpa [Action.started] using hnext rfl

end Runs

end OperatingSystems.Dsm
