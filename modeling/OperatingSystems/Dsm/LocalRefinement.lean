import OperatingSystems.Dsm.Coherence
import OperatingSystems.Dsm.LocalStore

/-!
# Two nodes against one process

The single-process program of Part 1-2 runs the same commands on one region. Its
region holds the last message of every page, so its transcript is that of
`lastText`, while the transcript of the two nodes is that of `shownText`. The two
differ exactly where a node reads a page whose last message is the text `NULL`
written by its peer: that reply is taken for the answer of a node without data.
-/
namespace OperatingSystems.Dsm
open Library

section Store
variable {r : SharedRegion}

/-- Every page of the single region holds its last message, or nothing. -/
def HoldsLast (r : SharedRegion) (mem : ℤ → UInt8) (last : LastWrite) : Prop :=
  ∀ p, r.IsPage p → r.Holds mem p (lastText (last p))

theorem holdsLast_start (r : SharedRegion) : HoldsLast r (fun _ => 0) fun _ => none :=
  Region.represents_zero r.addressable.pageSize_pos

theorem fits_of_isCommand {c : Command} (hc : r.IsCommand c) : r.Fits c := by
  cases c with
  | read p => exact hc
  | write p message => exact ⟨hc.1, hc.2.2⟩

/-- A command does to the array of last messages what it does to the record of writes. -/
theorem execute_lastText (last : LastWrite) (n : Side) (c : Command) :
    TextArray.execute r.toRegion (fun p => lastText (last p)) c =
      (fun p => lastText (last.record r.toRegion n c p),
        (r.pagesOf c.requestPage).map fun p => (p, lastText (last.record r.toRegion n c p))) := by
  cases c with
  | read p => rfl
  | write p message =>
      have htext : ∀ i, (if i ∈ r.pagesOf p then message else lastText (last i)) =
          lastText (last.record r.toRegion n (.write p message) i) := by
        intro i
        by_cases hi : i ∈ r.pagesOf p
        · simp [LastWrite.record, hi, lastText]
        · simp [LastWrite.record, hi]
      simp only [TextArray.execute, htext]
      rfl

theorem execute_holdsLast {mem : ℤ → UInt8} {last : LastWrite} {c : Command} (n : Side)
    (h : HoldsLast r mem last) (hc : r.IsCommand c) :
    HoldsLast r (r.execute mem c).1 (last.record r.toRegion n c) := by
  have hr := (Region.execute_refines h r.addressable (fits_of_isCommand hc)).1
  rwa [execute_lastText last n c] at hr

theorem execute_outputs {mem : ℤ → UInt8} {last : LastWrite} {c : Command} (n : Side)
    (h : HoldsLast r mem last) (hc : r.IsCommand c) :
    (r.execute mem c).2 = (r.pagesOf c.requestPage).map fun p =>
      (p, lastText (last.record r.toRegion n c p)) := by
  rw [(Region.execute_refines h r.addressable (fits_of_isCommand hc)).2,
    execute_lastText last n c]

/-- The single process prints the last message of every page it prints. -/
theorem transcript_eq {mem : ℤ → UInt8} {last : LastWrite} {cmds : List (Side × Command)}
    (hv : ∀ c ∈ cmds, r.IsCommand c.2) (h : HoldsLast r mem last) :
    r.transcript mem (cmds.map Prod.snd) =
      transcriptOf r.toRegion (fun _ => lastText) last cmds := by
  induction cmds generalizing mem last with
  | nil => rfl
  | cons c cs ih =>
      have hc := hv c (by simp)
      simp only [List.map_cons, Region.transcript, transcriptOf, execute_outputs c.1 h hc,
        ih (fun d hd => hv d (by simp [hd])) (execute_holdsLast c.1 h hc)]

end Store

/-- Two transcripts of the same commands agree exactly when every printed page does. -/
theorem transcriptOf_eq_iff {r : Region} {f g : Side → Option (Side × CString) → CString}
    {last : LastWrite} {cmds : List (Side × Command)} :
    transcriptOf r f last cmds = transcriptOf r g last cmds ↔
      ∀ pre n c post, cmds = pre ++ (n, c) :: post → ∀ p ∈ r.pagesOf c.requestPage,
        f n ((pre.foldl (fun l d => l.record r d.1 d.2) last).record r n c p) =
          g n ((pre.foldl (fun l d => l.record r d.1 d.2) last).record r n c p) := by
  induction cmds generalizing last with
  | nil => simp [transcriptOf]
  | cons d cs ih =>
      simp only [transcriptOf, List.cons.injEq, ih]
      constructor
      · rintro ⟨hd, hcs⟩ pre n c post he p hp
        cases pre with
        | nil =>
            obtain ⟨rfl, -⟩ := List.cons.inj he
            exact (Prod.mk.inj (List.map_inj_left.mp hd p hp)).2
        | cons e pre =>
            obtain ⟨rfl, rfl⟩ := List.cons.inj he
            exact hcs pre n c post rfl p hp
      · intro h
        refine ⟨List.map_inj_left.mpr fun p hp => ?_, fun pre n c post he p hp => ?_⟩
        · exact congrArg _ (h [] d.1 d.2 cs rfl p hp)
        · exact h (d :: pre) n c post (by rw [he]; rfl) p hp

theorem shownText_eq_iff {n : Side} {last : Option (Side × CString)} :
    shownText n last = lastText last ↔ last ≠ some (n.other, nullText) := by
  unfold shownText
  split_ifs with h
  · subst h
    refine iff_of_false ?_ (by simp)
    simpa [lastText] using (by decide : CString.empty ≠ nullText)
  · exact iff_of_true rfl h

/-- A read command prints a page whose last message is `NULL`, written by the peer. -/
def FetchesNullText (r : Region) (cmds : List (Side × Command)) : Prop :=
  ∃ pre n q post p, cmds = pre ++ (n, .read q) :: post ∧ p ∈ r.pagesOf q ∧
    lastWrite r pre p = some (n.other, nullText)

/-- The two nodes print what one process prints, unless a read meets the peer's `NULL`. -/
theorem session_refines_iff (r : SharedRegion) (cmds : List (Side × Command))
    (hv : ∀ c ∈ cmds, r.IsCommand c.2) :
    (∃ σ, session r.toRegion cmds (startNodes r.toRegion) =
        some (σ, r.transcript (fun _ => 0) (cmds.map Prod.snd))) ↔
      ¬ FetchesNullText r.toRegion cmds := by
  obtain ⟨σ, hs, -⟩ := session_spec hv (coherent_start r.toRegion)
  have hsame : (∃ σ, session r.toRegion cmds (startNodes r.toRegion) =
      some (σ, r.transcript (fun _ => 0) (cmds.map Prod.snd))) ↔
      transcriptOf r.toRegion shownText (fun _ => none) cmds =
        transcriptOf r.toRegion (fun _ => lastText) (fun _ => none) cmds := by
    rw [hs, transcript_eq hv (holdsLast_start r)]
    simp
  rw [hsame, transcriptOf_eq_iff]
  constructor
  · rintro h ⟨pre, n, q, post, p, he, hp, hl⟩
    exact shownText_eq_iff.mp (h pre n (.read q) post he p hp) hl
  · intro h pre n c post he p hp
    apply shownText_eq_iff.mpr
    intro hl
    cases c with
    | read q => exact h ⟨pre, n, q, post, p, he, hp, hl⟩
    | write q message =>
        -- A write is echoed by its own node, so the peer is not its last writer.
        have hw : LastWrite.record r.toRegion
            (pre.foldl (fun l d => l.record r.toRegion d.1 d.2) fun _ => none) n
            (.write q message) p = some (n, message) := if_pos hp
        rw [hw] at hl
        exact Side.ne_other n (Prod.mk.inj (Option.some.inj hl)).1

theorem session_refines_mixed :
    (∀ c ∈ mixedSession, twoPages.IsCommand c.2) ∧
      ((∃ σ, session twoPages.toRegion mixedSession (startNodes twoPages.toRegion) =
          some (σ, twoPages.transcript (fun _ => 0) (mixedSession.map Prod.snd))) ↔
        ¬ FetchesNullText twoPages.toRegion mixedSession) :=
  ⟨by decide, session_refines_iff twoPages mixedSession (by decide)⟩

/-- The first node writes `NULL` to page 0, and the second reads the page. -/
def nullSession : List (Side × Command) :=
  [(.first, .write 0 nullText), (.second, .read 0)]

/-- The reader shows the empty text where one process shows `NULL`. -/
theorem nullSession_differs :
    (∀ c ∈ nullSession, twoPages.IsCommand c.2) ∧
      (session twoPages.toRegion nullSession (startNodes twoPages.toRegion)).map Prod.snd =
        some [[(0, nullText)], [(0, CString.empty)]] ∧
      twoPages.transcript (fun _ => 0) (nullSession.map Prod.snd) =
        [[(0, nullText)], [(0, nullText)]] := by
  refine ⟨by decide, ?_, ?_⟩
  · decide +kernel
  · decide +kernel

end OperatingSystems.Dsm
