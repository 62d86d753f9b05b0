import OperatingSystems.Dsm.Session

/-!
# Coherence of sessions

One command touches one page at a time. For every page visited the pair of
copies is in one of three situations: never written, held by its last writer
alone, or shared with equal texts. Each round trip moves between them, and every
other page keeps both of its copies. The loops and the session then follow by
induction on the pages and on the commands.

Printed texts follow the same induction: a page shows its last message unless
that message is the text `NULL` and lies at the peer.
-/
namespace OperatingSystems.Dsm
open Library

section Situations
variable {r : Region} {σ : Nodes} {p : ℤ} {last : Option (Side × CString)}

theorem CoherentAt.unwritten (hi : ∀ n, (σ n).msiArray p = .i)
    (hb : ∀ n, r.Blank (σ n).mem p) : CoherentAt r σ p none where
  exclusive n hn := by simp [hi] at hn
  held n hn := absurd (hi n) hn
  blank n _ := hb n
  writer w t hl := by cases hl
  sentinel w hl := by cases hl

theorem CoherentAt.owned {w : Side} {t : CString} (hw : (σ w).msiArray p ≠ .i)
    (ho : (σ w.other).msiArray p = .i) (ht : r.Holds (σ w).mem p t)
    (hb : r.Blank (σ w.other).mem p) (hne : t ≠ CString.empty) :
    CoherentAt r σ p (some (w, t)) where
  exclusive n hn := by
    rcases Side.eq_or_other w n with rfl | rfl
    · exact ho
    · simp [ho] at hn
  held n hn := by
    rcases Side.eq_or_other w n with rfl | rfl
    · exact ⟨n, t, rfl, ht⟩
    · exact absurd ho hn
  blank n hn := by
    rcases Side.eq_or_other w n with rfl | rfl
    · exact absurd hn hw
    · exact hb
  writer v u hl := by
    obtain ⟨rfl, rfl⟩ := Prod.mk.inj (Option.some.inj hl)
    exact ⟨hw, hne⟩
  sentinel v hl := by
    obtain ⟨rfl, -⟩ := Prod.mk.inj (Option.some.inj hl)
    exact ho

theorem CoherentAt.shared {w : Side} {t : CString} (hs : ∀ n, (σ n).msiArray p = .s)
    (ht : ∀ n, r.Holds (σ n).mem p t) (hne : t ≠ CString.empty) (hnull : t ≠ nullText) :
    CoherentAt r σ p (some (w, t)) where
  exclusive n hn := by simp [hs] at hn
  held n _ := ⟨w, t, rfl, ht n⟩
  blank n hn := by simp [hs] at hn
  writer v u hl := by
    obtain ⟨-, rfl⟩ := Prod.mk.inj (Option.some.inj hl)
    exact ⟨by simp [hs], hne⟩
  sentinel v hl := absurd (Prod.mk.inj (Option.some.inj hl)).2 hnull

/-- A node that does not hold a written page leaves it to the writer, in text too. -/
theorem CoherentAt.other_holds (h : CoherentAt r σ p last) {n : Side}
    (hn : (σ n).msiArray p = .i) (hl : last ≠ none) :
    ∃ t, last = some (n.other, t) ∧ (σ n.other).msiArray p ≠ .i ∧
      r.Holds (σ n.other).mem p t ∧ t ≠ CString.empty := by
  obtain ⟨⟨w, t⟩, rfl⟩ := Option.ne_none_iff_exists'.mp hl
  obtain ⟨hw, hne⟩ := h.writer w t rfl
  obtain rfl : w = n.other := (Side.eq_or_other n w).resolve_left fun e => hw (e ▸ hn)
  obtain ⟨v, u, hu, hh⟩ := h.held _ hw
  obtain ⟨-, rfl⟩ := Prod.mk.inj (Option.some.inj hu)
  exact ⟨t, rfl, hw, hh, hne⟩

theorem CoherentAt.none_iff (h : CoherentAt r σ p last) :
    (∀ n, (σ n).msiArray p = .i) ↔ last = none := by
  constructor
  · intro hi
    by_contra hl
    obtain ⟨t, -, ho, -⟩ := h.other_holds (hi .first) hl
    exact ho (hi _)
  · rintro rfl n
    by_contra hn
    obtain ⟨w, t, hl, -⟩ := h.held n hn
    cases hl

end Situations

section Frames
variable {r : Region} {σ σ' σ'' : Nodes} {p : ℤ}

theorem SameCopies.refl : SameCopies r σ σ p := fun _ => ⟨rfl, fun _ _ => rfl⟩

theorem SameCopies.trans (h : SameCopies r σ σ' p) (k : SameCopies r σ' σ'' p) :
    SameCopies r σ σ'' p := fun n =>
  ⟨(k n).1.trans (h n).1, fun a ha => ((k n).2 a ha).trans ((h n).2 a ha)⟩

/-- Replacing one node keeps a page when the new node agrees with the old on it. -/
theorem sameCopies_update {k : Side} {node : Node} (hs : node.msiArray p = (σ k).msiArray p)
    (hm : r.SamePage (σ k).mem node.mem p) : SameCopies r σ (Function.update σ k node) p := by
  intro n
  by_cases hn : n = k
  · subst hn
    simpa using ⟨hs, hm⟩
  · rw [Function.update_of_ne hn]
    exact ⟨rfl, fun _ _ => rfl⟩

end Frames

section Pages
variable {r : SharedRegion} {n : Side} {σ : Nodes} {j : ℤ}

theorem communicate_invalidate (hj : r.IsPage j) :
    communicateWithPeer r.toRegion n σ j invalidateOp =
      some (Function.update σ n.other
        (((σ n.other).setState j .i).setMem (r.dontNeed (σ n.other).mem j)), successText) := by
  rw [communicateWithPeer, responder_invalidate r _ hj.1]
  rfl

theorem communicate_read_held {t : CString} (hj : r.IsPage j)
    (ho : (σ n.other).msiArray j ≠ .i) (ht : r.Holds (σ n.other).mem j t)
    (hne : t ≠ CString.empty) :
    communicateWithPeer r.toRegion n σ j readOp =
      some (Function.update σ n.other ((σ n.other).setState j .s), t) := by
  have h0 : t.strlen ≠ 0 := fun h => hne (CString.strlen_eq_zero.mp h)
  simp only [communicateWithPeer, responder_read_held r hj ho ht, Option.bind_eq_bind,
    Option.bind_some, if_neg h0]

theorem communicate_read_invalid (hj : r.IsPage j) (ho : (σ n.other).msiArray j = .i) :
    communicateWithPeer r.toRegion n σ j readOp = some (σ, nullText) := by
  rw [communicateWithPeer, responder_read_invalid r hj.1 ho]
  simp [CString.strlen, nullText]

theorem printPage_held {t : CString} (fetch : Bool) (hj : r.IsPage j)
    (hn : (σ n).msiArray j ≠ .i) (ht : r.Holds (σ n).mem j t) :
    printPage r.toRegion n fetch σ j = some (σ, t) := by
  have htext := SharedRegion.pageText_eq hj ht
  unfold printPage
  cases hs : (σ n).msiArray j with
  | m => simp [htext]
  | s => simp [htext]
  | i => exact absurd hs hn

/-- A fetch that brings a text stores it and shares the page. -/
theorem printPage_fetched {t : CString} (hj : r.IsPage j) (hn : (σ n).msiArray j = .i)
    (ho : (σ n.other).msiArray j ≠ .i) (ht : r.Holds (σ n.other).mem j t)
    (hne : t ≠ CString.empty) (hnull : t ≠ nullText) :
    printPage r.toRegion n true σ j =
      some (Function.update (Function.update σ n.other ((σ n.other).setState j .s)) n
        (((σ n).setMem (r.copyMessage t (σ n).mem j)).setState j .s), t) := by
  simp [printPage, hn, communicate_read_held hj ho ht hne, hnull,
    Region.updatePageContents_of_isPage hj]

/-- A fetch answered by `NULL` drops the page; the peer has still left state M. -/
theorem printPage_null (hj : r.IsPage j) (hn : (σ n).msiArray j = .i)
    (ho : (σ n.other).msiArray j ≠ .i) (ht : r.Holds (σ n.other).mem j nullText) :
    printPage r.toRegion n true σ j =
      some (Function.update (Function.update σ n.other ((σ n.other).setState j .s)) n
        ((σ n).setMem (r.dontNeed (σ n).mem j)), CString.empty) := by
  simp [printPage, hn, communicate_read_held hj ho ht (by decide)]

theorem printPage_nowhere (hj : r.IsPage j) (hn : (σ n).msiArray j = .i)
    (ho : (σ n.other).msiArray j = .i) :
    printPage r.toRegion n true σ j =
      some (Function.update σ n ((σ n).setMem (r.dontNeed (σ n).mem j)), CString.empty) := by
  simp [printPage, hn, communicate_read_invalid hj ho]

theorem updatePage_eq (message : CString) (hj : r.IsPage j) :
    updatePage r.toRegion n message σ j =
      some (Function.update (Function.update σ n
          (((σ n).setMem (r.copyMessage message (σ n).mem j)).setState j .m)) n.other
        (((σ n.other).setState j .i).setMem (r.dontNeed (σ n.other).mem j))) := by
  simp [updatePage, communicate_invalidate hj, Function.update_of_ne]

theorem Coherent.step {last : LastWrite} {σ' : Nodes} {l : Option (Side × CString)}
    (h : Coherent r.toRegion σ last)
    (hframe : ∀ p, r.IsPage p → p ≠ j → SameCopies r.toRegion σ σ' p)
    (hj : CoherentAt r.toRegion σ' j l) :
    Coherent r.toRegion σ' (Function.update last j l) := by
  intro p hp
  by_cases hpj : p = j
  · subst hpj
    simpa using hj
  · rw [Function.update_of_ne hpj]
    exact (h p hp).congr (hframe p hp hpj)

/-- A page that keeps its last write, while all others keep their copies. -/
theorem Coherent.keep {last : LastWrite} {σ' : Nodes} (h : Coherent r.toRegion σ last)
    (hframe : ∀ p, r.IsPage p → p ≠ j → SameCopies r.toRegion σ σ' p)
    (hj : CoherentAt r.toRegion σ' j (last j)) : Coherent r.toRegion σ' last := by
  have hs := h.step hframe hj
  rwa [Function.update_eq_self] at hs

theorem sameCopies_store {p : ℤ} {message : CString} (hj : r.IsPage j) (hp : r.IsPage p)
    (hpj : p ≠ j) (k : Side) (st : MsiState) (hm : message.strlen < r.pageSize) :
    SameCopies r.toRegion σ (Function.update σ k
      (((σ k).setMem (r.copyMessage message (σ k).mem j)).setState j st)) p :=
  sameCopies_update (by simp [Node.setState_msiArray, hpj])
    (by simpa using SharedRegion.samePage_copyMessage hj hp (Ne.symm hpj) hm (σ k).mem)

theorem sameCopies_drop {p : ℤ} (hj : r.IsPage j) (hp : r.IsPage p) (hpj : p ≠ j) (k : Side)
    (st : MsiState) :
    SameCopies r.toRegion σ (Function.update σ k
      (((σ k).setState j st).setMem (r.dontNeed (σ k).mem j))) p :=
  sameCopies_update (by simp [Node.setState_msiArray, hpj])
    (by simpa using SharedRegion.samePage_dontNeed hj hp (Ne.symm hpj) (σ k).mem)

theorem sameCopies_setState {p : ℤ} (hpj : p ≠ j) (k : Side) (st : MsiState) :
    SameCopies r.toRegion σ (Function.update σ k ((σ k).setState j st)) p :=
  sameCopies_update (by simp [Node.setState_msiArray, hpj]) fun _ _ => rfl

/-- A held page shows its last message: it cannot be the peer's `NULL`. -/
theorem CoherentAt.shown_of_held {last : Option (Side × CString)} {t : CString} {w : Side}
    (h : CoherentAt r.toRegion σ j last) (hn : (σ n).msiArray j ≠ .i)
    (hl : last = some (w, t)) : shownText n last = t := by
  have hnot : last ≠ some (n.other, nullText) := fun he =>
    hn (by simpa using h.sentinel n.other he)
  rw [shownText, if_neg hnot, hl]
  rfl

theorem coherent_nowhere {last : LastWrite} (h : Coherent r.toRegion σ last) (hj : r.IsPage j)
    (hl : last j = none) :
    Coherent r.toRegion (Function.update σ n ((σ n).setMem (r.dontNeed (σ n).mem j))) last := by
  have hi := (h j hj).none_iff.mpr hl
  refine h.keep (j := j) (fun p hp hpj => ?_) ?_
  · exact sameCopies_update rfl (SharedRegion.samePage_dontNeed hj hp (Ne.symm hpj) _)
  · rw [hl]
    refine CoherentAt.unwritten (fun k => ?_) (fun k => ?_) <;>
      rcases Side.eq_or_other n k with rfl | rfl
    · simpa using hi _
    · simpa using hi _
    · simpa using Region.blank_dontNeed _ _
    · simpa using (h j hj).blank _ (hi _)

theorem coherent_null {last : LastWrite} (h : Coherent r.toRegion σ last) (hj : r.IsPage j)
    (hl : last j = some (n.other, nullText)) (hn : (σ n).msiArray j = .i)
    (ht : r.Holds (σ n.other).mem j nullText) :
    Coherent r.toRegion (Function.update (Function.update σ n.other ((σ n.other).setState j .s)) n
      ((σ n).setMem (r.dontNeed (σ n).mem j))) last := by
  refine h.keep (j := j) (fun p hp hpj => (sameCopies_setState hpj n.other .s).trans ?_) ?_
  · have hframe := SharedRegion.samePage_dontNeed hj hp (Ne.symm hpj) (σ n).mem
    exact sameCopies_update (by simp) (by simpa using hframe)
  · rw [hl]
    refine CoherentAt.owned ?_ ?_ ?_ ?_ (by decide)
    · simp
    · simpa using hn
    · simpa using ht
    · simpa using Region.blank_dontNeed _ _

theorem coherent_fetched {last : LastWrite} {t : CString} (h : Coherent r.toRegion σ last)
    (hj : r.IsPage j) (hl : last j = some (n.other, t)) (ht : r.Holds (σ n.other).mem j t)
    (hne : t ≠ CString.empty) (hnull : t ≠ nullText) :
    Coherent r.toRegion (Function.update (Function.update σ n.other ((σ n.other).setState j .s)) n
      (((σ n).setMem (r.copyMessage t (σ n).mem j)).setState j .s)) last := by
  refine h.keep (j := j) (fun p hp hpj => (sameCopies_setState hpj n.other .s).trans ?_) ?_
  · have hframe := sameCopies_store (σ := Function.update σ n.other ((σ n.other).setState j .s))
      hj hp hpj n .s ht.1
    simpa [Function.update_of_ne] using hframe
  · rw [hl]
    refine CoherentAt.shared (fun k => ?_) (fun k => ?_) hne hnull <;>
      rcases Side.eq_or_other n k with rfl | rfl
    · simp
    · simp
    · simpa using Region.holds_copyMessage ht.1 _ _
    · simpa using ht

theorem printPage_coherent {last : LastWrite} (h : Coherent r.toRegion σ last)
    (hj : r.IsPage j) :
    ∃ σ', printPage r.toRegion n true σ j = some (σ', shownText n (last j)) ∧
      Coherent r.toRegion σ' last := by
  have hc := h j hj
  by_cases hn : (σ n).msiArray j = .i
  · by_cases hl : last j = none
    · refine ⟨_, ?_, coherent_nowhere (n := n) h hj hl⟩
      rw [printPage_nowhere hj hn (hc.none_iff.mpr hl _), hl]
      rfl
    · obtain ⟨t, hlt, ho, ht, hne⟩ := hc.other_holds hn hl
      by_cases hnull : t = nullText
      · subst hnull
        refine ⟨_, ?_, coherent_null h hj hlt hn ht⟩
        rw [printPage_null hj hn ho ht, hlt, shownText, if_pos rfl]
      · have hnot : last j ≠ some (n.other, nullText) := fun he =>
          hnull (Prod.mk.inj (Option.some.inj (hlt.symm.trans he))).2
        refine ⟨_, ?_, coherent_fetched h hj hlt ht hne hnull⟩
        rw [printPage_fetched hj hn ho ht hne hnull, shownText, if_neg hnot, hlt]
        rfl
  · obtain ⟨w, t, hl, ht⟩ := hc.held n hn
    refine ⟨σ, ?_, h⟩
    rw [hc.shown_of_held hn hl, printPage_held true hj hn ht]

theorem updatePage_coherent {last : LastWrite} {message : CString}
    (h : Coherent r.toRegion σ last) (hj : r.IsPage j) (hm : r.IsMessage message) :
    ∃ σ', updatePage r.toRegion n message σ j = some σ' ∧
      Coherent r.toRegion σ' (Function.update last j (some (n, message))) := by
  refine ⟨_, updatePage_eq message hj, h.step (fun p hp hpj => ?_) ?_⟩
  · apply (sameCopies_store hj hp hpj n .m hm.2).trans
    have hframe := sameCopies_drop (σ := Function.update σ n
      (((σ n).setMem (r.copyMessage message (σ n).mem j)).setState j .m)) hj hp hpj n.other .i
    simpa [Function.update_of_ne] using hframe
  · refine CoherentAt.owned ?_ ?_ ?_ ?_ hm.1
    · simp [Function.update_of_ne]
    · simp
    · simpa [Function.update_of_ne] using Region.holds_copyMessage hm.2 _ _
    · simpa using Region.blank_dontNeed _ _

theorem printPages_coherent {last : LastWrite} {js : List ℤ} (hjs : ∀ j ∈ js, r.IsPage j)
    (h : Coherent r.toRegion σ last) :
    ∃ σ', printPages r.toRegion n true js σ =
        some (σ', js.map fun j => (j, shownText n (last j))) ∧ Coherent r.toRegion σ' last := by
  induction js generalizing σ with
  | nil => exact ⟨σ, rfl, h⟩
  | cons j js ih =>
      obtain ⟨σ₁, hp, h₁⟩ := printPage_coherent (n := n) h (hjs j (by simp))
      obtain ⟨σ₂, hps, h₂⟩ := ih (fun k hk => hjs k (by simp [hk])) h₁
      exact ⟨σ₂, by simp [printPages, hp, hps], h₂⟩

/-- The echo after a write: the writer prints its own copies and changes nothing. -/
theorem printPages_written {last : LastWrite} {js : List ℤ} (fetch : Bool)
    (hjs : ∀ j ∈ js, r.IsPage j ∧ ∃ t, last j = some (n, t)) (h : Coherent r.toRegion σ last) :
    printPages r.toRegion n fetch js σ =
      some (σ, js.map fun j => (j, shownText n (last j))) := by
  induction js with
  | nil => rfl
  | cons j js ih =>
      obtain ⟨hj, t, hl⟩ := hjs j (by simp)
      have hn := ((h j hj).writer n t hl).1
      obtain ⟨w, u, hu, ht⟩ := (h j hj).held n hn
      obtain ⟨-, rfl⟩ := Prod.mk.inj (Option.some.inj (hl.symm.trans hu))
      have hshow : shownText n (last j) = t := by
        rw [shownText, if_neg (by simp [hl]), hl]
        rfl
      simp [printPages, printPage_held fetch hj hn ht, hshow,
        ih fun k hk => hjs k (by simp [hk])]

theorem updatePages_coherent {last : LastWrite} {message : CString} {js : List ℤ}
    (hjs : ∀ j ∈ js, r.IsPage j) (hm : r.IsMessage message) (h : Coherent r.toRegion σ last) :
    ∃ σ', updatePages r.toRegion n message js σ = some σ' ∧
      Coherent r.toRegion σ' fun j => if j ∈ js then some (n, message) else last j := by
  induction js generalizing σ last with
  | nil => exact ⟨σ, rfl, by simpa using h⟩
  | cons j js ih =>
      obtain ⟨σ₁, hu, h₁⟩ := updatePage_coherent (n := n) h (hjs j (by simp)) hm
      obtain ⟨σ₂, hus, h₂⟩ := ih (fun k hk => hjs k (by simp [hk])) h₁
      refine ⟨σ₂, by simp [updatePages, hu, hus], ?_⟩
      have hlast : (fun k => if k ∈ js then some (n, message) else
          Function.update last j (some (n, message)) k) =
          fun k => if k ∈ j :: js then some (n, message) else last k := by
        funext k
        by_cases hk : k = j
        · simp [hk]
        · simp [hk, Function.update_of_ne]
      rwa [hlast] at h₂

theorem execute_coherent {last : LastWrite} {c : Command} (hc : r.IsCommand c)
    (h : Coherent r.toRegion σ last) :
    ∃ σ', execute r.toRegion n σ c = some (σ', (r.pagesOf c.requestPage).map fun p =>
        (p, shownText n (last.record r.toRegion n c p))) ∧
      Coherent r.toRegion σ' (last.record r.toRegion n c) := by
  have hpages : ∀ j ∈ r.pagesOf c.requestPage, r.IsPage j := fun j hj =>
    Region.isPage_of_mem_pagesOf hc.isRequest hj
  cases c with
  | read p => exact printPages_coherent hpages h
  | write p message =>
      obtain ⟨σ₁, hu, h₁⟩ := updatePages_coherent (n := n) hpages hc.2 h
      refine ⟨σ₁, ?_, h₁⟩
      simp only [execute, Option.bind_eq_bind]
      rw [show updatePages r.toRegion n message (r.pagesOf p) σ = some σ₁ from hu]
      exact printPages_written false (fun j hj => ⟨hpages j hj, message, if_pos hj⟩) h₁

end Pages

section Sessions
variable {r : SharedRegion} {cmds : List (Side × Command)}

/-- Every session completes, stays coherent and prints the shown texts. -/
theorem session_spec {σ : Nodes} {last : LastWrite} (hv : ∀ c ∈ cmds, r.IsCommand c.2)
    (h : Coherent r.toRegion σ last) :
    ∃ σ', session r.toRegion cmds σ = some (σ', transcriptOf r.toRegion shownText last cmds) ∧
      Coherent r.toRegion σ' (cmds.foldl (fun l c => l.record r.toRegion c.1 c.2) last) := by
  induction cmds generalizing σ last with
  | nil => exact ⟨σ, rfl, h⟩
  | cons c cs ih =>
      obtain ⟨σ₁, he, h₁⟩ := execute_coherent (n := c.1) (hv c (by simp)) h
      obtain ⟨σ₂, hs, h₂⟩ := ih (fun d hd => hv d (by simp [hd])) h₁
      exact ⟨σ₂, by simp [session, he, hs, transcriptOf], h₂⟩

/-- Coherence of every session of the two nodes, from their start. -/
theorem session_coherent (r : SharedRegion) (cmds : List (Side × Command))
    (hv : ∀ c ∈ cmds, r.IsCommand c.2) :
    ∃ σ outputs, session r.toRegion cmds (startNodes r.toRegion) = some (σ, outputs) ∧
      ∀ p, r.IsPage p →
        (∀ n, (σ n).msiArray p = .m → (σ n.other).msiArray p = .i) ∧
        (∀ n, (σ n).msiArray p ≠ .i →
          (lastWrite r.toRegion cmds p).map Prod.snd = some (r.pageText (σ n).mem p)) ∧
        (∀ n, (σ n).msiArray p = .i →
          r.Blank (σ n).mem p ∧ r.pageText (σ n).mem p = CString.empty) ∧
        ((∀ n, (σ n).msiArray p = .i) ↔ lastWrite r.toRegion cmds p = none) := by
  obtain ⟨σ, hs, h⟩ := session_spec hv (coherent_start r.toRegion)
  refine ⟨σ, _, hs, fun p hp => ?_⟩
  have hc := h p hp
  refine ⟨hc.exclusive, fun n hn => ?_, fun n hn => ?_, hc.none_iff⟩
  · obtain ⟨w, t, hl, ht⟩ := hc.held n hn
    rw [SharedRegion.pageText_eq hp ht, lastWrite, hl]
    rfl
  · exact ⟨hc.blank n hn, SharedRegion.pageText_of_blank hp (hc.blank n hn)⟩

/-- The first node writes `a` to all pages, the second reads page 1 and writes `b` to page 0. -/
def mixedSession : List (Side × Command) :=
  [(.first, .write (-1) textA), (.second, .read 1),
    (.second, .write 0 textB)]

theorem session_coherent_mixed :
    (∀ c ∈ mixedSession, twoPages.IsCommand c.2) ∧
      ∃ σ outputs, session twoPages.toRegion mixedSession (startNodes twoPages.toRegion) =
          some (σ, outputs) ∧
        ∀ p, twoPages.IsPage p →
          (∀ n, (σ n).msiArray p = .m → (σ n.other).msiArray p = .i) ∧
          (∀ n, (σ n).msiArray p ≠ .i →
            (lastWrite twoPages.toRegion mixedSession p).map Prod.snd =
              some (twoPages.pageText (σ n).mem p)) ∧
          (∀ n, (σ n).msiArray p = .i →
            twoPages.Blank (σ n).mem p ∧ twoPages.pageText (σ n).mem p = CString.empty) ∧
          ((∀ n, (σ n).msiArray p = .i) ↔ lastWrite twoPages.toRegion mixedSession p = none) :=
  ⟨by decide, session_coherent twoPages mixedSession (by decide)⟩

end Sessions

end OperatingSystems.Dsm
