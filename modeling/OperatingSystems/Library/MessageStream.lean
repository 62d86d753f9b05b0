import Mathlib.Data.List.Infix

/-!
# Messages over a byte stream

A stream keeps the order of the bytes and forgets where a message ends. The writer
appends the text of a message; the reader takes some of the bytes in flight and
decodes them as one message, or stops if they are none.

A stream is aligned while the bytes in flight are the texts of the messages not yet
received. It goes astray when the reader stops or takes a message that was not the
next one, and it never comes back.
-/
namespace OperatingSystems.Library

structure MessageStream (μ β : Type*) where
  sent : List μ
  received : List μ
  stopped : Bool
  inFlight : List β
deriving DecidableEq

namespace MessageStream
variable {μ β : Type*} {text : μ → List β} {decode : List β → Option μ}
  {s : MessageStream μ β} {m : μ} {n : ℕ}

def empty : MessageStream μ β := ⟨[], [], false, []⟩

def send (text : μ → List β) (s : MessageStream μ β) (m : μ) : MessageStream μ β :=
  { s with sent := s.sent ++ [m], inFlight := s.inFlight ++ text m }

def read (decode : List β → Option μ) (s : MessageStream μ β) (n : ℕ) : MessageStream μ β :=
  match decode (s.inFlight.take n) with
  | some m => { s with received := s.received ++ [m], inFlight := s.inFlight.drop n }
  | none => { s with stopped := true, inFlight := s.inFlight.drop n }

/-- The messages that were sent after those received. -/
def pending (s : MessageStream μ β) : List μ := s.sent.drop s.received.length

/-- The reader has got what was sent, in order, and everything once nothing is in flight. -/
structure Faithful (s : MessageStream μ β) : Prop where
  running : s.stopped = false
  inOrder : s.received <+: s.sent
  drained : s.inFlight = [] → s.received = s.sent

/-- A read of `n` bytes takes the text of the next message and nothing else. -/
def TakesOne (text : μ → List β) (s : MessageStream μ β) (n : ℕ) : Prop :=
  ∃ m rest, s.pending = m :: rest ∧ n = (text m).length

structure Aligned (text : μ → List β) (s : MessageStream μ β) : Prop where
  running : s.stopped = false
  inOrder : s.received <+: s.sent
  bytes : s.inFlight = s.pending.flatMap text

def Astray (s : MessageStream μ β) : Prop :=
  s.stopped = true ∨ ¬s.received <+: s.sent ∧ ¬s.sent <+: s.received

theorem aligned_empty (text : μ → List β) : (empty : MessageStream μ β).Aligned text :=
  ⟨rfl, List.prefix_refl _, rfl⟩

theorem Aligned.sent_eq (h : s.Aligned text) : s.received ++ s.pending = s.sent := by
  obtain ⟨rest, hrest⟩ := h.inOrder
  rw [pending, ← hrest, List.drop_left]

theorem Aligned.faithful (h : s.Aligned text) (hne : ∀ m ∈ s.pending, text m ≠ []) :
    s.Faithful := by
  refine ⟨h.running, h.inOrder, fun hempty => ?_⟩
  have hpending : s.pending = [] := by
    refine List.eq_nil_iff_forall_not_mem.mpr fun m hm => hne m hm ?_
    rw [h.bytes, List.flatMap_eq_nil_iff] at hempty
    exact hempty m hm
  rw [← h.sent_eq, hpending, List.append_nil]

theorem Astray.not_faithful (h : s.Astray) : ¬s.Faithful := by
  intro hf
  rcases h with hstop | hapart
  · exact absurd (hf.running.symm.trans hstop) (by decide)
  · exact hapart.1 hf.inOrder

theorem Aligned.pending_send (h : s.Aligned text) (m : μ) :
    (s.send text m).pending = s.pending ++ [m] := by
  rw [pending, pending, send, List.drop_append_of_le_length h.inOrder.length_le]

theorem Aligned.send (h : s.Aligned text) (m : μ) : (s.send text m).Aligned text := by
  refine ⟨h.running, h.inOrder.trans (List.prefix_append _ _), ?_⟩
  rw [h.pending_send, List.flatMap_append, ← h.bytes]
  simp [MessageStream.send]

/-- What a read of one whole message does, where its text is decoded rightly. -/
theorem read_takesOne {rest : List μ} (h : s.Aligned text) (hpending : s.pending = m :: rest)
    (hdecode : decode (text m) = some m) :
    s.read decode (text m).length =
      { s with received := s.received ++ [m], inFlight := rest.flatMap text } := by
  have hbytes : s.inFlight = text m ++ rest.flatMap text := by
    rw [h.bytes, hpending, List.flatMap_cons]
  rw [read, hbytes, List.take_left, List.drop_left, hdecode]

theorem Aligned.read {rest : List μ} (h : s.Aligned text) (hpending : s.pending = m :: rest)
    (hdecode : decode (text m) = some m) :
    (s.read decode (text m).length).Aligned text ∧
      (s.read decode (text m).length).pending = rest := by
  have hsent := h.sent_eq
  rw [hpending] at hsent
  have hrest : s.sent.drop (s.received ++ [m]).length = rest := by
    rw [← hsent, List.append_cons s.received m rest, List.drop_left]
  rw [read_takesOne h hpending hdecode]
  refine ⟨⟨h.running, ⟨rest, ?_⟩, ?_⟩, hrest⟩
  · rw [← hsent, List.append_cons s.received m rest]
  · rw [pending, hrest]

/-- A read that does not decode to the next message leads astray. -/
theorem Aligned.astray_read {rest : List μ} (h : s.Aligned text) (hpending : s.pending = m :: rest)
    (hdecode : decode (s.inFlight.take n) ≠ some m) : (s.read decode n).Astray := by
  have hsent := h.sent_eq
  rw [hpending] at hsent
  unfold MessageStream.read
  cases hd : decode (s.inFlight.take n) with
  | none => exact .inl rfl
  | some m' =>
      have hne : m' ≠ m := fun he => hdecode (he ▸ hd)
      refine .inr ⟨fun hp => ?_, fun hp => ?_⟩
      · rw [← hsent, List.prefix_append_right_inj, List.cons_prefix_cons] at hp
        exact hne hp.1
      · rw [← hsent, List.prefix_append_right_inj, List.cons_prefix_cons] at hp
        exact hne hp.1.symm

theorem Astray.send (h : s.Astray) (m : μ) : (s.send text m).Astray := by
  rcases h with hstop | ⟨hr, hs⟩
  · exact .inl hstop
  · refine .inr ⟨fun hp => ?_, fun hp => hs ((List.prefix_append _ _).trans hp)⟩
    rcases List.prefix_concat_iff.mp hp with he | hp
    · exact hs (he ▸ List.prefix_append _ _)
    · exact hr hp

theorem Astray.read (h : s.Astray) (n : ℕ) : (s.read decode n).Astray := by
  unfold MessageStream.read
  rcases h with hstop | ⟨hr, hs⟩
  · cases decode (s.inFlight.take n) with
    | none => exact .inl rfl
    | some m => exact .inl hstop
  · cases decode (s.inFlight.take n) with
    | none => exact .inl rfl
    | some m =>
        refine .inr ⟨fun hp => hr ((List.prefix_append _ _).trans hp), fun hp => ?_⟩
        rcases List.prefix_concat_iff.mp hp with he | hp
        · exact hr (he ▸ List.prefix_append _ _)
        · exact hs hp

end MessageStream

end OperatingSystems.Library
