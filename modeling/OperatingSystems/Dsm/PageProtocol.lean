import OperatingSystems.Dsm.Node

/-!
# The protocol of a single page

What the two nodes do to one page, without memories, texts on the wire or other
pages: each node has a state, a text and at most one pending exchange with its
peer. Texts are of any type; `null` is the answer of a node without data and
`blank` the content of a dropped page.

Two properties need a restriction on the order of steps, since the protocol has
no defence against these races. A copy cannot go stale unless an invalidation is
processed while a text for the same node is on its way, and no text is lost
unless both nodes invalidate each other at the same time.
-/
namespace OperatingSystems.Dsm.PageProtocol

variable {T : Type*}

inductive Pending (T : Type*) where
  | none
  | readRequest
  | readReply (text : T)
  | invalidateRequest
  | invalidateReply

structure Copy (T : Type*) where
  state : MsiState
  text : T
  pending : Pending T

abbrev View (T : Type*) := Side → Copy T

inductive PageAction (T : Type*) where
  | write (n : Side) (text : T)
  | fetch (n : Side)
  | serve (n : Side)
  | receive (n : Side)

/-- `serve n` is the peer's answer to the request of `n`. -/
inductive PageStep (null blank : T) (v : View T) : PageAction T → View T → Prop
  | write (n : Side) (t : T) : (v n).pending = .none →
      PageStep null blank v (.write n t) (Function.update v n ⟨.m, t, .invalidateRequest⟩)
  | fetch (n : Side) : (v n).pending = .none → (v n).state = .i →
      PageStep null blank v (.fetch n) (Function.update v n { v n with pending := .readRequest })
  | serveHeld (n : Side) : (v n).pending = .readRequest → (v n.other).state ≠ .i →
      PageStep null blank v (.serve n)
        (Function.update (Function.update v n.other { v n.other with state := .s }) n
          { v n with pending := .readReply (v n.other).text })
  | serveInvalid (n : Side) : (v n).pending = .readRequest → (v n.other).state = .i →
      PageStep null blank v (.serve n)
        (Function.update v n { v n with pending := .readReply null })
  | serveInvalidate (n : Side) : (v n).pending = .invalidateRequest →
      PageStep null blank v (.serve n)
        (Function.update (Function.update v n.other { v n.other with state := .i, text := blank })
          n { v n with pending := .invalidateReply })
  | receiveText (n : Side) (t : T) : (v n).pending = .readReply t → t ≠ null →
      PageStep null blank v (.receive n) (Function.update v n ⟨.s, t, .none⟩)
  | receiveNull (n : Side) : (v n).pending = .readReply null →
      PageStep null blank v (.receive n)
        (Function.update v n { v n with text := blank, pending := .none })
  | receiveDone (n : Side) : (v n).pending = .invalidateReply →
      PageStep null blank v (.receive n) (Function.update v n { v n with pending := .none })

/-- The peer processes an invalidation while a text for it is on the way. -/
def Overtakes (null : T) (v : View T) (a : PageAction T) : Prop :=
  ∃ n t, a = .serve n ∧ (v n).pending = .invalidateRequest ∧
    (v n.other).pending = .readReply t ∧ t ≠ null

/-- A write starts while the peer's invalidation is unprocessed. -/
def Crosses (v : View T) (a : PageAction T) : Prop :=
  ∃ n t, a = .write n t ∧ (v n.other).pending = .invalidateRequest

section
variable {null blank : T} {v v' : View T} {a : PageAction T}

/-- A property of each copy beside the peer's is a pair of facts about the copies. -/
theorem forall_side_iff (n : Side) {P : Copy T → Copy T → Prop} :
    (∀ k, P (v k) (v k.other)) ↔ P (v n) (v n.other) ∧ P (v n.other) (v n) := by
  rw [Side.forall_iff n, Side.other_other]

theorem forall_side_update {n : Side} {c : Copy T} {P : Copy T → Copy T → Prop}
    (h₁ : P c (v n.other)) (h₂ : P (v n.other) c) (k : Side) :
    P (Function.update v n c k) (Function.update v n c k.other) := by
  refine (forall_side_iff n).mpr ?_ k
  simpa only [Function.update_self, Function.update_of_ne (Side.other_ne n)] using ⟨h₁, h₂⟩

theorem forall_side_update₂ {n : Side} {c d : Copy T} {P : Copy T → Copy T → Prop}
    (h₁ : P c d) (h₂ : P d c) (k : Side) :
    P (Function.update (Function.update v n.other d) n c k)
      (Function.update (Function.update v n.other d) n c k.other) := by
  refine forall_side_update ?_ ?_ k
  · simpa only [Function.update_self] using h₁
  · simpa only [Function.update_self] using h₂

/-- What a copy `c` may rely on about the peer's copy `d`. A text on its way to `c`
is still the peer's, or the peer is about to invalidate it; the same holds of two
shared copies. -/
structure Fresh (null : T) (c d : Copy T) : Prop where
  reads : c.pending = .readRequest ∨ (∃ t, c.pending = .readReply t) → c.state = .i
  reply : ∀ t, c.pending = .readReply t → t ≠ null →
    (d.state = .s ∧ d.text = t) ∨ d.pending = .invalidateRequest
  stale : c.state = .s → d.state = .m → d.pending = .invalidateRequest
  texts : c.state = .s → d.state = .s →
    c.text = d.text ∨ c.pending = .invalidateRequest ∨ d.pending = .invalidateRequest

def NoStale (null : T) (v : View T) : Prop := ∀ n, Fresh null (v n) (v n.other)

/-- A dropped copy relies on nothing, unless a text for it is on the way. -/
theorem Fresh.of_invalid {c d : Copy T} (hi : c.state = .i)
    (hp : ∀ t, c.pending = .readReply t → t = null) : Fresh null c d where
  reads _ := hi
  reply t ht hne := absurd (hp t ht) hne
  stale hs _ := by simp [hi] at hs
  texts hs _ := by simp [hi] at hs

/-- What a copy relies on does not depend on the exchange of a peer without the page. -/
theorem Fresh.peer_invalid {c d d' : Copy T} (h : Fresh null c d) (hi : d.state = .i)
    (hp : d.pending ≠ .invalidateRequest) (hi' : d'.state = .i) : Fresh null c d' where
  reads := h.reads
  reply t ht hne := by
    rcases h.reply t ht hne with ⟨hs, -⟩ | hinv
    · simp [hi] at hs
    · exact absurd hinv hp
  stale _ hm := by simp [hi'] at hm
  texts _ hs := by simp [hi'] at hs

theorem NoStale.step (h : NoStale null v) (hg : ¬ Overtakes null v a)
    (hs : PageStep null blank v a v') : NoStale null v' := by
  have hpair := fun n => (forall_side_iff n).mp h
  cases hs with
  | write n t hp =>
      obtain ⟨h₁, h₂⟩ := hpair n
      exact forall_side_update ⟨by simp, by simp, by simp, by simp⟩
        ⟨h₂.reads, by simp, by simp, by simp⟩
  | fetch n hp hi =>
      obtain ⟨h₁, h₂⟩ := hpair n
      apply forall_side_update
      · exact .of_invalid hi (by simp)
      · exact h₂.peer_invalid hi (by simp [hp]) hi
  | serveHeld n hp ho =>
      obtain ⟨h₁, h₂⟩ := hpair n
      have hi := h₁.reads (.inl hp)
      have hn : ∀ t, (v n.other).pending ≠ .readReply t := fun t ht =>
        ho (h₂.reads (.inr ⟨t, ht⟩))
      have hr : (v n.other).pending ≠ .readRequest := fun hr => ho (h₂.reads (.inl hr))
      exact forall_side_update₂ ⟨by simp [hi], by simp, by simp [hi], by simp [hi]⟩
        ⟨by simp [hn, hr], by simp [hn], by simp [hi], by simp [hi]⟩
  | serveInvalid n hp ho =>
      obtain ⟨h₁, h₂⟩ := hpair n
      have hi := h₁.reads (.inl hp)
      apply forall_side_update
      · exact .of_invalid hi (by simp)
      · exact h₂.peer_invalid hi (by simp [hp]) hi
  | serveInvalidate n hp =>
      obtain ⟨h₁, h₂⟩ := hpair n
      -- Here the guard is needed: a text still on its way would be stored later.
      have hno : ∀ t, (v n.other).pending = .readReply t → t = null := by
        intro t ht
        by_contra hne
        exact hg ⟨n, t, rfl, hp, ht, hne⟩
      apply forall_side_update₂
      · exact ⟨by simp, by simp, by simp, by simp⟩
      · exact .of_invalid rfl hno
  | receiveText n t hp ht =>
      obtain ⟨h₁, h₂⟩ := hpair n
      have hnew := h₁.reply t hp ht
      have hi := h₁.reads (.inr ⟨t, hp⟩)
      refine forall_side_update ⟨by simp, by simp, fun _ hm => ?_, fun _ hs => ?_⟩
        ⟨h₂.reads, fun u hu hne => ?_, by simp, fun hs _ => ?_⟩
      · simpa [hm] using hnew
      · rcases hnew with ⟨-, he⟩ | hinv
        · exact .inl he.symm
        · exact .inr (.inr hinv)
      · simpa [hi, hp] using h₂.reply u hu hne
      · rcases hnew with ⟨-, he⟩ | hinv
        · exact .inl he
        · exact .inr (.inl hinv)
  | receiveNull n hp =>
      obtain ⟨h₁, h₂⟩ := hpair n
      have hi := h₁.reads (.inr ⟨null, hp⟩)
      apply forall_side_update
      · exact .of_invalid hi (by simp)
      · exact h₂.peer_invalid hi (by simp [hp]) hi
  | receiveDone n hp =>
      obtain ⟨h₁, h₂⟩ := hpair n
      refine forall_side_update ⟨by simp, by simp, h₁.stale, ?_⟩
        ⟨h₂.reads, ?_, ?_, ?_⟩
      · simpa [hp] using h₁.texts
      · simpa [hp] using h₂.reply
      · simpa [hp] using h₂.stale
      · simpa [hp] using h₂.texts

/-- A node whose invalidation of the peer is unprocessed still has its own copy, and
the peer has sent no invalidation. -/
structure Guarding (c d : Copy T) : Prop where
  holds : c.pending = .invalidateRequest → c.state ≠ .i
  alone : c.pending = .invalidateRequest → d.pending ≠ .invalidateRequest

def NoCrossing (v : View T) : Prop := ∀ n, Guarding (v n) (v n.other)

def Held (v : View T) : Prop := ∃ n, (v n).state ≠ .i

theorem NoCrossing.step (h : NoCrossing v) (hg : ¬ Crosses v a)
    (hs : PageStep null blank v a v') : NoCrossing v' := by
  have hpair := fun n => (forall_side_iff n).mp h
  cases hs with
  | write n t hp =>
      have ho : (v n.other).pending ≠ .invalidateRequest := fun ho => hg ⟨n, t, rfl, ho⟩
      exact forall_side_update ⟨by simp, by simpa using ho⟩ ⟨(hpair n).2.holds, by simp [ho]⟩
  | fetch n hp hi | serveInvalid n hp ho | receiveText n t hp ht | receiveNull n hp
  | receiveDone n hp =>
      exact forall_side_update ⟨by simp, by simp⟩ ⟨(hpair n).2.holds, by simp⟩
  | serveHeld n hp ho => exact forall_side_update₂ ⟨by simp, by simp⟩ ⟨by simp, by simp⟩
  | serveInvalidate n hp =>
      have ho := (hpair n).1.alone hp
      exact forall_side_update₂ ⟨by simp, by simp⟩ ⟨by simp [ho], by simp⟩

/-- Some node keeps the page: the one copy that a step drops is dropped for its owner. -/
theorem Held.step (h : Held v) (hc : NoCrossing v) (hs : PageStep null blank v a v') :
    Held v' := by
  obtain ⟨k, hk⟩ := h
  cases hs with
  | write n t hp | receiveText n t hp ht => exact ⟨n, by simp⟩
  | fetch n hp hi | serveInvalid n hp ho | receiveNull n hp | receiveDone n hp =>
      refine ⟨k, ?_⟩
      by_cases hkn : k = n
      · subst hkn
        simpa using hk
      · simpa [Function.update_of_ne hkn] using hk
  | serveHeld n hp ho => exact ⟨n.other, by simp⟩
  | serveInvalidate n hp => exact ⟨n, by simpa using (hc n).holds hp⟩

theorem PageStep.write_pending {n : Side} {t : T} (hs : PageStep null blank v (.write n t) v') :
    (v' n).pending = .invalidateRequest ∧ v' n.other = v n.other := by
  cases hs
  simp

end

end OperatingSystems.Dsm.PageProtocol
