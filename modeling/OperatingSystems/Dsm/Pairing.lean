import OperatingSystems.Dsm.Node
import OperatingSystems.Library.GuardedRun

/-!
# Pairing of two processes

Both processes run the same program with swapped ports: listen, try to connect to the
other, accept its connection, connect again if the first attempt failed, and then ask
for the number of pages or read the handshake. A process takes itself for the first
one if its first attempt failed.

An attempt succeeds if the other process listens; the connection then waits in the
other's backlog. A step is one of these calls; `accept` and the `read` of the
handshake wait until there is something to take.
-/
namespace OperatingSystems.Dsm
open Library

/-- The next call of a process. -/
inductive Stage where
  | starting | connecting | accepting | reconnecting | paired | running
deriving DecidableEq, Repr

def Stage.rank : Stage → ℕ
  | .starting => 0
  | .connecting => 1
  | .accepting => 2
  | .reconnecting => 3
  | .paired => 4
  | .running => 5

theorem Stage.rank_le (st : Stage) : st.rank ≤ 5 := by cases st <;> decide

theorem Stage.rank_injective : Function.Injective Stage.rank := by
  intro a b h
  cases a <;> cases b <;> first | rfl | cases h

/-- `remoteConnected` and `newConnected` tell about `remote_socket` and `new_socket`;
`handshakes` counts those on their way to the process. -/
structure Process where
  stage : Stage
  firstConnectionFailed : Bool
  remoteConnected : Bool
  newConnected : Bool
  backlog : ℕ
  handshakes : ℕ
deriving DecidableEq, Repr

namespace Process

def start : Process := ⟨.starting, false, false, false, 0, 0⟩

abbrev rank (p : Process) : ℕ := p.stage.rank

def Listening (p : Process) : Prop := p.stage ≠ .starting

instance (p : Process) : Decidable p.Listening := inferInstanceAs (Decidable (_ ≠ _))

/-- One call of the process `p`, with what it does to its peer `q`. -/
def call (p q : Process) : Option (Process × Process) :=
  match p.stage with
  | .starting => some ({ p with stage := .connecting }, q)
  | .connecting =>
      if q.Listening then
        some ({ p with stage := .accepting, remoteConnected := true },
          { q with backlog := q.backlog + 1 })
      else some ({ p with stage := .accepting, firstConnectionFailed := true }, q)
  | .accepting =>
      if 0 < p.backlog then
        some ({ p with stage := .reconnecting, newConnected := true, backlog := p.backlog - 1 }, q)
      else none
  | .reconnecting =>
      if p.firstConnectionFailed = true ∧ q.Listening then
        some ({ p with stage := .paired, remoteConnected := true },
          { q with backlog := q.backlog + 1 })
      else some ({ p with stage := .paired }, q)
  | .paired =>
      if p.firstConnectionFailed = true then
        some ({ p with stage := .running },
          if p.remoteConnected = true then { q with handshakes := q.handshakes + 1 } else q)
      else if 0 < p.handshakes then
        some ({ p with stage := .running, handshakes := p.handshakes - 1 }, q)
      else none
  | .running => none

/-- The process is at the branch on `first_connection_failed`, or past it. -/
def Chosen (p : Process) : Prop := 4 ≤ p.rank

/-- The process is blocked in the `read` of a handshake. -/
def Waiting (p : Process) : Prop :=
  p.stage = .paired ∧ p.firstConnectionFailed = false ∧ p.handshakes = 0

end Process

abbrev Pair := Side → Process

def startPair : Pair := fun _ => .start

/-- Process `n` makes its next call. -/
def Pair.step (s : Pair) (n : Side) : Option Pair :=
  (Process.call (s n) (s n.other)).map fun r =>
    Function.update (Function.update s n r.1) n.other r.2

/-- Exactly one process asks for the pages, once both have come so far. -/
structure Pair.Elected (s : Pair) : Prop where
  initiator : (∀ n, (s n).Chosen) → ∃ n, (s n).firstConnectionFailed = true ∧
    (s n.other).firstConnectionFailed = false
  connected : ∀ n, (s n).Chosen → (s n).remoteConnected = true ∧ (s n).newConnected = true
  notWaiting : ¬∀ n, (s n).Waiting

/-- Process `n` does not start to listen while the other one is about to connect. -/
def Pair.InTurn (s : Pair) (n : Side) : Prop :=
  (s n).stage = .starting → (s n.other).stage ≠ .connecting

instance (s : Pair) (n : Side) : Decidable (s.InTurn n) := inferInstanceAs (Decidable (_ → _))

namespace Process
variable {p q p' q' : Process}

/-- The handshakes that `p` has sent and has read. -/
def asks (p : Process) : ℕ := if p.rank = 5 ∧ p.firstConnectionFailed = true then 1 else 0
def reads (p : Process) : ℕ := if p.rank = 5 ∧ p.firstConnectionFailed = false then 1 else 0

/-- The sockets of a process follow from how far it has come. -/
structure Sockets (p : Process) : Prop where
  failed : p.firstConnectionFailed = true → 2 ≤ p.rank
  remote : p.remoteConnected = true ↔ 2 ≤ p.rank ∧ (p.firstConnectionFailed = false ∨ 4 ≤ p.rank)
  new : p.newConnected = true ↔ 3 ≤ p.rank

/-- Connections and handshakes of `q` are on their way to `p` or have been taken. -/
structure Wired (p q : Process) : Prop extends Sockets p where
  connections : p.backlog + p.newConnected.toNat = q.remoteConnected.toNat
  handshakes : p.handshakes + p.reads = q.asks

theorem wired_start : Wired start start :=
  ⟨⟨by decide, by decide, by decide⟩, rfl, rfl⟩

theorem listening_iff : q.Listening ↔ 1 ≤ q.rank := by
  unfold Listening rank
  cases q.stage <;> decide

/-- Whoever has accepted a connection has a peer that listens. -/
theorem Wired.listening (h : Wired p q) (k : Wired q p) (hrank : 3 ≤ p.rank) : q.Listening := by
  have hone := h.connections
  rw [h.new.mpr hrank, Bool.toNat_true] at hone
  have hremote : q.remoteConnected = true := by
    by_contra hno
    rw [Bool.eq_false_iff.mpr hno, Bool.toNat_false] at hone
    omega
  have htwo := (k.remote.mp hremote).1
  exact listening_iff.mpr (by omega)

theorem Wired.backlog_pos (h : Wired p q) (hrank : p.rank < 3) (hq : q.remoteConnected = true) :
    0 < p.backlog := by
  have hone := h.connections
  have hnew : p.newConnected = false := by
    rw [Bool.eq_false_iff, ne_eq, h.new]
    omega
  rw [hnew, hq, Bool.toNat_false, Bool.toNat_true] at hone
  omega

/-- What a call does where the connections are as they should be. -/
inductive Called (p q : Process) : Process → Process → Prop
  | listen (hs : p.stage = .starting) : Called p q { p with stage := .connecting } q
  | connect (hs : p.stage = .connecting) (hq : 1 ≤ q.rank) :
      Called p q { p with stage := .accepting, remoteConnected := true }
        { q with backlog := q.backlog + 1 }
  | refused (hs : p.stage = .connecting) (hq : q.rank = 0) :
      Called p q { p with stage := .accepting, firstConnectionFailed := true } q
  | accept (hs : p.stage = .accepting) (hb : 0 < p.backlog) :
      Called p q
        { p with stage := .reconnecting, newConnected := true, backlog := p.backlog - 1 } q
  | reconnect (hs : p.stage = .reconnecting) (hf : p.firstConnectionFailed = true) :
      Called p q { p with stage := .paired, remoteConnected := true }
        { q with backlog := q.backlog + 1 }
  | stay (hs : p.stage = .reconnecting) (hf : p.firstConnectionFailed = false) :
      Called p q { p with stage := .paired } q
  | ask (hs : p.stage = .paired) (hf : p.firstConnectionFailed = true) :
      Called p q { p with stage := .running } { q with handshakes := q.handshakes + 1 }
  | read (hs : p.stage = .paired) (hf : p.firstConnectionFailed = false) (hh : 0 < p.handshakes) :
      Called p q { p with stage := .running, handshakes := p.handshakes - 1 } q

theorem Wired.called (h : Wired p q) (k : Wired q p) (hcall : p.call q = some (p', q')) :
    Called p q p' q' := by
  unfold Process.call at hcall
  cases hs : p.stage with
  | starting =>
      simp only [hs] at hcall
      obtain ⟨rfl, rfl⟩ := Prod.mk.inj (Option.some.inj hcall)
      exact .listen hs
  | connecting =>
      simp only [hs] at hcall
      split_ifs at hcall with hq
      · obtain ⟨rfl, rfl⟩ := Prod.mk.inj (Option.some.inj hcall)
        exact .connect hs (listening_iff.mp hq)
      · obtain ⟨rfl, rfl⟩ := Prod.mk.inj (Option.some.inj hcall)
        exact .refused hs (by rw [listening_iff] at hq; omega)
  | accepting =>
      simp only [hs] at hcall
      split_ifs at hcall with hb
      obtain ⟨rfl, rfl⟩ := Prod.mk.inj (Option.some.inj hcall)
      exact .accept hs hb
  | reconnecting =>
      have hq : q.Listening := h.listening k (by rw [rank, hs]; decide)
      simp only [hs, hq, and_true] at hcall
      split_ifs at hcall with hf
      · obtain ⟨rfl, rfl⟩ := Prod.mk.inj (Option.some.inj hcall)
        exact .reconnect hs hf
      · obtain ⟨rfl, rfl⟩ := Prod.mk.inj (Option.some.inj hcall)
        exact .stay hs (Bool.eq_false_iff.mpr hf)
  | paired =>
      have hfour : p.rank = 4 := by rw [rank, hs]; rfl
      have hremote : p.remoteConnected = true := h.remote.mpr ⟨by omega, .inr (by omega)⟩
      simp only [hs, if_pos hremote] at hcall
      split_ifs at hcall with hf hh
      · obtain ⟨rfl, rfl⟩ := Prod.mk.inj (Option.some.inj hcall)
        exact .ask hs hf
      · obtain ⟨rfl, rfl⟩ := Prod.mk.inj (Option.some.inj hcall)
        exact .read hs (Bool.eq_false_iff.mpr hf) hh
  | running =>
      simp only [hs, reduceCtorEq] at hcall

theorem Called.rank_eq (h : Called p q p' q') : p'.rank = p.rank + 1 ∧ q'.rank = q.rank := by
  cases h <;> simp_all [Process.rank, Stage.rank]

/-- Only a refused first attempt sets the flag. -/
theorem Called.failed_eq (h : Called p q p' q') :
    q'.firstConnectionFailed = q.firstConnectionFailed ∧
      (p'.firstConnectionFailed = true ↔
        p.firstConnectionFailed = true ∨ p.rank = 1 ∧ q.rank = 0) := by
  cases h <;> simp_all [Process.rank, Stage.rank]
  omega

theorem Called.sockets (h : Called p q p' q') (hp : Sockets p) : Sockets p' := by
  obtain ⟨hfailed, hremote, hnew⟩ := hp
  cases h <;> constructor <;> simp_all [Process.rank, Stage.rank]

/-- A connection of `p` goes to the backlog of `q`; what `p` accepts leaves its own. -/
theorem Called.connections (h : Called p q p' q') (hp : Sockets p) :
    p'.backlog + p'.newConnected.toNat = p.backlog + p.newConnected.toNat ∧
      q'.backlog + p.remoteConnected.toNat = q.backlog + p'.remoteConnected.toNat ∧
      q'.newConnected = q.newConnected ∧ q'.remoteConnected = q.remoteConnected := by
  have hremote : p.rank = 1 ∨ p.rank = 3 ∧ p.firstConnectionFailed = true →
      p.remoteConnected = false := fun hrank => by
    rw [Bool.eq_false_iff, ne_eq, hp.remote]
    rintro ⟨htwo, hno | hfour⟩
    · rcases hrank with hone | ⟨-, hyes⟩
      · omega
      · exact Bool.false_ne_true (hno.symm.trans hyes)
    · omega
  cases h with
  | listen hs => exact ⟨rfl, rfl, rfl, rfl⟩
  | connect hs hq =>
      have hno := hremote (.inl (by rw [rank, hs]; rfl))
      exact ⟨rfl, by rw [hno, Bool.toNat_false, Bool.toNat_true], rfl, rfl⟩
  | refused hs hq => exact ⟨rfl, rfl, rfl, rfl⟩
  | accept hs hb =>
      have hno : p.newConnected = false := by
        rw [Bool.eq_false_iff, ne_eq, hp.new, rank, hs]
        decide
      have hone : p.backlog - 1 + 1 = p.backlog := by omega
      exact ⟨by rw [hno, Bool.toNat_false, Bool.toNat_true, hone, Nat.add_zero], rfl, rfl, rfl⟩
  | reconnect hs hf =>
      have hno := hremote (.inr ⟨by rw [rank, hs]; rfl, hf⟩)
      exact ⟨rfl, by rw [hno, Bool.toNat_false, Bool.toNat_true], rfl, rfl⟩
  | stay hs hf => exact ⟨rfl, rfl, rfl, rfl⟩
  | ask hs hf => exact ⟨rfl, rfl, rfl, rfl⟩
  | read hs hf hh => exact ⟨rfl, rfl, rfl, rfl⟩

/-- A handshake of `p` is on its way to `q`; what `p` reads was on its way to `p`. -/
theorem Called.handshakes (h : Called p q p' q') :
    p'.handshakes + p'.reads = p.handshakes + p.reads ∧
      q'.handshakes + p.asks = q.handshakes + p'.asks ∧
      q'.reads = q.reads ∧ q'.asks = q.asks := by
  cases h <;> simp_all [reads, asks, Process.rank, Stage.rank]
  omega

theorem Wired.call (h : Wired p q) (k : Wired q p) (hcall : Called p q p' q') :
    Wired p' q' ∧ Wired q' p' := by
  obtain ⟨htaken, hmade, hnew, hremote⟩ := hcall.connections h.toSockets
  obtain ⟨hread, hasked, hreads, hasks⟩ := hcall.handshakes
  have hconnections := h.connections
  have hconnections' := k.connections
  have hhandshakes := h.handshakes
  have hhandshakes' := k.handshakes
  have hq : Sockets q' := by
    obtain ⟨hfailed, -⟩ := hcall.failed_eq
    obtain ⟨-, hrank⟩ := hcall.rank_eq
    refine ⟨?_, ?_, ?_⟩
    · rw [hfailed, hrank]
      exact k.failed
    · rw [hremote, hfailed, hrank]
      exact k.remote
    · rw [hnew, hrank]
      exact k.new
  refine ⟨⟨hcall.sockets h.toSockets, ?_, ?_⟩, ⟨hq, ?_, ?_⟩⟩
  · rw [htaken, hremote, hconnections]
  · rw [hread, hasks, hhandshakes]
  · rw [hnew]
    omega
  · rw [hreads]
    omega

/-- `p` is the only one whose first attempt fails, and the other does not listen before. -/
structure Leads (p q : Process) : Prop where
  follower : q.firstConnectionFailed = false
  failed : p.firstConnectionFailed = true ↔ 2 ≤ p.rank
  earlier : 1 ≤ q.rank → 2 ≤ p.rank

theorem leads_start : Leads start start := by
  constructor <;> decide

theorem Leads.call (h : Leads p q) (hcall : Called p q p' q') : Leads p' q' := by
  obtain ⟨hrank, hrank'⟩ := hcall.rank_eq
  obtain ⟨hfollower, hfailed⟩ := hcall.failed_eq
  refine ⟨hfollower.trans h.follower, ?_, fun hq => ?_⟩
  · -- before its attempt the leader is alone
    have halone : p.rank = 1 → q.rank = 0 := fun hp => by
      by_contra hq
      exact absurd (h.earlier (by omega)) (by omega)
    rw [hfailed, h.failed, hrank]
    omega
  · have hp := h.earlier (by omega)
    omega

theorem Leads.peerCall (h : Leads p q) (hcall : Called q p q' p')
    (hturn : q.rank = 0 → 2 ≤ p.rank) : Leads p' q' := by
  obtain ⟨hrank, hrank'⟩ := hcall.rank_eq
  obtain ⟨hsame, hfollower⟩ := hcall.failed_eq
  refine ⟨?_, ?_, fun _ => ?_⟩
  · rw [Bool.eq_false_iff, ne_eq, hfollower, h.follower]
    rintro (hf | ⟨hq, hp⟩)
    · exact Bool.false_ne_true hf
    · exact absurd (h.earlier (by omega)) (by omega)
  · rw [hsame, hrank', h.failed]
  · rw [hrank']
    by_cases hq : q.rank = 0
    · exact hturn hq
    · exact h.earlier (by omega)

/-- Before anyone listens either process may still become the leader. -/
theorem Leads.swap (h : Leads p q) (hp : p.rank = 0) : Leads q p := by
  have hq : q.rank = 0 := by
    by_contra hq
    exact absurd (h.earlier (by omega)) (by omega)
  refine ⟨?_, ?_, fun hone => absurd hone (by omega)⟩
  · rw [Bool.eq_false_iff, ne_eq, h.failed]
    omega
  · rw [h.follower]
    exact ⟨fun hf => absurd hf Bool.false_ne_true, fun htwo => absurd htwo (by omega)⟩

theorem call_eq_none_iff : p.call q = none ↔
    p.stage = .accepting ∧ p.backlog = 0 ∨ p.Waiting ∨ p.stage = .running := by
  unfold Process.call Waiting
  cases hs : p.stage with
  | starting => simp
  | connecting =>
      simp only [reduceCtorEq, false_and, or_false, iff_false]
      split_ifs <;> exact not_false
  | accepting => simp
  | reconnecting =>
      simp only [reduceCtorEq, false_and, or_false, iff_false]
      split_ifs <;> exact not_false
  | paired => cases hf : p.firstConnectionFailed <;> simp
  | running => simp

end Process

namespace Pair
variable {s t u : Pair} {n : Side} {as bs : List Side}
open Process

theorem step_spec (h : s.step n = some t) :
    Process.call (s n) (s n.other) = some (t n, t n.other) := by
  obtain ⟨r, hr, rfl⟩ := Option.map_eq_some_iff.mp h
  rw [hr, Function.update_self, Function.update_of_ne (Side.ne_other n), Function.update_self]

theorem step_eq_none : s.step n = none ↔ Process.call (s n) (s n.other) = none :=
  Option.map_eq_none_iff

theorem wired_step (h : ∀ k, Wired (s k) (s k.other)) (hstep : s.step n = some t) :
    Called (s n) (s n.other) (t n) (t n.other) ∧ ∀ k, Wired (t k) (t k.other) := by
  have hn := h n
  have ho := h n.other
  rw [Side.other_other] at ho
  have hcalled := hn.called ho (step_spec hstep)
  have hwired := hn.call ho hcalled
  refine ⟨hcalled, (Side.forall_iff n).mpr ⟨hwired.1, ?_⟩⟩
  rw [Side.other_other]
  exact hwired.2

/-- A call in turn keeps the leader, or makes one. -/
theorem leads_step (hn : InTurn s n) (hcalled : Called (s n) (s n.other) (t n) (t n.other))
    (h : ∃ k, Leads (s k) (s k.other)) : ∃ k, Leads (t k) (t k.other) := by
  obtain ⟨k, hk⟩ := h
  rcases Side.eq_or_other n k with rfl | rfl
  · exact ⟨k, hk.call hcalled⟩
  · rw [Side.other_other] at hk
    by_cases hzero : (s n.other).rank = 0
    · exact ⟨n, (hk.swap hzero).call hcalled⟩
    · refine ⟨n.other, ?_⟩
      rw [Side.other_other]
      refine hk.peerCall hcalled fun hq => ?_
      have hone : (s n.other).rank ≠ 1 := fun h =>
        hn (Stage.rank_injective hq) (Stage.rank_injective h)
      omega

/-- What holds in every state of a run whose listens are in turn. -/
structure Led (as : List Side) (s : Pair) : Prop where
  wired : ∀ n, Wired (s n) (s n.other)
  leader : ∃ n, Leads (s n) (s n.other)
  length : as.length = (s .first).rank + (s .second).rank

theorem led_run (h : GuardedRun step InTurn startPair as s) : Led as s := by
  refine h.invariant ⟨fun _ => wired_start, ⟨.first, leads_start⟩, rfl⟩ ?_
  intro as s n t hs hturn hstep
  obtain ⟨hcalled, hwired⟩ := wired_step hs.wired hstep
  obtain ⟨hrank, hrank'⟩ := hcalled.rank_eq
  refine ⟨hwired, leads_step hturn hcalled hs.leader, ?_⟩
  have hlength := hs.length
  rw [List.length_append, List.length_singleton]
  cases n <;> simp only [Side.other] at hrank hrank' <;> omega

theorem Led.elected (h : Led as s) : s.Elected := by
  obtain ⟨n, hn⟩ := h.leader
  refine ⟨fun hall => ⟨n, hn.failed.mpr ?_, hn.follower⟩, fun k hk => ⟨?_, ?_⟩, fun hall => ?_⟩
  · have hchosen : 4 ≤ (s n).rank := hall n
    omega
  · exact (h.wired k).remote.mpr ⟨by have : 4 ≤ (s k).rank := hk; omega, .inr hk⟩
  · exact (h.wired k).new.mpr (by have : 4 ≤ (s k).rank := hk; omega)
  · obtain ⟨hstage, hno, -⟩ := hall n
    have hyes : (s n).firstConnectionFailed = true := hn.failed.mpr (by rw [rank, hstage]; decide)
    exact Bool.false_ne_true (hno.symm.trans hyes)

/-- Nobody is stuck: as long as a process is not done, some process can go on in turn. -/
theorem Led.progress (h : Led as s) :
    (∀ n, (s n).stage = .running) ∨ ∃ n, s.InTurn n ∧ s.step n ≠ none := by
  obtain ⟨n, hn⟩ := h.leader
  by_cases hp : Process.call (s n) (s n.other) = none
  · -- the leader is blocked or done, so the other process can go on
    have hw := h.wired n
    have hq := h.wired n.other
    rw [Side.other_other] at hq
    rcases call_eq_none_iff.mp hp with ⟨hs, hb⟩ | hwait | hs
    · have hrank : (s n).rank = 2 := by rw [rank, hs]; rfl
      have hless : ¬2 ≤ (s n.other).rank := by
        intro htwo
        have hpending := hw.backlog_pos (by omega) (hq.remote.mpr ⟨htwo, .inl hn.follower⟩)
        omega
      refine .inr ⟨n.other, fun _ => by rw [Side.other_other, hs]; decide, fun hnone => ?_⟩
      rw [step_eq_none, call_eq_none_iff] at hnone
      rcases hnone with ⟨hs', -⟩ | ⟨hs', -, -⟩ | hs'
      all_goals exact hless (by rw [rank, hs']; decide)
    · have hyes : (s n).firstConnectionFailed = true :=
        hn.failed.mpr (by rw [rank, hwait.1]; decide)
      exact absurd (hwait.2.1.symm.trans hyes) Bool.false_ne_true
    · have hrank : (s n).rank = 5 := by rw [rank, hs]; rfl
      have hyes : (s n).firstConnectionFailed = true := hn.failed.mpr (by omega)
      by_cases hp' : s.step n.other = none
      · rw [step_eq_none, Side.other_other, call_eq_none_iff] at hp'
        rcases hp' with ⟨hs', hb'⟩ | ⟨hs', -, hh'⟩ | hs'
        · have hpending := hq.backlog_pos (by rw [rank, hs']; decide)
            (hw.remote.mpr ⟨by omega, .inr (by omega)⟩)
          omega
        · have hone := hq.handshakes
          rw [hh', reads, if_neg fun hlast => absurd hlast.1 (by rw [rank, hs']; decide),
            asks, if_pos ⟨hrank, hyes⟩] at hone
          exact absurd hone (by decide)
        · exact .inl ((Side.forall_iff n).mpr ⟨hs, hs'⟩)
      · exact .inr ⟨n.other, fun _ => by rw [Side.other_other, hs]; decide, hp'⟩
  · refine .inr ⟨n, fun hs hother => ?_, fun hnone => hp (step_eq_none.mp hnone)⟩
    have htwo : 2 ≤ (s n).rank := hn.earlier (by rw [rank, hother]; decide)
    rw [rank, hs] at htwo
    exact absurd htwo (by decide)

/-- Both attempts succeed, or will. -/
def Raced (s : Pair) : Prop := ∀ n, 1 ≤ (s n).rank ∧ (s n).firstConnectionFailed = false

theorem raced_start (hw : ∀ k, Wired (s k) (s k.other)) (hturn : ¬s.InTurn n)
    (hstep : s.step n = some t) : t.Raced := by
  obtain ⟨hcalled, -⟩ := wired_step hw hstep
  simp only [InTurn, Classical.not_imp, not_not] at hturn
  have hzero : (s n).rank = 0 := by rw [rank, hturn.1]; rfl
  have hone : (s n.other).rank = 1 := by rw [rank, hturn.2]; rfl
  have hno : ∀ k, (s k).rank < 2 → (s k).firstConnectionFailed = false := fun k hk => by
    rw [Bool.eq_false_iff]
    exact fun hf => absurd ((hw k).failed hf) (by omega)
  obtain ⟨hrank, hrank'⟩ := hcalled.rank_eq
  obtain ⟨hsame, hfailed⟩ := hcalled.failed_eq
  refine (Side.forall_iff n).mpr ⟨⟨by omega, ?_⟩, ⟨by omega, ?_⟩⟩
  · rw [Bool.eq_false_iff, ne_eq, hfailed, hno n (by omega)]
    rintro (hf | ⟨hone', -⟩)
    · exact Bool.false_ne_true hf
    · omega
  · rw [hsame, hno _ (by omega)]

theorem Raced.step (h : s.Raced) (hw : ∀ k, Wired (s k) (s k.other))
    (hstep : s.step n = some t) : t.Raced := by
  obtain ⟨hcalled, -⟩ := wired_step hw hstep
  obtain ⟨hrank, hrank'⟩ := hcalled.rank_eq
  obtain ⟨hsame, hfailed⟩ := hcalled.failed_eq
  refine (Side.forall_iff n).mpr ⟨⟨by omega, ?_⟩, ⟨by have := (h n.other).1; omega, ?_⟩⟩
  · rw [Bool.eq_false_iff, ne_eq, hfailed, (h n).2]
    rintro (hf | ⟨-, hzero⟩)
    · exact Bool.false_ne_true hf
    · exact absurd (h n.other).1 (by omega)
  · rw [hsame, (h n.other).2]

/-- A race ends with both processes waiting for a handshake that nobody sends. -/
theorem Raced.deadlock (h : s.Raced) (hw : ∀ k, Wired (s k) (s k.other))
    (hend : ∀ k, s.step k = none) : ∀ k, (s k).Waiting := by
  have hblocked := fun k => call_eq_none_iff.mp (step_eq_none.mp (hend k))
  intro k
  have hpeer := h k.other
  rcases hblocked k with ⟨hs, hb⟩ | hwait | hs
  · have hconnected : (s k.other).remoteConnected = true := by
      refine (hw k.other).remote.mpr ⟨?_, .inl hpeer.2⟩
      by_contra hless
      have hrank : (s k.other).rank = 1 := by omega
      rcases hblocked k.other with ⟨hs', -⟩ | ⟨hs', -, -⟩ | hs'
      all_goals
        rw [rank, hs'] at hrank
        exact absurd hrank (by decide)
    have hpending := (hw k).backlog_pos (by rw [rank, hs]; decide) hconnected
    omega
  · exact hwait
  · have hnone := (hw k).handshakes
    rw [reads, if_pos ⟨by rw [rank, hs]; rfl, (h k).2⟩, asks,
      if_neg fun hyes => Bool.false_ne_true (hpeer.2.symm.trans hyes.2)] at hnone
    omega

theorem wired_run (h : runActions step startPair as = some s) : ∀ k, Wired (s k) (s k.other) := by
  have hrun : GuardedRun step (fun _ _ => True) startPair as s :=
    .of_prefixes h fun _ _ _ _ _ => trivial
  exact hrun.invariant (fun _ => wired_start) fun _ _ _ _ hs _ hstep => (wired_step hs hstep).2

/-- After one listen out of turn every run that goes on to its end is a deadlock. -/
theorem listen_outOfTurn_deadlocks (h : runActions step startPair as = some s)
    (hturn : ¬s.InTurn n) (hstep : s.step n = some t) (hrest : runActions step t bs = some u)
    (hend : ∀ k, u.step k = none) : ∀ k, (u k).Waiting := by
  have hw := wired_run h
  have hguarded : GuardedRun step (fun _ _ => True) t bs u :=
    .of_prefixes hrest fun _ _ _ _ _ => trivial
  have hraced := hguarded.invariant
    (I := fun _ s => (∀ k, Wired (s k) (s k.other)) ∧ s.Raced)
    ⟨(wired_step hw hstep).2, raced_start hw hturn hstep⟩
    fun _ s n t hs _ hstep => ⟨(wired_step hs.1 hstep).2, hs.2.step hs.1 hstep⟩
  exact hraced.2.deadlock hraced.1 hend

/-- After the second process listens out of turn. -/
def crossedCalls : List Side := [.first, .second, .first, .second, .first, .second]

theorem listen_outOfTurn_deadlocks_crossedCalls :
    ∃ s t u, runActions step startPair [.first] = some s ∧ s.step .second = some t ∧
      runActions step t crossedCalls = some u ∧ ∀ k, (u k).Waiting := by
  have hrun : ∃ s ∈ runActions step startPair [.first], ¬s.InTurn .second ∧
      ∃ t ∈ s.step .second, ∃ u ∈ runActions step t crossedCalls,
        ∀ k, (u.step k).isNone := by
    decide +kernel
  obtain ⟨s, hs, hturn, t, ht, u, hu, hend⟩ := hrun
  have hlast := fun k => Option.isNone_iff_eq_none.mp (hend k)
  exact ⟨s, t, u, hs, ht, hu, listen_outOfTurn_deadlocks hs hturn ht hu hlast⟩

end Pair

/-- If no process starts to listen between the other's listen and its first attempt,
the run elects one initiator, gets stuck nowhere and ends after ten calls. -/
theorem pairing_elects {as : List Side} {s : Pair}
    (h : GuardedRun Pair.step Pair.InTurn startPair as s) :
    s.Elected ∧ as.length ≤ 10 ∧
      ((∀ n, (s n).stage = .running) ∨ ∃ n, s.InTurn n ∧ s.step n ≠ none) := by
  have hled := Pair.led_run h
  have hlength := hled.length
  have hfirst : (s .first).rank ≤ 5 := Stage.rank_le _
  have hsecond : (s .second).rank ≤ 5 := Stage.rank_le _
  exact ⟨hled.elected, by omega, hled.progress⟩

/-- The first process connects before the second one listens. -/
def inTurnRun : List Side :=
  [.first, .first, .second, .second, .first, .first, .first, .second, .second, .second]

theorem pairing_elects_inTurnRun :
    ∃ s, runActions Pair.step startPair inTurnRun = some s ∧ s.Elected ∧ inTurnRun.length ≤ 10 ∧
      ((∀ n, (s n).stage = .running) ∨ ∃ n, s.InTurn n ∧ s.step n ≠ none) := by
  have hrun : (runActions (guardedStep Pair.step Pair.InTurn) startPair inTurnRun).isSome := by
    decide +kernel
  obtain ⟨s, hs⟩ := Option.isSome_iff_exists.mp hrun
  have hguarded := GuardedRun.of_runActions hs
  exact ⟨s, hguarded.runActions, pairing_elects hguarded⟩

/-- Both listen, both connect, both accept, and both read. -/
def racedRun : List Side :=
  [.first, .second, .first, .second, .first, .second, .first, .second]

theorem racedRun_bothWait :
    ¬∀ (as : List Side) (s : Pair), runActions Pair.step startPair as = some s → s.Elected := by
  intro h
  have hrun : (runActions Pair.step startPair racedRun).map (fun s => (s .first, s .second)) =
      some (⟨.paired, false, true, true, 0, 0⟩, ⟨.paired, false, true, true, 0, 0⟩) := by
    decide +kernel
  obtain ⟨s, hs, hstates⟩ := Option.map_eq_some_iff.mp hrun
  obtain ⟨hfirst, hsecond⟩ := Prod.mk.inj hstates
  refine (h racedRun s hs).notWaiting fun n => ?_
  cases n with
  | first => rw [hfirst]; exact ⟨rfl, rfl, rfl⟩
  | second => rw [hsecond]; exact ⟨rfl, rfl, rfl⟩

end OperatingSystems.Dsm
