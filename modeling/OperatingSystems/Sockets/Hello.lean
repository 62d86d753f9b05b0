import OperatingSystems.Library.GuardedRun
import OperatingSystems.Library.Scanf

/-!
# Two greetings over a connection

`server.c` waits for a connection and a key, reads, prints what it has read and sends its
greeting. `client.c` connects, waits for a key, sends its greeting, reads and prints. Each
reads once and sends once: a read takes some of the bytes that are under way, at most 1024,
and returns 0 when the peer is gone and nothing is left.

A step is one call of one of the programs, and `n` is what it returns if it is a `read`.
The calls other than `connect` succeed. A connection is refused unless the server listens.
-/
namespace OperatingSystems.Sockets
open Library

def readSize : ℕ := 1024

/-- `Hello from client` -/
def helloFromClient : List UInt8 :=
  [72, 101, 108, 108, 111, 32, 102, 114, 111, 109, 32, 99, 108, 105, 101, 110, 116]

/-- `Hello from server` -/
def helloFromServer : List UInt8 :=
  [72, 101, 108, 108, 111, 32, 102, 114, 111, 109, 32, 115, 101, 114, 118, 101, 114]

/-- The next call of the server. -/
inductive ServerStage where
  | listening | accepting | pausing | reading | sending | done
deriving DecidableEq

/-- The next call of the client. -/
inductive ClientStage where
  | connecting | pausing | sending | reading | done | refused
deriving DecidableEq

inductive Party where
  | server | client
deriving DecidableEq

/-- The bytes under way to each of the two, and what each has printed of the other's. -/
structure Meeting where
  server : ServerStage
  client : ClientStage
  pending : Bool
  toServer : List UInt8
  toClient : List UInt8
  serverPrinted : Option CString
  clientPrinted : Option CString

def Meeting.start : Meeting := ⟨.listening, .connecting, false, [], [], none, none⟩

/-- The bytes that a `read` returns, and those that stay. -/
def readFrom (peerGone : Bool) (n : ℕ) (bytes : List UInt8) : Option (List UInt8 × List UInt8) :=
  if 0 < n ∧ n ≤ bytes.length ∧ n ≤ readSize then some (bytes.take n, bytes.drop n)
  else if n = 0 ∧ bytes = [] ∧ peerGone = true then some ([], [])
  else none

def Meeting.serverCall (m : Meeting) (n : ℕ) : Option Meeting :=
  match m.server with
  | .listening => some { m with server := .accepting }
  | .accepting =>
      if m.pending = true then some { m with server := .pausing, pending := false } else none
  | .pausing => some { m with server := .reading }
  | .reading => (readFrom (m.client = .done) n m.toServer).map fun r =>
      { m with
        server := .sending, toServer := r.2, serverPrinted := some (CString.ofBytes r.1) }
  | .sending => some { m with server := .done, toClient := m.toClient ++ helloFromServer }
  | .done => none

def Meeting.clientCall (m : Meeting) (n : ℕ) : Option Meeting :=
  match m.client with
  | .connecting =>
      if m.server = .listening ∨ m.server = .done then some { m with client := .refused }
      else some { m with client := .pausing, pending := true }
  | .pausing => some { m with client := .sending }
  | .sending => some { m with client := .reading, toServer := m.toServer ++ helloFromClient }
  | .reading => (readFrom (m.server = .done) n m.toClient).map fun r =>
      { m with
        client := .done, toClient := r.2, clientPrinted := some (CString.ofBytes r.1) }
  | .done => none
  | .refused => none

def Meeting.step (m : Meeting) (a : Party × ℕ) : Option Meeting :=
  match a.1 with
  | .server => m.serverCall a.2
  | .client => m.clientCall a.2

def ServerStage.rank : ServerStage → ℕ
  | .listening => 0
  | .accepting => 1
  | .pausing => 2
  | .reading => 3
  | .sending => 4
  | .done => 5

/-- The calls that the client has made. -/
def ClientStage.rank : ClientStage → ℕ
  | .connecting => 0
  | .refused => 1
  | .pausing => 1
  | .sending => 2
  | .reading => 3
  | .done => 4

/-- What has been printed is the start of a greeting, at least one byte of it. -/
def Greets (greeting : List UInt8) (printed : Option CString) : Prop :=
  ∃ k, 0 < k ∧ k ≤ greeting.length ∧ printed = some (CString.ofBytes (greeting.take k))

/-- Neither can be ahead of what it needs from the other. -/
structure Meeting.Sound (m : Meeting) : Prop where
  listens : m.client ≠ .connecting → m.client ≠ .refused → 1 ≤ m.server.rank
  accepted : 2 ≤ m.server.rank → 1 ≤ m.client.rank ∧ m.client ≠ .refused
  pending : m.pending = true ↔ 1 ≤ m.client.rank ∧ m.client ≠ .refused ∧ m.server.rank ≤ 1
  toServer : m.server.rank ≤ 3 → m.toServer = if 3 ≤ m.client.rank then helloFromClient else []
  served : 4 ≤ m.server.rank → 3 ≤ m.client.rank ∧ Greets helloFromClient m.serverPrinted
  unserved : m.server.rank ≤ 3 → m.serverPrinted = none
  toClient : m.client.rank ≤ 3 → m.toClient = if m.server.rank = 5 then helloFromServer else []
  answered : m.client.rank = 4 → m.server.rank = 5 ∧ Greets helloFromServer m.clientPrinted
  unanswered : m.client.rank ≤ 3 → m.clientPrinted = none

section Calls
variable {m t : Meeting} {n : ℕ}

theorem readFrom_greeting {greeting bytes rest : List UInt8} {gone : Bool}
    (hne : greeting ≠ []) (h : readFrom gone n greeting = some (bytes, rest)) :
    Greets greeting (some (CString.ofBytes bytes)) := by
  unfold readFrom at h
  split_ifs at h with htake hend
  · obtain ⟨rfl, -⟩ := Prod.mk.inj (Option.some.inj h)
    exact ⟨n, htake.1, htake.2.1, rfl⟩
  · exact absurd hend.2.1 hne

theorem readFrom_nil : readFrom false n [] = none := by
  rw [readFrom, if_neg (fun h => absurd h.2.1 (Nat.not_le.mpr h.1)),
    if_neg (fun h => Bool.false_ne_true h.2.2)]

theorem ServerStage.rank_le (st : ServerStage) : st.rank ≤ 5 := by cases st <;> decide

theorem ClientStage.rank_le (st : ClientStage) : st.rank ≤ 4 := by cases st <;> decide

theorem ClientStage.rank_eq_four {st : ClientStage} : st.rank = 4 ↔ st = .done := by
  cases st <;> decide

theorem ServerStage.rank_eq_five {st : ServerStage} : st.rank = 5 ↔ st = .done := by
  cases st <;> decide

theorem ServerStage.rank_eq_zero {st : ServerStage} : st.rank = 0 ↔ st = .listening := by
  cases st <;> decide

/-- The server reads what the client has sent. -/
theorem Meeting.Sound.greeted {r : List UInt8 × List UInt8} (h : m.Sound)
    (hs : m.server = .reading) (hr : readFrom (m.client = .done) n m.toServer = some r) :
    3 ≤ m.client.rank ∧ Greets helloFromClient (some (CString.ofBytes r.1)) := by
  have hrank : m.server.rank = 3 := by rw [hs]; rfl
  have hbytes := h.toServer (by omega)
  have hnotDone : m.client ≠ .done := by
    intro hdone
    have hanswered := h.answered (ClientStage.rank_eq_four.mpr hdone)
    omega
  rw [decide_eq_false hnotDone, hbytes] at hr
  split_ifs at hr with hsent
  · exact ⟨hsent, readFrom_greeting (by decide) hr⟩
  · rw [readFrom_nil] at hr
    cases hr

/-- The client reads what the server has sent before it was gone. -/
theorem Meeting.Sound.answeredBy {r : List UInt8 × List UInt8} (h : m.Sound)
    (hs : m.client = .reading) (hr : readFrom (m.server = .done) n m.toClient = some r) :
    m.server.rank = 5 ∧ Greets helloFromServer (some (CString.ofBytes r.1)) := by
  have hrank : m.client.rank = 3 := by rw [hs]; rfl
  have hbytes := h.toClient (by omega)
  rw [hbytes] at hr
  split_ifs at hr with hsent
  · exact ⟨hsent, readFrom_greeting (by decide) hr⟩
  · have hnotDone : m.server ≠ .done := fun hdone => hsent (ServerStage.rank_eq_five.mpr hdone)
    rw [decide_eq_false hnotDone, readFrom_nil] at hr
    cases hr

theorem Meeting.Sound.serverCall (h : m.Sound) (hcall : m.serverCall n = some t) :
    t.Sound ∧ t.server.rank = m.server.rank + 1 ∧ t.client = m.client := by
  have hgreeted := fun r => h.greeted (n := n) (r := r)
  obtain ⟨hlistens, haccepted, hpending, hto, hserved, hunserved, hto', hans, hunans⟩ := h
  unfold Meeting.serverCall at hcall
  cases hs : m.server with
  | listening =>
      simp only [hs] at hcall
      obtain rfl := Option.some.inj hcall
      refine ⟨?_, rfl, rfl⟩
      constructor <;> simp_all [ServerStage.rank]
  | accepting =>
      simp only [hs] at hcall
      split_ifs at hcall with hp
      obtain rfl := Option.some.inj hcall
      refine ⟨?_, rfl, rfl⟩
      constructor <;> simp_all [ServerStage.rank]
  | pausing =>
      simp only [hs] at hcall
      obtain rfl := Option.some.inj hcall
      refine ⟨?_, rfl, rfl⟩
      constructor <;> simp_all [ServerStage.rank]
  | reading =>
      simp only [hs] at hcall
      obtain ⟨r, hr, rfl⟩ := Option.map_eq_some_iff.mp hcall
      obtain ⟨hsent, hgreets⟩ := hgreeted r hs hr
      refine ⟨?_, rfl, rfl⟩
      clear hr
      constructor <;> simp_all [ServerStage.rank]
  | sending =>
      simp only [hs] at hcall
      obtain rfl := Option.some.inj hcall
      refine ⟨?_, rfl, rfl⟩
      constructor <;> simp_all [ServerStage.rank]
  | done =>
      simp only [hs] at hcall
      cases hcall

theorem Meeting.Sound.clientCall (h : m.Sound) (hcall : m.clientCall n = some t) :
    t.Sound ∧ t.client.rank = m.client.rank + 1 ∧ t.server = m.server := by
  have hanswered := fun r => h.answeredBy (n := n) (r := r)
  obtain ⟨hlistens, haccepted, hpending, hto, hserved, hunserved, hto', hans, hunans⟩ := h
  unfold Meeting.clientCall at hcall
  cases hs : m.client with
  | connecting =>
      simp only [hs] at hcall
      split_ifs at hcall with hp
      · obtain rfl := Option.some.inj hcall
        refine ⟨?_, rfl, rfl⟩
        constructor <;> simp_all [ClientStage.rank]
      · obtain rfl := Option.some.inj hcall
        have hone : m.server.rank = 1 := by
          have hless : ¬ 2 ≤ m.server.rank := fun h => absurd (haccepted h).1 (by rw [hs]; decide)
          have hzero : m.server.rank ≠ 0 := fun h => hp (.inl (ServerStage.rank_eq_zero.mp h))
          omega
        refine ⟨?_, rfl, rfl⟩
        constructor <;> simp_all [ClientStage.rank]
  | pausing =>
      simp only [hs] at hcall
      obtain rfl := Option.some.inj hcall
      refine ⟨?_, rfl, rfl⟩
      constructor <;> simp_all [ClientStage.rank]
  | sending =>
      simp only [hs] at hcall
      obtain rfl := Option.some.inj hcall
      refine ⟨?_, rfl, rfl⟩
      constructor <;> simp_all [ClientStage.rank]
  | reading =>
      simp only [hs] at hcall
      obtain ⟨r, hr, rfl⟩ := Option.map_eq_some_iff.mp hcall
      obtain ⟨hsent, hgreets⟩ := hanswered r hs hr
      refine ⟨?_, rfl, rfl⟩
      clear hr
      constructor <;> simp_all [ClientStage.rank]
  | done =>
      simp only [hs] at hcall
      cases hcall
  | refused =>
      simp only [hs] at hcall
      cases hcall

end Calls

section Runs
variable {m t : Meeting} {as : List (Party × ℕ)}

/-- What holds in every state of a run. Only a client whose call is the first one is refused. -/
structure Reached (as : List (Party × ℕ)) (m : Meeting) : Prop where
  sound : m.Sound
  length : as.length = m.server.rank + m.client.rank
  refused : m.client = .refused ↔ as.head?.map Prod.fst = some .client

theorem sound_start : Meeting.start.Sound := by
  constructor <;> simp [Meeting.start, ServerStage.rank, ClientStage.rank]

theorem ClientStage.rank_eq_zero {st : ClientStage} : st.rank = 0 ↔ st = .connecting := by
  cases st <;> decide

/-- A client that calls after the server is not refused. -/
theorem Meeting.Sound.clientCall_refused {n : ℕ} (h : m.Sound)
    (hcall : m.clientCall n = some t) :
    t.client = .refused ↔ m.server.rank + m.client.rank = 0 := by
  unfold Meeting.clientCall at hcall
  cases hs : m.client with
  | connecting =>
      simp only [hs] at hcall
      split_ifs at hcall with hp
      · obtain rfl := Option.some.inj hcall
        apply iff_of_true rfl
        rcases hp with hp | hp
        · rw [hp]
          rfl
        · have hserved := (h.served (by rw [hp]; decide)).1
          rw [hs] at hserved
          exact absurd hserved (by decide)
      · obtain rfl := Option.some.inj hcall
        have hzero : m.server.rank ≠ 0 := fun h => hp (.inl (ServerStage.rank_eq_zero.mp h))
        exact iff_of_false (by simp) (by omega)
  | pausing =>
      simp only [hs] at hcall
      obtain rfl := Option.some.inj hcall
      exact iff_of_false (by simp) (Nat.succ_ne_zero _)
  | sending =>
      simp only [hs] at hcall
      obtain rfl := Option.some.inj hcall
      exact iff_of_false (by simp) (Nat.succ_ne_zero _)
  | reading =>
      simp only [hs] at hcall
      obtain ⟨r, -, rfl⟩ := Option.map_eq_some_iff.mp hcall
      exact iff_of_false (by simp) (Nat.succ_ne_zero _)
  | done =>
      simp only [hs] at hcall
      cases hcall
  | refused =>
      simp only [hs] at hcall
      cases hcall

theorem Reached.step {a : Party × ℕ} (h : Reached as m) (hstep : m.step a = some t) :
    Reached (as ++ [a]) t := by
  obtain ⟨who, n⟩ := a
  have hlength := h.length
  cases who with
  | server =>
      obtain ⟨hsound, hrank, hclient⟩ := h.sound.serverCall hstep
      refine ⟨hsound, ?_, ?_⟩
      · rw [List.length_append, List.length_singleton, hrank, hclient]
        omega
      · rw [hclient, h.refused]
        cases as with
        | nil => simp
        | cons b as => rfl
  | client =>
      obtain ⟨hsound, hrank, hserver⟩ := h.sound.clientCall hstep
      refine ⟨hsound, ?_, ?_⟩
      · rw [List.length_append, List.length_singleton, hrank, hserver]
        omega
      · rw [h.sound.clientCall_refused hstep, ← hlength]
        cases as with
        | nil => simp
        | cons b as =>
            have hnot : m.client ≠ .refused := by
              intro hrefused
              rw [Meeting.step, Meeting.clientCall, hrefused] at hstep
              cases hstep
            rw [ne_eq, h.refused] at hnot
            exact iff_of_false (Nat.succ_ne_zero _) hnot

theorem reached_run (h : runActions Meeting.step .start as = some m) : Reached as m := by
  have hrun : GuardedRun Meeting.step (fun _ _ => True) .start as m :=
    .of_prefixes h fun _ _ _ _ _ => trivial
  exact hrun.invariant ⟨sound_start, rfl, by decide⟩ fun _ _ _ _ hs _ hstep => hs.step hstep

/-- Both are done, and each has printed some of the other's greeting. -/
structure Meeting.Greeted (m : Meeting) : Prop where
  server : m.server = .done
  client : m.client = .done
  serverPrinted : Greets helloFromClient m.serverPrinted
  clientPrinted : Greets helloFromServer m.clientPrinted

/-- The client was refused, and the server goes on waiting. -/
structure Meeting.Unmet (m : Meeting) : Prop where
  server : m.server = .accepting
  client : m.client = .refused
  printed : m.serverPrinted = none ∧ m.clientPrinted = none

theorem readFrom_one {b : UInt8} {bytes : List UInt8} {gone : Bool} :
    readFrom gone 1 (b :: bytes) = some ([b], bytes) :=
  if_pos ⟨Nat.one_pos, Nat.le_add_left 1 bytes.length, by decide⟩

/-- The server waits only for a connection and for what the client has not sent yet. -/
theorem Meeting.Sound.serverWaits (h : m.Sound) (hwait : ∀ n, m.serverCall n = none) :
    m.server = .accepting ∧ m.pending = false ∨ m.server = .reading ∧ m.client.rank ≤ 2 ∨
      m.server = .done := by
  have hnone := hwait 1
  unfold Meeting.serverCall at hnone
  cases hs : m.server with
  | listening => simp [hs] at hnone
  | accepting => simpa [hs] using hnone
  | pausing => simp [hs] at hnone
  | reading =>
      have hbytes := h.toServer (by rw [hs]; decide)
      by_cases hsent : 3 ≤ m.client.rank
      · rw [if_pos hsent] at hbytes
        simp [hs, hbytes, helloFromClient, readFrom_one] at hnone
      · exact .inr (.inl ⟨rfl, by omega⟩)
  | sending => simp [hs] at hnone
  | done => exact .inr (.inr rfl)

/-- The client waits only for what the server has not sent yet. -/
theorem Meeting.Sound.clientWaits (h : m.Sound) (hwait : ∀ n, m.clientCall n = none) :
    m.client = .reading ∧ m.server.rank ≤ 4 ∨ m.client = .done ∨ m.client = .refused := by
  have hnone := hwait 1
  unfold Meeting.clientCall at hnone
  cases hs : m.client with
  | connecting =>
      simp only [hs] at hnone
      split_ifs at hnone
  | pausing => simp [hs] at hnone
  | sending => simp [hs] at hnone
  | reading =>
      have hbytes := h.toClient (by rw [hs]; decide)
      by_cases hsent : m.server.rank = 5
      · rw [if_pos hsent] at hbytes
        simp [hs, hbytes, helloFromServer, readFrom_one] at hnone
      · have hle := m.server.rank_le
        exact .inl ⟨rfl, by omega⟩
  | done => exact .inr (.inl rfl)
  | refused => exact .inr (.inr rfl)

/-- Nobody waits for ever, but for a server whose only client has been refused. -/
theorem Meeting.Sound.ended (h : m.Sound) (hwait : ∀ a, m.step a = none) :
    m.Greeted ∨ m.Unmet := by
  have hclient := h.clientWaits fun n => hwait (.client, n)
  rcases h.serverWaits fun n => hwait (.server, n) with ⟨hs, hp⟩ | ⟨hs, hrank⟩ | hs
  · right
    have hone : m.server.rank = 1 := by rw [hs]; rfl
    have hnot : ¬ (1 ≤ m.client.rank ∧ m.client ≠ .refused) := fun hc =>
      Bool.false_ne_true (hp.symm.trans (h.pending.mpr ⟨hc.1, hc.2, hone.le⟩))
    have hrefused : m.client = .refused := by
      rcases hclient with ⟨hc, -⟩ | hc | hc
      · exact absurd (by rw [hc]; decide) hnot
      · exact absurd (by rw [hc]; decide) hnot
      · exact hc
    refine ⟨hs, hrefused, h.unserved (by omega), h.unanswered ?_⟩
    rw [hrefused]
    decide
  · have hmet := h.accepted (by rw [hs]; decide)
    rcases hclient with ⟨hc, -⟩ | hc | hc
    · rw [hc] at hrank
      exact absurd hrank (by decide)
    · rw [hc] at hrank
      exact absurd hrank (by decide)
    · exact absurd hc hmet.2
  · left
    have hfive : m.server.rank = 5 := by rw [hs]; rfl
    have hmet := h.accepted (by omega)
    have hdone : m.client = .done := by
      rcases hclient with ⟨-, hrank⟩ | hc | hc
      · omega
      · exact hc
      · exact absurd hc hmet.2
    exact ⟨hs, hdone, (h.served (by omega)).2, (h.answered (by rw [hdone]; rfl)).2⟩

end Runs

/-- However the calls of the two interleave and whatever the reads return, the run ends after
nine calls at most: each has printed at least the start of the other's greeting, unless the
client's first call comes before the server listens. -/
theorem greetings_exchanged {as : List (Party × ℕ)} {m : Meeting}
    (h : runActions Meeting.step .start as = some m) :
    as.length ≤ 9 ∧ ((∃ a, m.step a ≠ none) ∨
      (if as.head?.map Prod.fst = some .client then m.Unmet else m.Greeted)) := by
  have hreached := reached_run h
  have hlength := hreached.length
  have hserver := m.server.rank_le
  have hclient := m.client.rank_le
  refine ⟨by omega, ?_⟩
  by_cases hgo : ∃ a, m.step a ≠ none
  · exact .inl hgo
  · right
    push Not at hgo
    rcases hreached.sound.ended hgo with hgreeted | hunmet
    · have hnot : m.client ≠ .refused := by
        rw [hgreeted.client]
        decide
      rwa [if_neg (mt hreached.refused.mpr hnot)]
    · rwa [if_pos (hreached.refused.mp hunmet.client)]

/-- The client reads the greeting of the server only in part. -/
theorem greetings_exchanged_short :
    ∃ m, runActions Meeting.step .start [(.server, 0), (.client, 0), (.client, 0), (.client, 0),
        (.server, 0), (.server, 0), (.server, 17), (.server, 0), (.client, 5)] = some m ∧
      m.Greeted := by
  obtain ⟨m, hm, hend⟩ : ∃ m ∈ runActions Meeting.step .start [(.server, 0), (.client, 0),
      (.client, 0), (.client, 0), (.server, 0), (.server, 0), (.server, 17), (.server, 0),
      (.client, 5)], m.server = .done ∧ m.client = .done := by decide +kernel
  refine ⟨m, hm, ?_⟩
  rcases (greetings_exchanged hm).2 with ⟨⟨who, n⟩, hsome⟩ | hgreeted
  · cases who with
    | server => exact absurd (by rw [Meeting.step, Meeting.serverCall, hend.1]) hsome
    | client => exact absurd (by rw [Meeting.step, Meeting.clientCall, hend.2]) hsome
  · exact hgreeted

end OperatingSystems.Sockets
