import OperatingSystems.Dsm.Handshake
import OperatingSystems.Dsm.Pairing

/-!
# From the start to the shared region

The calls of the pairing with what they carry. The process whose first attempt failed
asks for the number of pages, maps them and sends the handshake. The other one reads it,
takes the length and the address out of it and maps as many bytes, with the address as a
hint for `mmap`, which need not follow it.

A text is read as it was sent, and no request is sent before both processes have their
region. A process whose `mmap` fails or whose tokens are missing is gone; what its peer
does then is not modelled.
-/
namespace OperatingSystems.Dsm
open Library

/-- `mmap` of a process for a hint and a length, and what its user would type. The hint is
`none` where no address was stored. -/
structure Machine where
  pageSize : ℕ
  mmap : Side → Option UInt64 → UInt64 → UInt64
  numPages : Side → UInt64

structure Starter where
  process : Process
  inbox : List CString
  region : Option Mapping
  gone : Bool

abbrev Starters := Side → Starter

section Code
variable (machine : Machine) (n : Side)

/-- `first_connection_failed`: the new processes are those of the pairing. -/
def Starter.ask (p q : Starter) (p' q' : Process) : Starter × Starter :=
  match askPages (machine.mmap n (some 0)) machine.pageSize (machine.numPages n) with
  | none => ({ p with gone := true }, q)
  | some (mapping, text) =>
      ({ p with process := p', region := some mapping },
        { q with
          process := q'
          inbox := if p.process.remoteConnected = true then q.inbox ++ [text] else q.inbox })

/-- The other branch. -/
def Starter.answer (p q : Starter) (p' q' : Process) : Option (Starter × Starter) :=
  match p.inbox with
  | [] => none
  | text :: inbox =>
      match readHandshake machine.pageSize (text.bytes.take handshakeSize) with
      | none => some ({ p with gone := true }, q)
      | some mapping =>
          let addr := machine.mmap n mapping.addr mapping.len
          if addr = mapFailed then some ({ p with gone := true }, q)
          else some ({ p with
              process := p', inbox := inbox, region := some { mapping with addr := some addr } },
            { q with process := q' })

def Starter.call (p q : Starter) : Option (Starter × Starter) :=
  if p.gone then none
  else (p.process.call q.process).bind fun r =>
    if p.process.stage = .paired then
      if p.process.firstConnectionFailed = true then some (Starter.ask machine n p q r.1 r.2)
      else Starter.answer machine n p q r.1 r.2
    else some ({ p with process := r.1 }, { q with process := r.2 })

def Starters.step (s : Starters) (n : Side) : Option Starters :=
  (Starter.call machine n (s n) (s n.other)).map fun r =>
    Function.update (Function.update s n r.1) n.other r.2

end Code

def startUp : Starters := fun _ => ⟨.start, [], none, false⟩

/-- The processes without what they know. -/
def Starters.pair (s : Starters) : Pair := fun n => (s n).process

def Starters.InTurn (s : Starters) (n : Side) : Prop := s.pair.InTurn n

instance (s : Starters) (n : Side) : Decidable (s.InTurn n) :=
  inferInstanceAs (Decidable (s.pair.InTurn n))

namespace Machine
variable (machine : Machine) (n : Side)

def length : UInt64 := machine.numPages n * UInt64.ofNat machine.pageSize

/-- The region of a process that asks its user. -/
def asked : Mapping :=
  ⟨machine.length n, some (machine.mmap n (some 0) (machine.length n)), machine.numPages n⟩

/-- The region of a process whose peer asks. -/
def copied : Mapping :=
  { machine.asked n.other with
    addr := some (machine.mmap n (machine.asked n.other).addr (machine.length n.other)) }

def text : CString :=
  (handshakeText (machine.length n) (machine.mmap n (some 0) (machine.length n))).take
    (buffSize - 1)

/-- Whoever asks gets the region that is typed, and so does its peer. -/
structure Roomy : Prop where
  pageSize_pos : 0 < machine.pageSize
  pageSize_lt : machine.pageSize < 2 ^ 31
  fits : ∀ n, (machine.numPages n).toNat * machine.pageSize < 2 ^ 64
  empty : ∀ n, machine.mmap n (some 0) 0 = mapFailed
  mapped : ∀ n, machine.mmap n (some 0) (machine.length n) ≠ mapFailed
  notNull : ∀ n, machine.mmap n (some 0) (machine.length n) ≠ 0
  shared : ∀ n, (machine.copied n).addr ≠ some mapFailed

variable {machine}

theorem Roomy.toNat_length (h : machine.Roomy) (n : Side) :
    (machine.length n).toNat = (machine.numPages n).toNat * machine.pageSize := by
  rw [length, Dsm.toNat_length h.pageSize_lt, Nat.mod_eq_of_lt (h.fits n)]

theorem Roomy.length_div (h : machine.Roomy) (n : Side) :
    machine.length n / UInt64.ofNat machine.pageSize = machine.numPages n := by
  have hsize : machine.pageSize % 2 ^ 64 = machine.pageSize :=
    Nat.mod_eq_of_lt (h.pageSize_lt.trans (by decide))
  rw [← UInt64.toNat_inj, UInt64.toNat_div, h.toNat_length, UInt64.toNat_ofNat', hsize,
    Nat.mul_div_cancel _ h.pageSize_pos]

theorem Roomy.askPages_eq (h : machine.Roomy) (n : Side) :
    askPages (machine.mmap n (some 0)) machine.pageSize (machine.numPages n) =
      some (machine.asked n, machine.text n) :=
  if_neg (h.mapped n)

theorem Roomy.readHandshake_text (h : machine.Roomy) (n : Side) :
    readHandshake machine.pageSize ((machine.text n).bytes.take handshakeSize) =
      some (machine.asked n) := by
  obtain ⟨text, hask, hread⟩ := readHandshake_askPages (h.empty n) (h.mapped n) (h.notNull n)
  rw [h.askPages_eq n] at hask
  obtain ⟨-, rfl⟩ := Prod.mk.inj (Option.some.inj hask)
  rw [hread]
  exact congrArg (fun pages => some (Mapping.mk _ _ pages)) (h.length_div n)

end Machine

/-- What a process knows follows from how far it has come. -/
structure Starter.Informed (machine : Machine) (n : Side) (p : Starter) : Prop where
  present : p.gone = false
  inbox : p.inbox = List.replicate p.process.handshakes (machine.text n.other)
  region : p.region =
    if p.process.rank < 5 then none
    else if p.process.firstConnectionFailed = true then some (machine.asked n)
    else some (machine.copied n)

theorem Process.Called.unpaired {p q p' q' : Process} (h : Process.Called p q p' q')
    (hs : p.stage ≠ .paired) :
    p'.handshakes = p.handshakes ∧ q'.handshakes = q.handshakes ∧ p.rank < 5 ∧ p'.rank < 5 := by
  cases h <;> simp_all [Process.rank, Stage.rank]

section Calls
variable {machine : Machine} {n : Side} {p q : Starter} {p' q' : Process}
open Process

/-- What is known about a process that a call of its peer does not reach, but for a text that
the peer has sent. -/
theorem Starter.Informed.reached (h : q.Informed machine n)
    (hcalled : Called p.process q.process p' q') {inbox : List CString}
    (hinbox : inbox = List.replicate q'.handshakes (machine.text n.other)) :
    Starter.Informed machine n { q with process := q', inbox := inbox } := by
  obtain ⟨-, hrank⟩ := hcalled.rank_eq
  obtain ⟨hflag, -⟩ := hcalled.failed_eq
  refine ⟨h.present, hinbox, ?_⟩
  dsimp only
  rw [hrank, hflag, h.region]

theorem Starter.ask_eq (hm : machine.Roomy) (hremote : p.process.remoteConnected = true) :
    Starter.ask machine n p q p' q' =
      ({ p with process := p', region := some (machine.asked n) },
        { q with process := q', inbox := q.inbox ++ [machine.text n] }) := by
  rw [Starter.ask, hm.askPages_eq]
  dsimp only
  rw [if_pos hremote]

theorem Starter.answer_eq (hm : machine.Roomy) {inbox : List CString}
    (hinbox : p.inbox = machine.text n.other :: inbox) :
    Starter.answer machine n p q p' q' = some
      ({ p with process := p', inbox := inbox, region := some (machine.copied n) },
        { q with process := q' }) := by
  have hshared : machine.mmap n (machine.asked n.other).addr (machine.length n.other) ≠
      mapFailed := fun h => hm.shared n (congrArg some h)
  rw [Starter.answer, hinbox]
  dsimp only
  rw [hm.readHandshake_text]
  exact if_neg hshared

/-- A call of the pairing is one of the processes with what they know. -/
theorem Starter.call_of_called (hm : machine.Roomy) (hp : p.Informed machine n)
    (hq : q.Informed machine n.other) (hw : Wired p.process q.process)
    (hcall : p.process.call q.process = some (p', q'))
    (hcalled : Called p.process q.process p' q') :
    ∃ r, Starter.call machine n p q = some r ∧ r.1.process = p' ∧ r.2.process = q' ∧
      r.1.Informed machine n ∧ r.2.Informed machine n.other := by
  rw [Starter.call, if_neg (by rw [hp.present]; decide), hcall, Option.bind_some]
  by_cases hs : p.process.stage = .paired
  · have hrank : p.process.rank = 4 := by rw [rank, hs]; rfl
    have hremote := hw.remote.mpr ⟨by omega, .inr (by omega)⟩
    rw [if_pos hs]
    cases hcalled with
    | ask _ hf =>
        rw [if_pos hf, Starter.ask_eq hm hremote]
        refine ⟨_, rfl, rfl, rfl, ⟨hp.present, hp.inbox, ?_⟩, hq.reached (.ask hs hf) ?_⟩
        · exact (if_pos hf).symm
        · rw [hq.inbox, Side.other_other, List.replicate_succ']
    | read _ hf hh =>
        obtain ⟨k, hk⟩ := Nat.exists_eq_succ_of_ne_zero (Nat.ne_of_gt hh)
        have hinbox := hp.inbox
        rw [hk, List.replicate_succ] at hinbox
        rw [if_neg (by rw [hf]; decide), Starter.answer_eq hm hinbox]
        refine ⟨_, rfl, rfl, rfl, ⟨hp.present, ?_, ?_⟩, hq.reached (.read hs hf hh) hq.inbox⟩
        · dsimp only
          rw [hk, Nat.succ_sub_one]
        · dsimp only
          rw [hf]
          rfl
    | listen h => rw [hs] at h; cases h
    | connect h _ => rw [hs] at h; cases h
    | refused h _ => rw [hs] at h; cases h
    | accept h _ => rw [hs] at h; cases h
    | reconnect h _ => rw [hs] at h; cases h
    | stay h _ => rw [hs] at h; cases h
  · obtain ⟨hhand, hhand', hrank, hrank'⟩ := hcalled.unpaired hs
    rw [if_neg hs]
    refine ⟨_, rfl, rfl, rfl, ⟨hp.present, ?_, ?_⟩, hq.reached hcalled ?_⟩
    · dsimp only
      rw [hhand]
      exact hp.inbox
    · dsimp only
      rw [hp.region, if_pos hrank, if_pos hrank']
    · rw [hhand']
      exact hq.inbox

end Calls

namespace Starters
variable {machine : Machine} {s t : Starters} {n : Side} {as : List Side}
open Process

/-- What holds in every state of a run whose listens are in turn. -/
structure Known (machine : Machine) (as : List Side) (s : Starters) : Prop where
  run : GuardedRun Pair.step Pair.InTurn startPair as s.pair
  informed : ∀ n, (s n).Informed machine n

/-- The pairing's call is a call of the processes with what they know. -/
theorem Known.step_of_pair (h : Known machine as s) (hm : machine.Roomy) (hturn : s.InTurn n)
    {u : Pair} (hu : s.pair.step n = some u) :
    ∃ t, s.step machine n = some t ∧ Known machine (as ++ [n]) t := by
  have hled := Pair.led_run h.run
  obtain ⟨hcalled, -⟩ := Pair.wired_step hled.wired hu
  obtain ⟨r, hr, hp, hq, hn, ho⟩ := Starter.call_of_called hm (h.informed n) (h.informed n.other)
    (hled.wired n) (Pair.step_spec hu) hcalled
  let t : Starters := Function.update (Function.update s n r.1) n.other r.2
  have htn : t n = r.1 :=
    (Function.update_of_ne (Side.ne_other n) _ _).trans (Function.update_self _ _ _)
  have hto : t n.other = r.2 := Function.update_self _ _ _
  have hpair : t.pair = u := by
    refine funext ((Side.forall_iff n).mpr ⟨?_, ?_⟩)
    · rw [Starters.pair, htn, hp]
    · rw [Starters.pair, hto, hq]
  refine ⟨t, ?_, ?_, ?_⟩
  · rw [Starters.step, hr]
    rfl
  · rw [hpair]
    exact h.run.step hturn hu
  · exact (Side.forall_iff n).mpr ⟨by rw [htn]; exact hn, by rw [hto]; exact ho⟩

theorem pair_step_of_step (h : s.step machine n = some t) : s.pair.step n ≠ none := by
  intro hnone
  have hcall : (s n).process.call (s n.other).process = none := Pair.step_eq_none.mp hnone
  obtain ⟨r, hr, -⟩ := Option.map_eq_some_iff.mp h
  rw [Starter.call, hcall, Option.bind_none, ite_self] at hr
  cases hr

theorem known_run (hm : machine.Roomy)
    (h : GuardedRun (Starters.step machine) Starters.InTurn startUp as s) : Known machine as s := by
  induction h with
  | init => exact ⟨.init, fun n => ⟨rfl, rfl, rfl⟩⟩
  | step _ hturn hstep ih =>
      obtain ⟨u, hu⟩ := Option.ne_none_iff_exists'.mp (pair_step_of_step hstep)
      obtain ⟨t, ht, hknown⟩ := ih.step_of_pair hm hturn hu
      obtain rfl := Option.some.inj (hstep.symm.trans ht)
      exact hknown

/-- The process `n` has asked for the region that both processes have now. -/
structure Shared (machine : Machine) (s : Starters) (n : Side) : Prop where
  running : ∀ k, (s k).process.stage = .running
  connected : ∀ k, (s k).process.remoteConnected = true ∧ (s k).process.newConnected = true
  empty : ∀ k, (s k).inbox = []
  asked : (s n).region = some (machine.asked n)
  copied : (s n.other).region = some { machine.asked n with
    addr := some (machine.mmap n.other (machine.asked n).addr (machine.length n)) }
  length : (machine.length n).toNat = (machine.numPages n).toNat * machine.pageSize

theorem Known.shared (h : Known machine as s) (hm : machine.Roomy)
    (hall : ∀ n, (s n).process.stage = .running) : ∃ n, Shared machine s n := by
  have hled := Pair.led_run h.run
  have hrank : ∀ k, (s k).process.rank = 5 := by
    intro k
    rw [rank, hall k]
    rfl
  obtain ⟨n, hn⟩ := hled.leader
  have hleads : (s n).process.firstConnectionFailed = true :=
    hn.failed.mpr (by rw [Starters.pair, hrank n]; decide)
  have hfollows : (s n.other).process.firstConnectionFailed = false := hn.follower
  have hnone : ∀ k, (s k).process.handshakes = 0 := by
    have hboth := (hled.wired n).handshakes
    have hboth' := (hled.wired n.other).handshakes
    rw [Side.other_other] at hboth'
    simp only [Starters.pair, reads, asks, hrank, hleads, hfollows] at hboth hboth'
    refine (Side.forall_iff n).mpr ⟨?_, ?_⟩
    · simpa using hboth
    · simpa using hboth'
  refine ⟨n, hall, ?_, ?_, ?_, ?_, hm.toNat_length n⟩
  · intro k
    exact hled.elected.connected k (by rw [Chosen, Starters.pair, hrank k]; decide)
  · intro k
    rw [(h.informed k).inbox, hnone k]
    rfl
  · rw [(h.informed n).region, hrank n, hleads]
    rfl
  · rw [(h.informed n.other).region, hrank n.other, hfollows, Machine.copied, Side.other_other]
    rfl

end Starters

/-- Started in turn, the two processes get stuck nowhere, and after ten calls at most both
have the region that the user of one of them has asked for. -/
theorem start_up_shares {machine : Machine} (hm : machine.Roomy) {as : List Side} {s : Starters}
    (h : GuardedRun (Starters.step machine) Starters.InTurn startUp as s) :
    as.length ≤ 10 ∧ (∀ n, (s n).gone = false) ∧
      ((∃ n, s.InTurn n ∧ s.step machine n ≠ none) ∨ ∃ n, Starters.Shared machine s n) := by
  have hknown := Starters.known_run hm h
  have hled := Pair.led_run hknown.run
  have hlength := hled.length
  have hfirst : (s.pair .first).rank ≤ 5 := Stage.rank_le _
  have hsecond : (s.pair .second).rank ≤ 5 := Stage.rank_le _
  refine ⟨by omega, fun n => (hknown.informed n).present, ?_⟩
  rcases hled.progress with hall | ⟨n, hturn, hsome⟩
  · exact .inr (hknown.shared hm hall)
  · left
    obtain ⟨u, hu⟩ := Option.ne_none_iff_exists'.mp hsome
    obtain ⟨t, ht, -⟩ := hknown.step_of_pair hm hturn hu
    exact ⟨n, hturn, by rw [ht]; exact Option.some_ne_none t⟩

/-- Three pages, which each `mmap` puts at the same place. -/
def threePages : Machine := ⟨4096, fun _ _ => fixedMmap, fun _ => 3⟩

theorem threePages_roomy : threePages.Roomy where
  pageSize_pos := by decide
  pageSize_lt := by decide
  fits := by decide
  empty := by decide
  mapped := by decide
  notNull := by decide
  shared := by decide

theorem start_up_shares_threePages :
    ∃ s, runActions (Starters.step threePages) startUp inTurnRun = some s ∧
      (∀ n, (s n).gone = false) ∧
      ((∃ n, s.InTurn n ∧ s.step threePages n ≠ none) ∨ ∃ n, Starters.Shared threePages s n) := by
  have hrun : (runActions (guardedStep (Starters.step threePages) Starters.InTurn) startUp
      inTurnRun).isSome := by decide +kernel
  obtain ⟨s, hs⟩ := Option.isSome_iff_exists.mp hrun
  have hguarded := GuardedRun.of_runActions hs
  exact ⟨s, hguarded.runActions, (start_up_shares threePages_roomy hguarded).2⟩

end OperatingSystems.Dsm
