import OperatingSystems.Library.GuardedRun
import OperatingSystems.Perftop.Accounts

/-!
# Return handlers on several CPUs

The handler of a context switch is not one step. It counts the call, looks up when
`prev` was put on the CPU, removes that entry, charges the tree under `my_lock`, adds
the entry of `next` and counts the switch, and between any two of these the handlers of
other CPUs may run. The lock makes the part on the tree one step, for the other handlers
and for a reader of `/proc/perftop`. The hash table has no lock: that a call of its
functions is one step is assumed.

`commit` says where a handler takes effect: under the lock, or at its lookup if the tree
is not charged.
-/
namespace OperatingSystems.Perftop
open Library

variable {β Task ι : Type*}

/-- A switch that the handler counts. -/
structure Turn (Task : Type*) where
  prev : Task
  next : Task
  curr : UInt64
  switched : prev ≠ next

def Turn.event (t : Turn Task) : Event Task := ⟨some t.prev, some t.next, t.curr⟩

def Turn.pids (pid : Task → ℤ) (t : Turn Task) : List ℤ := [pid t.prev, pid t.next]

/-- `none` if the handler only counts the call. -/
def Event.turn [DecidableEq Task] (e : Event Task) : Option (Turn Task) :=
  match e.prev, e.next with
  | some prev, some next => if h : prev ≠ next then some ⟨prev, next, e.curr, h⟩ else none
  | _, _ => none

/-- How far the handler of a CPU has come. -/
inductive Phase (Task : Type*)
  | idle
  | counted (t : Turn Task)
  | looked (t : Turn Task) (old : UInt64)
  | removed (t : Turn Task) (old : UInt64)
  | closed (t : Turn Task)
  | opened (t : Turn Task)

structure Machine (β Task ι : Type*) where
  tables : State β
  cpu : ι → Phase Task

inductive CpuStep (Task ι : Type*)
  | call (c : ι) (e : Event Task)
  | resume (c : ι)

def Machine.init : Machine β Task ι := ⟨State.init, fun _ => .idle⟩

section Steps
variable [DecidableEq β] [DecidableEq Task] [DecidableEq ι] (k : Kernel β) (pid : Task → ℤ)

/-- The part of the return handler between `spin_lock` and `spin_unlock`. -/
def chargeTree (s : State β) (prev : ℤ) (curr old : UInt64) : State β :=
  let sum := lookupRbTree s prev
  let sum := sum + curr - old
  let s := removeRbTree k s prev
  insertRedblackTrees k s prev sum

def Phase.resume (s : State β) : Phase Task → Option (Phase Task × State β)
  | .idle => none
  | .counted t =>
      let old := lookupHashTable k s (pid t.prev)
      some (if old ≠ 0 then .looked t old else .closed t, s)
  | .looked t old => some (.removed t old, removeHashTable k s (pid t.prev))
  | .removed t old => some (.closed t, chargeTree k s (pid t.prev) t.curr old)
  | .closed t => some (.opened t, insertHashTable k s (pid t.next) t.curr)
  | .opened _ => some (.idle, { s with contextSwitchCount := s.contextSwitchCount + 1 })

def Event.firstPhase (e : Event Task) : Phase Task :=
  match e.turn with
  | some t => .counted t
  | none => .idle

def Machine.step (m : Machine β Task ι) : CpuStep Task ι → Option (Machine β Task ι)
  | .call c e =>
      match m.cpu c with
      | .idle => some
          { tables := { m.tables with postCount := m.tables.postCount + 1 }
            cpu := Function.update m.cpu c e.firstPhase }
      | _ => none
  | .resume c => ((m.cpu c).resume k pid m.tables).map fun r => ⟨r.2, Function.update m.cpu c r.1⟩

end Steps

section Handlers
variable [DecidableEq β] [DecidableEq Task] {k : Kernel β} {pid : Task → ℤ}

theorem Event.event_of_turn {e : Event Task} {t : Turn Task} (h : e.turn = some t) :
    t.event = e := by
  obtain ⟨prev, next, curr⟩ := e
  cases prev with
  | none => cases h
  | some prev =>
      cases next with
      | none => cases h
      | some next =>
          simp only [turn] at h
          split_ifs at h
          obtain rfl := Option.some.inj h
          rfl

theorem handle_event (t : Turn Task) (s : State β) :
    Event.handle k pid s t.event =
      switchTables k { s with postCount := s.postCount + 1 } (pid t.prev) (pid t.next) t.curr := by
  simp only [Turn.event, Event.handle, retPickNextFair, if_pos t.switched]

theorem handle_of_no_turn {e : Event Task} (h : e.turn = none) (s : State β) :
    Event.handle k pid s e = { s with postCount := s.postCount + 1 } := by
  obtain ⟨prev, next, curr⟩ := e
  cases prev with
  | none => rfl
  | some prev =>
      cases next with
      | none => rfl
      | some next =>
          by_cases hne : prev = next
          · simp [Event.handle, retPickNextFair, hne]
          · simp [Event.turn, hne] at h

end Handlers

section Alone
variable [DecidableEq β] [DecidableEq Task] [DecidableEq ι] (k : Kernel β) (pid : Task → ℤ)
  (cpu : ι → Phase Task) (c : ι) (t : Turn Task) (s : State β)

theorem runActions_closed :
    runActions (Machine.step k pid) ⟨s, Function.update cpu c (.closed t)⟩
        (List.replicate 2 (.resume c)) =
      some ⟨{ insertHashTable k s (pid t.next) t.curr with
        contextSwitchCount := s.contextSwitchCount + 1 }, Function.update cpu c .idle⟩ := by
  simp only [List.replicate, runActions, Machine.step, Phase.resume, Function.update_self,
    Function.update_idem, Option.map_some, Option.bind_some]
  rfl

theorem runActions_counted :
    ∃ n, runActions (Machine.step k pid) ⟨s, Function.update cpu c (.counted t)⟩
        (List.replicate n (.resume c)) =
      some ⟨switchTables k s (pid t.prev) (pid t.next) t.curr, Function.update cpu c .idle⟩ := by
  by_cases hold : lookupHashTable k s (pid t.prev) ≠ 0
  · refine ⟨3 + 2, ?_⟩
    rw [List.replicate_add, runActions_append]
    have hthree : runActions (Machine.step k pid) ⟨s, Function.update cpu c (.counted t)⟩
        (List.replicate 3 (.resume c)) = some ⟨closeTurn k s (pid t.prev) t.curr
          (lookupHashTable k s (pid t.prev)), Function.update cpu c (.closed t)⟩ := by
      simp only [List.replicate, runActions, Machine.step, Phase.resume, Function.update_self,
        Function.update_idem, Option.map_some, Option.bind_some, if_pos hold]
      rfl
    rw [hthree, Option.bind_some, runActions_closed]
    simp only [switchTables, if_pos hold]
    rfl
  · refine ⟨1 + 2, ?_⟩
    rw [List.replicate_add, runActions_append]
    have hone : runActions (Machine.step k pid) ⟨s, Function.update cpu c (.counted t)⟩
        (List.replicate 1 (.resume c)) = some ⟨s, Function.update cpu c (.closed t)⟩ := by
      simp only [List.replicate, runActions, Machine.step, Phase.resume, Function.update_self,
        Function.update_idem, Option.map_some, Option.bind_some, if_neg hold]
    rw [hone, Option.bind_some, runActions_closed]
    simp only [switchTables, if_neg hold]
    rfl

/-- The steps of a handler, one after the other, are the handler. -/
theorem runActions_alone (m : Machine β Task ι) {c : ι} (hc : m.cpu c = .idle) (e : Event Task) :
    ∃ n, runActions (Machine.step k pid) m (.call c e :: List.replicate n (.resume c)) =
      some { m with tables := Event.handle k pid m.tables e } := by
  have hidle : Function.update m.cpu c .idle = m.cpu := by rw [← hc, Function.update_eq_self]
  have hcall : Machine.step k pid m (.call c e) =
      some ⟨{ m.tables with postCount := m.tables.postCount + 1 },
        Function.update m.cpu c e.firstPhase⟩ := by
    rw [Machine.step, hc]
  simp only [runActions, hcall, Option.bind_some]
  cases ht : e.turn with
  | none =>
      refine ⟨0, ?_⟩
      simp only [Event.firstPhase, ht, hidle, handle_of_no_turn ht]
      rfl
  | some t =>
      obtain ⟨n, hn⟩ := runActions_counted k pid m.cpu c t
        { m.tables with postCount := m.tables.postCount + 1 }
      refine ⟨n, ?_⟩
      simp only [Event.firstPhase, ht]
      rw [hn, hidle, ← Event.event_of_turn ht, handle_event]

end Alone

section Effect
variable [DecidableEq Task] (k : Kernel β) (pid : Task → ℤ)

/-- What takes effect when the handler goes on. -/
def Phase.commit (s : State β) : Phase Task → List (Event Task)
  | .counted t => if lookupHashTable k s (pid t.prev) ≠ 0 then [] else [t.event]
  | .removed t _ => [t.event]
  | _ => []

def Machine.commit (m : Machine β Task ι) : CpuStep Task ι → List (ι × Event Task)
  | .call c e => if e.turn.isNone then [(c, e)] else []
  | .resume c => ((m.cpu c).commit k pid m.tables).map (Prod.mk c)

def CpuStep.begun : CpuStep Task ι → List (ι × Event Task)
  | .call c e => [(c, e)]
  | .resume _ => []

/-- The call that has not taken effect. -/
def Phase.waiting : Phase Task → List (Event Task)
  | .counted t | .looked t _ | .removed t _ => [t.event]
  | _ => []

/-- The switch that has taken effect and is not counted. -/
def Phase.uncounted : Phase Task → List (Event Task)
  | .closed t | .opened t => [t.event]
  | _ => []

end Effect

section Threads
variable [DecidableEq β] [DecidableEq Task] [DecidableEq ι] {k : Kernel β} {pid : Task → ℤ}
  {m m' : Machine β Task ι}

theorem step_call {c : ι} {e : Event Task} (h : m.step k pid (.call c e) = some m') :
    m.cpu c = .idle ∧ m' = ⟨{ m.tables with postCount := m.tables.postCount + 1 },
      Function.update m.cpu c e.firstPhase⟩ := by
  simp only [Machine.step] at h
  cases hc : m.cpu c with
  | idle =>
      rw [hc] at h
      exact ⟨rfl, (Option.some.inj h).symm⟩
  | counted t => simp [hc] at h
  | looked t old => simp [hc] at h
  | removed t old => simp [hc] at h
  | closed t => simp [hc] at h
  | opened t => simp [hc] at h

theorem step_resume {c : ι} (h : m.step k pid (.resume c) = some m') :
    ∃ ph tables, (m.cpu c).resume k pid m.tables = some (ph, tables) ∧
      m' = ⟨tables, Function.update m.cpu c ph⟩ := by
  obtain ⟨⟨ph, tables⟩, hr, he⟩ := Option.map_eq_some_iff.mp h
  exact ⟨ph, tables, hr, he.symm⟩

omit [DecidableEq Task] in
theorem Phase.waiting_resume {ph ph' : Phase Task} {s s' : State β}
    (h : ph.resume k pid s = some (ph', s')) : ph.waiting = ph.commit k pid s ++ ph'.waiting := by
  cases ph with
  | idle => cases h
  | counted t =>
      simp only [resume, Option.some.injEq, Prod.mk.injEq] at h
      obtain ⟨rfl, -⟩ := h
      by_cases hold : lookupHashTable k s (pid t.prev) = 0 <;> simp [waiting, commit, hold]
  | looked t old =>
      obtain ⟨rfl, -⟩ := Prod.mk.inj (Option.some.inj h)
      rfl
  | removed t old =>
      obtain ⟨rfl, -⟩ := Prod.mk.inj (Option.some.inj h)
      rfl
  | closed t =>
      obtain ⟨rfl, -⟩ := Prod.mk.inj (Option.some.inj h)
      rfl
  | opened t =>
      obtain ⟨rfl, -⟩ := Prod.mk.inj (Option.some.inj h)
      rfl

/-- One step of the machine, for the calls of one CPU. -/
theorem waiting_step {a : CpuStep Task ι} (h : m.step k pid a = some m') (c : ι) :
    (m.cpu c).waiting.map (Prod.mk c) ++ a.begun.filter (fun x => x.1 = c) =
      (m.commit k pid a).filter (fun x => x.1 = c) ++ (m'.cpu c).waiting.map (Prod.mk c) := by
  cases a with
  | call d e =>
      obtain ⟨hidle, rfl⟩ := step_call h
      by_cases hd : d = c
      · subst hd
        cases ht : e.turn with
        | none => simp [hidle, Machine.commit, CpuStep.begun, Event.firstPhase, ht, Phase.waiting]
        | some t => simp [hidle, Machine.commit, CpuStep.begun, Event.firstPhase, ht,
            Phase.waiting, Event.event_of_turn ht]
      · have hnone : (m.commit k pid (.call d e)).filter (fun x => x.1 = c) = [] := by
          by_cases ht : e.turn.isNone <;> simp [Machine.commit, ht, hd]
        rw [hnone]
        simp [CpuStep.begun, hd, Function.update_of_ne (Ne.symm hd)]
  | resume d =>
      obtain ⟨ph, tables, hr, rfl⟩ := step_resume h
      have hwait := Phase.waiting_resume hr
      by_cases hd : d = c
      · subst hd
        have hall : (m.commit k pid (.resume d)).filter (fun x => x.1 = d) =
            m.commit k pid (.resume d) := by
          rw [List.filter_eq_self]
          simp [Machine.commit]
        rw [hall]
        simp [CpuStep.begun, Machine.commit, hwait]
      · have hnone : (m.commit k pid (.resume d)).filter (fun x => x.1 = c) = [] := by
          simp [Machine.commit, List.filter_eq_nil_iff, hd]
        rw [hnone]
        simp [CpuStep.begun, Function.update_of_ne (Ne.symm hd)]

end Threads

end OperatingSystems.Perftop
