import OperatingSystems.Perftop.NoWrap
import Mathlib.Data.List.Chain

/-!
# Scheduler decisions of one CPU

A decision takes `prev` off the CPU and puts `next` on it. The scheduler calls
`pick_next_task_fair` with `prev` as the current task; the result is null when
the idle task is to run. The entry handler refuses tasks without an address
space, and the return handler a null or equal `next`. So a turn that ends in idle
stays open, and a task that comes back from idle or from a kernel thread is not
given a new start time: a later switch may charge it from the old one.
-/
namespace OperatingSystems.Perftop
open Library

structure TaskSet (Task : Type*) where
  pid : Task → ℤ
  pid_injective : Function.Injective pid
  mm : Task → Bool
  idle : Task
  idle_mm : mm idle = false

/-- `data` is what an earlier call left in the private data of the instance. -/
structure Decision (Task : Type*) where
  time : UInt64
  prev : Task
  next : Task
  data : Option Task

/-- What a schedule does to one task: the decision that last put it on the CPU, and
the total time from such decisions to the ones that took it off. -/
structure Stay (Task : Type*) where
  put : Option (Decision Task)
  total : ℕ

/-- A schedule of one CPU: each decision takes off the task that the one before put on. -/
structure Schedule {Task : Type*} (ds : List (Decision Task)) : Prop where
  chained : ds.IsChain fun d e => e.prev = d.next
  increasing : ds.Pairwise fun d e => d.time < e.time
  nonzero : ∀ d ∈ ds, d.time ≠ 0

section
variable {β : Type*} [DecidableEq β] {Task : Type*} [DecidableEq Task]

/-- The result of `pick_next_task_fair`. -/
def TaskSet.pickNextTaskFair (T : TaskSet Task) (d : Decision Task) : Option Task :=
  if d.next = T.idle then none else some d.next

def Decision.handle (k : Kernel β) (T : TaskSet Task) (s : State β) (d : Decision Task) :
    State β :=
  match entryPickNextFair (T.mm d.prev) (some d.prev) d.data s with
  | (none, s) => s
  | (some dataPrev, s) => retPickNextFair k T.pid dataPrev (T.pickNextTaskFair d) d.time s

def runSchedule (k : Kernel β) (T : TaskSet Task) (ds : List (Decision Task)) : State β :=
  ds.foldl (Decision.handle k T) State.init

def Stay.after (u : Task) (a : Stay Task) (d : Decision Task) : Stay Task :=
  if d.prev = d.next then a
  else if d.prev = u then
    { a with total := a.total + a.put.elim 0 fun e => d.time.toNat - e.time.toNat }
  else if d.next = u then { a with put := some d }
  else a

def stayOf (ds : List (Decision Task)) (u : Task) : Stay Task :=
  ds.foldl (Stay.after u) ⟨none, 0⟩

/-- The decision makes the return handler charge `prev`. -/
def Charges (k : Kernel β) (T : TaskSet Task) (s : State β) (d : Decision Task) : Prop :=
  T.mm d.prev = true ∧ d.next ≠ T.idle ∧ d.prev ≠ d.next ∧
    lookupHashTable k s (T.pid d.prev) ≠ 0

end

section Steps
variable {β : Type*} [DecidableEq β] {Task : Type*} [DecidableEq Task] {k : Kernel β}
  {T : TaskSet Task} {s : State β}

theorem Rep.decision (h : Rep k s) (d : Decision Task) : Rep k (d.handle k T s) := by
  have h' : Rep k { s with preCount := s.preCount + 1 } := ⟨h.chains, h.tree⟩
  unfold Decision.handle entryPickNextFair
  cases T.mm d.prev with
  | false => exact h
  | true => exact h'.handle T.pid ⟨some d.prev, T.pickNextTaskFair d, d.time⟩

/-- The return handler runs for user tasks only, and counts two different fair tasks. -/
theorem accounts_decision (h : Rep k s) (d : Decision Task) :
    accounts k (d.handle k T s) =
      if T.mm d.prev = true ∧ d.next ≠ T.idle ∧ d.prev ≠ d.next then
        (accounts k s).switch (T.pid d.prev) (T.pid d.next) d.time
      else accounts k s := by
  have h' : Rep k { s with preCount := s.preCount + 1 } := ⟨h.chains, h.tree⟩
  unfold Decision.handle entryPickNextFair
  cases hmm : T.mm d.prev with
  | false => simp
  | true =>
      have ha := accounts_handle h' T.pid ⟨some d.prev, T.pickNextTaskFair d, d.time⟩
      apply ha.trans
      unfold Event.switched TaskSet.pickNextTaskFair
      by_cases hidle : d.next = T.idle
      · simp only [hidle, if_true, ne_eq, not_true_eq_false, false_and, and_false, if_false]
        rfl
      · by_cases hne : d.prev = d.next
        · simp only [hidle, hne, if_false, ne_eq, not_true_eq_false, and_false]
          rfl
        · simp only [hidle, hne, if_false, ne_eq, not_false_eq_true, and_self, if_true]
          rfl

end Steps

/-- The task on the CPU after the decisions. -/
def current {Task : Type*} (ds : List (Decision Task)) : Option Task :=
  ds.getLast?.map Decision.next

/-- The time of the last decision. -/
def lastTime {Task : Type*} (ds : List (Decision Task)) : UInt64 :=
  (ds.getLast?.map Decision.time).getD 0

theorem lastTime_le {Task : Type*} {ds : List (Decision Task)} {t : UInt64}
    (h : ∀ d ∈ ds, d.time ≤ t) : lastTime ds ≤ t := getD_getLast?_le h

theorem Schedule.of_concat {Task : Type*} {ds : List (Decision Task)} {d : Decision Task}
    (h : Schedule (ds ++ [d])) :
    Schedule ds ∧ (∀ c ∈ current ds, d.prev = c) ∧ lastTime ds ≤ d.time := by
  obtain ⟨hds, -, hd⟩ := List.pairwise_append.mp h.increasing
  obtain ⟨hchain, -, hlast⟩ := List.isChain_append.mp h.chained
  refine ⟨⟨hchain, hds, fun e he => h.nonzero e (by simp [he])⟩, fun c hc => ?_, ?_⟩
  · obtain ⟨e, he, rfl⟩ := Option.map_eq_some_iff.mp hc
    exact hlast e he d rfl
  · exact lastTime_le fun e he => UInt64.le_of_lt (hd e he d (by simp))

section Runs
variable {β : Type*} [DecidableEq β] {Task : Type*} [DecidableEq Task] {k : Kernel β}
  {T : TaskSet Task}

/-- The total of a user task is covered by its completed stays. If it has a start time, it
was put on the CPU; while it is there, and came from a user task, the two times agree. -/
structure Covered (T : TaskSet Task) (ds : List (Decision Task)) (a : Accounts) (u : Task) :
    Prop where
  total : ∀ t, a.total (T.pid u) = some t → t.toNat ≤ (stayOf ds u).total
  start : a.start (T.pid u) ≠ 0 → ∃ e, (stayOf ds u).put = some e ∧
    ((∀ c ∈ current ds, c = u) → T.mm e.prev = true → a.start (T.pid u) = e.time)

theorem stayOf_concat (ds : List (Decision Task)) (d : Decision Task) (u : Task) :
    stayOf (ds ++ [d]) u = (stayOf ds u).after u d := by
  rw [stayOf, List.foldl_append]
  rfl

theorem Stay.total_le_after (a : Stay Task) (u : Task) (d : Decision Task) :
    a.total ≤ (a.after u d).total := by
  unfold Stay.after
  split_ifs
  · exact le_refl _
  · exact Nat.le_add_right _ _
  · exact le_refl _
  · exact le_refl _

theorem Stay.put_after (a : Stay Task) (u : Task) (d : Decision Task) :
    (a.after u d).put = if d.prev ≠ d.next ∧ d.next = u then some d else a.put := by
  unfold Stay.after
  by_cases hne : d.prev = d.next
  · simp [hne]
  · by_cases hp : d.prev = u
    · have hn : d.next ≠ u := fun hn => hne (hp.trans hn.symm)
      simp [hp, hn, Ne.symm hn]
    · by_cases hn : d.next = u <;> simp [hne, hp, hn]

/-- A decision puts its own `next` on the CPU. -/
theorem mem_of_put {ds : List (Decision Task)} {u : Task} {e : Decision Task}
    (h : (stayOf ds u).put = some e) : e ∈ ds ∧ e.next = u := by
  induction ds using List.reverseRecOn with
  | nil => cases h
  | append_singleton ds d ih =>
      rw [stayOf_concat, Stay.put_after] at h
      split_ifs at h with hn
      · obtain rfl := Option.some.inj h
        exact ⟨by simp, hn.2⟩
      · exact ⟨by simp [(ih h).1], (ih h).2⟩

section Step
variable {ds : List (Decision Task)} {a : Accounts} {d : Decision Task}

/-- A decision that the return handler does not count. -/
theorem Covered.skip {u : Task} (hu : T.mm u = true) (h : Covered T ds a u)
    (hcur : ∀ c ∈ current ds, d.prev = c)
    (hskip : ¬ (T.mm d.prev = true ∧ d.next ≠ T.idle ∧ d.prev ≠ d.next)) :
    Covered T (ds ++ [d]) a u where
  total t ht := by
    rw [stayOf_concat]
    exact (h.total t ht).trans (Stay.total_le_after _ u d)
  start hs := by
    obtain ⟨e, he, hfresh⟩ := h.start hs
    rw [stayOf_concat, Stay.put_after]
    split_ifs with hn
    · refine ⟨d, rfl, fun _ hmm => absurd ⟨hmm, ?_, hn.1⟩ hskip⟩
      rintro hidle
      rw [← hn.2, hidle, T.idle_mm] at hu
      cases hu
    · refine ⟨e, he, fun hc => hfresh fun c hmem => ?_⟩
      have hnext : d.next = u := hc d.next (by simp [current])
      have hprev : d.prev = d.next := by
        by_contra hne
        exact hn ⟨hne, hnext⟩
      rw [← hcur c hmem, hprev, hnext]

/-- A decision that the return handler counts. -/
theorem Covered.switch {l : UInt64} (hb : Bounded a l) (hl : l ≤ d.time)
    (h : ∀ u, T.mm u = true → Covered T ds a u) (hcur : ∀ c ∈ current ds, d.prev = c)
    (hne : d.prev ≠ d.next)
    (hput : a.start (T.pid d.prev) ≠ 0 →
      ∀ e, (stayOf ds d.prev).put = some e → T.mm e.prev = true)
    {u : Task} (hu : T.mm u = true) :
    Covered T (ds ++ [d]) (a.switch (T.pid d.prev) (T.pid d.next) d.time) u where
  total t ht := by
    rw [stayOf_concat]
    rcases a.switch_total_cases ht with ⟨hpid, hs, rfl⟩ | ⟨-, hold⟩
    · obtain rfl := T.pid_injective hpid
      obtain ⟨e, he, hfresh⟩ := (h d.prev hu).start hs
      have hstart := hfresh (fun c hc => (hcur c hc).symm) (hput hs e he)
      have hprev : ((a.total (T.pid d.prev)).getD 0).toNat ≤ (stayOf ds d.prev).total := by
        cases htot : a.total (T.pid d.prev) with
        | none => exact Nat.zero_le _
        | some t => exact (h d.prev hu).total t htot
      have hafter : ((stayOf ds d.prev).after d.prev d).total =
          (stayOf ds d.prev).total + (d.time.toNat - e.time.toNat) := by
        simp [Stay.after, hne, he]
      rw [hafter, (hb.sum_toNat hl hs).1, hstart]
      omega
    · exact ((h u hu).total t hold).trans (Stay.total_le_after _ u d)
  start hs := by
    rw [stayOf_concat, Stay.put_after]
    rw [Accounts.switch_start] at hs ⊢
    by_cases hq : T.pid u = T.pid d.next
    · have hnext : d.next = u := (T.pid_injective hq).symm
      rw [if_pos ⟨hne, hnext⟩, if_pos hq]
      exact ⟨d, rfl, fun _ _ => rfl⟩
    · have hnext : d.next ≠ u := fun he => hq (by rw [he])
      rw [if_neg hq] at hs
      rw [if_neg fun hc => hnext hc.2]
      by_cases hp : T.pid u = T.pid d.prev
      · exact absurd (if_pos hp) hs
      · rw [if_neg hp] at hs
        obtain ⟨e, he, -⟩ := (h u hu).start hs
        exact ⟨e, he, fun hc => absurd (hc d.next (by simp [current])) hnext⟩

end Step

theorem runSchedule_concat (ds : List (Decision Task)) (d : Decision Task) :
    runSchedule k T (ds ++ [d]) = d.handle k T (runSchedule k T ds) := by
  rw [runSchedule, List.foldl_append]
  rfl

theorem rep_runSchedule (ds : List (Decision Task)) : Rep k (runSchedule k T ds) := by
  induction ds using List.reverseRecOn with
  | nil => exact rep_init
  | append_singleton ds d ih =>
      rw [runSchedule_concat]
      exact ih.decision d

theorem bounded_decision {s : State β} {l : UInt64} {d : Decision Task} (hr : Rep k s)
    (h : Bounded (accounts k s) l) (hl : l ≤ d.time) :
    Bounded (accounts k (d.handle k T s)) d.time := by
  rw [accounts_decision hr]
  split_ifs
  · exact h.switch hl _
  · exact h.mono hl

theorem bounded_runSchedule {ds : List (Decision Task)} (h : Schedule ds) :
    Bounded (accounts k (runSchedule k T ds)) (lastTime ds) := by
  induction ds using List.reverseRecOn with
  | nil => exact bounded_init
  | append_singleton ds d ih =>
      obtain ⟨hds, -, hl⟩ := h.of_concat
      have hlast : lastTime (ds ++ [d]) = d.time := by simp [lastTime]
      rw [runSchedule_concat, hlast]
      exact bounded_decision (rep_runSchedule ds) (ih hds) hl

theorem covered_runSchedule {ds : List (Decision Task)} (h : Schedule ds)
    (hput : ∀ before d after, ds = before ++ d :: after →
      Charges k T (runSchedule k T before) d →
      ∀ e, (stayOf before d.prev).put = some e → T.mm e.prev = true) :
    ∀ u, T.mm u = true → Covered T ds (accounts k (runSchedule k T ds)) u := by
  induction ds using List.reverseRecOn with
  | nil =>
      intro u hu
      exact ⟨fun t ht => absurd ht (by simp [runSchedule, accounts_init, Accounts.init]),
        fun hs => absurd rfl hs⟩
  | append_singleton ds d ih =>
      intro u hu
      obtain ⟨hds, hcur, hl⟩ := h.of_concat
      have hprev := ih hds fun before e after hsplit =>
        hput before e (after ++ [d]) (by simp [hsplit])
      rw [runSchedule_concat, accounts_decision (rep_runSchedule ds)]
      split_ifs with hcount
      · refine Covered.switch (bounded_runSchedule hds) hl hprev hcur hcount.2.2 (fun hs => ?_) hu
        exact hput ds d [] rfl ⟨hcount.1, hcount.2.1, hcount.2.2, hs⟩
      · exact (hprev u hu).skip hu hcur hcount

end Runs

/-- No user task is charged for more than its completed stays on the CPU, if every charged
task was last put there by a decision that took off a user task. -/
theorem charged_at_most_stays {β : Type*} [DecidableEq β] {Task : Type*} [DecidableEq Task]
    (k : Kernel β) (T : TaskSet Task) (ds : List (Decision Task)) (h : Schedule ds)
    (hput : ∀ before d after, ds = before ++ d :: after →
      Charges k T (runSchedule k T before) d →
      ∀ e, (stayOf before d.prev).put = some e → T.mm e.prev = true)
    (u : Task) (hu : T.mm u = true) :
    ∀ n ∈ inorder (runSchedule k T ds).myroot, n.value = T.pid u →
      n.tsc.toNat ≤ (stayOf ds u).total := by
  intro n hn hv
  have htree := (rep_runSchedule (k := k) (T := T) ds).tree
  exact (covered_runSchedule h hput u hu).total n.tsc
    ((totalOf_eq_some_iff htree).mpr ⟨n, hn, hv, rfl⟩)

/-- Task 0 is idle; the other tasks are user tasks with their number as pid. -/
def userTasks : TaskSet ℕ where
  pid := Nat.cast
  pid_injective a b h := by exact_mod_cast h
  mm u := u ≠ 0
  idle := 0
  idle_mm := rfl

/-- Tasks 1 and 2 take turns. -/
def takingTurns : List (Decision ℕ) :=
  [⟨1, 2, 1, none⟩, ⟨3, 1, 2, none⟩, ⟨7, 2, 1, none⟩, ⟨8, 1, 2, some 2⟩]

theorem charged_at_most_stays_takingTurns :
    Schedule takingTurns ∧
      ∀ n ∈ inorder (runSchedule singleBucket userTasks takingTurns).myroot,
        n.value = userTasks.pid 1 → n.tsc.toNat ≤ (stayOf takingTurns 1).total := by
  have h : Schedule takingTurns := ⟨by decide, by decide, by decide⟩
  have huser : ∀ d ∈ takingTurns, userTasks.mm d.prev = true := by decide
  refine ⟨h, charged_at_most_stays singleBucket userTasks takingTurns h ?_ 1 (by decide)⟩
  intro before d after hsplit _ e he
  exact huser e (by simp [hsplit, (mem_of_put he).1])

/-- Task 1 runs from 1 to 3 and from 10 to 12, with idle time in between. -/
def idleBetween : List (Decision ℕ) :=
  [⟨1, 2, 1, none⟩, ⟨3, 1, 0, none⟩, ⟨10, 0, 1, none⟩, ⟨12, 1, 2, none⟩]

/-- Its completed stays are 4 long, and it is charged 11. -/
theorem idleBetween_charged :
    Schedule idleBetween ∧ userTasks.mm 1 = true ∧ (stayOf idleBetween 1).total = 4 ∧
      ∃ n ∈ inorder (runSchedule singleBucket userTasks idleBetween).myroot,
        n.value = userTasks.pid 1 ∧ n.tsc.toNat = 11 :=
  ⟨⟨by decide, by decide, by decide⟩, by decide, by decide, by decide +kernel⟩

end OperatingSystems.Perftop
