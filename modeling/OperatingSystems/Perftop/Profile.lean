import OperatingSystems.Perftop.Exactness
import OperatingSystems.Perftop.Report
import OperatingSystems.Perftop.Schedule
import Mathlib.Data.List.Infix

/-!
# The profile of a busy CPU

While only user tasks run, and no two of them have been on the CPU for the same time, the
report lists the tasks by the time that they have been on the CPU: the turns that the tables
close are then the stays that the schedule completes.
-/
namespace OperatingSystems.Perftop
open Library

section
variable {Task : Type*} [DecidableEq Task]

/-- What the return handler is told. -/
def Decision.event (d : Decision Task) : Event Task := ⟨some d.prev, some d.next, d.time⟩

/-- Each decision takes off a user task and leaves the CPU to a task. -/
def Busy (T : TaskSet Task) (ds : List (Decision Task)) : Prop :=
  ∀ d ∈ ds, T.mm d.prev = true ∧ d.next ≠ T.idle

/-- No two tasks have completed the same time, unless it is 0. -/
def Untied (ds : List (Decision Task)) : Prop :=
  ∀ u v, (stayOf ds u).total ≠ 0 → (stayOf ds u).total = (stayOf ds v).total → u = v

end

section Turns
variable {Task : Type*} [DecidableEq Task] {T : TaskSet Task} {ds : List (Decision Task)}
  {d : Decision Task} {u : Task}

abbrev turnsIn (T : TaskSet Task) (ds : List (Decision Task)) (r : ℤ) : Turns :=
  turnsOf T.pid (ds.map Decision.event) r

theorem switched_event (pid : Task → ℤ) (d : Decision Task) :
    d.event.switched pid = if d.prev ≠ d.next then some (pid d.prev, pid d.next) else none := rfl

theorem turnsIn_concat (T : TaskSet Task) (ds : List (Decision Task)) (d : Decision Task)
    (r : ℤ) : turnsIn T (ds ++ [d]) r =
      if d.prev ≠ d.next then
        (turnsIn T ds r).switch (T.pid d.prev) (T.pid d.next) d.time.toNat r
      else turnsIn T ds r := by
  unfold turnsIn
  rw [List.map_append, List.map_singleton, turnsOf_concat, turnsAfter, switched_event]
  split_ifs <;> rfl

/-- The turns of a task are its stays: the closed ones add up to the completed time, and the
open one is that of the task on the CPU. -/
structure Measured (T : TaskSet Task) (ds : List (Decision Task)) (u : Task) : Prop where
  sum : (turnsIn T ds (T.pid u)).closed.sum = (stayOf ds u).total
  closed : (turnsIn T ds (T.pid u)).closed = [] ↔ (stayOf ds u).total = 0
  opened : (turnsIn T ds (T.pid u)).opened =
    if current ds = some u then (stayOf ds u).put.map fun e => e.time.toNat else none

theorem measured_nil (T : TaskSet Task) (u : Task) : Measured T [] u :=
  ⟨rfl, iff_of_true rfl rfl, rfl⟩

omit [DecidableEq Task] in
theorem current_concat (ds : List (Decision Task)) (d : Decision Task) :
    current (ds ++ [d]) = some d.next := by
  simp [current]

/-- What is open belongs to the task that the next decision takes off. -/
theorem Measured.opened_prev (h : Measured T ds u) (hcur : ∀ c ∈ current ds, d.prev = c) :
    (turnsIn T ds (T.pid u)).opened =
      if d.prev = u then (stayOf ds u).put.map fun e => e.time.toNat else none := by
  rw [h.opened]
  cases hc : current ds with
  | none =>
      have hnil : ds = [] := List.getLast?_eq_none_iff.mp (Option.map_eq_none_iff.mp hc)
      rw [hnil, if_neg (Option.some_ne_none u).symm]
      exact (ite_self none).symm
  | some c =>
      rw [hcur c hc]
      exact if_congr Option.some_inj rfl rfl

/-- A decision that keeps the task on the CPU. -/
theorem Measured.keep (h : Measured T ds u) (hcur : ∀ c ∈ current ds, d.prev = c)
    (hne : d.prev = d.next) : Measured T (ds ++ [d]) u := by
  have hturns : turnsIn T (ds ++ [d]) (T.pid u) = turnsIn T ds (T.pid u) := by
    rw [turnsIn_concat, if_neg (not_not.mpr hne)]
  have hstay : stayOf (ds ++ [d]) u = stayOf ds u := by
    rw [stayOf_concat, Stay.after, if_pos hne]
  refine ⟨?_, ?_, ?_⟩
  · rw [hturns, hstay, h.sum]
  · rw [hturns, hstay, h.closed]
  · rw [hturns, hstay, h.opened_prev hcur, current_concat, hne]
    exact if_congr Option.some_inj.symm rfl rfl

/-- The task that is taken off: its turn is closed where its stay is completed. -/
theorem Measured.takeOff (h : Measured T ds u) (hds : Schedule (ds ++ [d])) (hu : d.prev = u)
    (hne : d.prev ≠ d.next) : Measured T (ds ++ [d]) u := by
  obtain ⟨-, hcur, -⟩ := hds.of_concat
  have hopened := h.opened_prev hcur
  rw [if_pos hu] at hopened
  have hpid : T.pid u ≠ T.pid d.next := fun he => hne (hu.trans (T.pid_injective he))
  have hturns : turnsIn T (ds ++ [d]) (T.pid u) =
      (turnsIn T ds (T.pid u)).close d.time.toNat := by
    rw [turnsIn_concat, if_pos hne, hu, Turns.switch, if_pos rfl, if_neg hpid]
  have hnext : current (ds ++ [d]) ≠ some u := by
    rw [current_concat, ne_eq, Option.some_inj]
    exact fun he => hne (hu.trans he.symm)
  have hput : (stayOf (ds ++ [d]) u).put = (stayOf ds u).put := by
    rw [stayOf_concat, Stay.put_after, if_neg fun hn => hne (hu.trans hn.2.symm)]
  have htotal : (stayOf (ds ++ [d]) u).total = (stayOf ds u).total +
      (stayOf ds u).put.elim 0 fun e => d.time.toNat - e.time.toNat := by
    rw [stayOf_concat, Stay.after, if_neg hne, if_pos hu]
  have hclosed : (turnsIn T (ds ++ [d]) (T.pid u)).opened = none := by
    rw [hturns, Turns.close_opened]
  refine ⟨?_, ?_, ?_⟩
  · rw [hturns, htotal, Turns.close, hopened, ← h.sum]
    cases (stayOf ds u).put with
    | none => rfl
    | some e => simp
  · rw [hturns, htotal, Turns.close, hopened]
    cases hp : (stayOf ds u).put with
    | none => exact h.closed
    | some e =>
        obtain ⟨-, -, hlater⟩ := List.pairwise_append.mp hds.increasing
        have hlt := hlater e (mem_of_put hp).1 d List.mem_cons_self
        rw [UInt64.lt_iff_toNat_lt] at hlt
        apply iff_of_false (List.concat_ne_nil _ _)
        dsimp only [Option.elim]
        omega
  · rw [hclosed, if_neg hnext]

/-- The task that is put on: its turn is opened where its stay begins. -/
theorem Measured.putOn (h : Measured T ds u) (hu : d.next = u) (hne : d.prev ≠ d.next) :
    Measured T (ds ++ [d]) u := by
  have hpid : T.pid u ≠ T.pid d.prev := fun he => hne ((T.pid_injective he).symm.trans hu.symm)
  have hturns : turnsIn T (ds ++ [d]) (T.pid u) =
      { turnsIn T ds (T.pid u) with opened := some d.time.toNat } := by
    rw [turnsIn_concat, if_pos hne, hu, Turns.switch, if_neg hpid, if_pos rfl]
  have hprev : d.prev ≠ u := fun he => hne (he.trans hu.symm)
  have hstay : stayOf (ds ++ [d]) u = { stayOf ds u with put := some d } := by
    rw [stayOf_concat, Stay.after, if_neg hne, if_neg hprev, if_pos hu]
  refine ⟨?_, ?_, ?_⟩
  · rw [hturns, hstay]
    exact h.sum
  · rw [hturns, hstay]
    exact h.closed
  · rw [hturns, hstay, current_concat, if_pos (congrArg some hu)]
    rfl

/-- Any other task. -/
theorem Measured.other (h : Measured T ds u) (hcur : ∀ c ∈ current ds, d.prev = c)
    (hprev : d.prev ≠ u) (hnext : d.next ≠ u) : Measured T (ds ++ [d]) u := by
  have hpid : T.pid u ≠ T.pid d.prev := fun he => hprev (T.pid_injective he).symm
  have hpid' : T.pid u ≠ T.pid d.next := fun he => hnext (T.pid_injective he).symm
  have hturns : turnsIn T (ds ++ [d]) (T.pid u) = turnsIn T ds (T.pid u) := by
    rw [turnsIn_concat, Turns.switch, if_neg hpid, if_neg hpid', ite_self]
  have hstay : stayOf (ds ++ [d]) u = stayOf ds u := by
    rw [stayOf_concat, Stay.after, if_neg hprev, if_neg hnext, ite_self]
  refine ⟨?_, ?_, ?_⟩
  · rw [hturns, hstay, h.sum]
  · rw [hturns, hstay, h.closed]
  · rw [hturns, h.opened_prev hcur, if_neg hprev, current_concat,
      if_neg fun he => hnext (Option.some.inj he)]

theorem measured_schedule (h : Schedule ds) (u : Task) : Measured T ds u := by
  induction ds using List.reverseRecOn with
  | nil => exact measured_nil T u
  | append_singleton ds d ih =>
      obtain ⟨hds, hcur, -⟩ := h.of_concat
      have hbefore := ih hds
      by_cases hne : d.prev = d.next
      · exact hbefore.keep hcur hne
      · by_cases hprev : d.prev = u
        · exact hbefore.takeOff h hprev hne
        · by_cases hnext : d.next = u
          · exact hbefore.putOn hnext hne
          · exact hbefore.other hcur hprev hnext

/-- Only the pids of tasks have turns. -/
theorem exists_pid_of_total {r : ℤ} {x : ℕ} (h : (turnsIn T ds r).total = some x) :
    ∃ u, T.pid u = r := by
  by_contra hno
  push Not at hno
  have hnone : turnsIn T ds r = ⟨none, []⟩ := by
    clear h
    induction ds using List.reverseRecOn with
    | nil => rfl
    | append_singleton ds d ih =>
        rw [turnsIn_concat, ih, Turns.switch, if_neg (hno d.prev).symm, if_neg (hno d.next).symm,
          ite_self]
  rw [hnone] at h
  cases h

theorem Measured.total_eq (h : Measured T ds u) :
    (turnsIn T ds (T.pid u)).total =
      if (stayOf ds u).total = 0 then none else some (stayOf ds u).total := by
  rw [Turns.total, h.sum]
  exact if_congr h.closed rfl rfl

theorem noTie_of_untied (h : Schedule ds) (htie : Untied ds) :
    NoTie T.pid (ds.map Decision.event) := by
  intro p q x hp hq
  obtain ⟨u, rfl⟩ := exists_pid_of_total hp
  obtain ⟨v, rfl⟩ := exists_pid_of_total hq
  have hu := (measured_schedule h u).total_eq.symm.trans hp
  have hv := (measured_schedule h v).total_eq.symm.trans hq
  split_ifs at hu hv with hzero
  rw [htie u v hzero ((Option.some.inj hu).trans (Option.some.inj hv).symm)]

end Turns

section Report
variable {β : Type*} [DecidableEq β] {Task : Type*} [DecidableEq Task] {k : Kernel β}
  {T : TaskSet Task} {ds : List (Decision Task)}

/-- On a busy CPU every decision reaches the return handler. -/
theorem accounts_runSchedule (hbusy : Busy T ds) :
    accounts k (runSchedule k T ds) = accounts k (runEvents k T.pid (ds.map Decision.event)) := by
  induction ds using List.reverseRecOn with
  | nil => rfl
  | append_singleton ds d ih =>
      have hbefore := ih fun e he => hbusy e (List.mem_append_left [d] he)
      obtain ⟨hmm, hidle⟩ := hbusy d (List.mem_append_right ds List.mem_cons_self)
      rw [runSchedule_concat, accounts_decision (rep_runSchedule ds), List.map_append,
        List.map_singleton, runEvents_concat, accounts_handle (rep_runEvents T.pid _),
        switched_event, hbefore]
      by_cases hne : d.prev = d.next
      · rw [if_neg fun h => h.2.2 hne, if_neg (not_not.mpr hne)]
      · rw [if_pos ⟨hmm, hidle, hne⟩, if_pos hne]
        rfl

omit [DecidableEq Task] in
theorem Schedule.of_prefix {before : List (Decision Task)} (h : Schedule ds)
    (hb : before <+: ds) : Schedule before := by
  obtain ⟨rest, rfl⟩ := hb
  exact ⟨(List.isChain_append.mp h.chained).1, (List.pairwise_append.mp h.increasing).1,
    fun d hd => h.nonzero d (List.mem_append_left rest hd)⟩

theorem agrees_runSchedule (h : Schedule ds) (hbusy : Busy T ds)
    (htie : ∀ before, before <+: ds → Untied before) :
    Agrees (accounts k (runSchedule k T ds)) (turnsIn T ds) := by
  rw [accounts_runSchedule hbusy]
  apply agrees_runEvents
  · exact List.pairwise_map.mpr (h.increasing.imp UInt64.le_of_lt)
  · intro e he
    obtain ⟨d, hd, rfl⟩ := List.mem_map.mp he
    exact h.nonzero d hd
  · intro before hb
    obtain ⟨ds', hds', rfl⟩ := List.prefix_map_iff.mp hb
    exact noTie_of_untied (h.of_prefix hds') (htie ds' hds')

section Nodes
variable (h : Schedule ds) (hbusy : Busy T ds) (htie : ∀ before, before <+: ds → Untied before)
include h hbusy htie

/-- The total of a task is the time that it has completed, if it is not 0. -/
theorem totalOf_runSchedule (u : Task) :
    (totalOf (runSchedule k T ds).myroot (T.pid u)).map UInt64.toNat =
      if (stayOf ds u).total = 0 then none else some (stayOf ds u).total := by
  rw [← (measured_schedule h u).total_eq]
  exact ((agrees_runSchedule (k := k) h hbusy htie).total (T.pid u)).symm

/-- A node of the tree is that of a task. -/
theorem exists_task {n : RbNode} (hn : n ∈ inorder (runSchedule k T ds).myroot) :
    ∃ u, n.value = T.pid u ∧ n.tsc.toNat = (stayOf ds u).total ∧ (stayOf ds u).total ≠ 0 := by
  have htree := (rep_runSchedule (k := k) (T := T) ds).tree
  have hfound : totalOf (runSchedule k T ds).myroot n.value = some n.tsc :=
    (totalOf_eq_some_iff htree).mpr ⟨n, hn, rfl, rfl⟩
  have hsome : (turnsIn T ds n.value).total = some n.tsc.toNat := by
    rw [(agrees_runSchedule (k := k) h hbusy htie).total n.value]
    exact congrArg (Option.map UInt64.toNat) hfound
  obtain ⟨u, hu⟩ := exists_pid_of_total hsome
  have htime := totalOf_runSchedule (k := k) h hbusy htie u
  rw [hu, hfound, Option.map_some] at htime
  split_ifs at htime with hzero
  exact ⟨u, hu.symm, Option.some.inj htime, hzero⟩

/-- A task that has completed some time has a node. -/
theorem exists_node {u : Task} (hpos : (stayOf ds u).total ≠ 0) :
    ∃ n ∈ inorder (runSchedule k T ds).myroot,
      n.value = T.pid u ∧ n.tsc.toNat = (stayOf ds u).total := by
  have htree := (rep_runSchedule (k := k) (T := T) ds).tree
  have htime := totalOf_runSchedule (k := k) h hbusy htie u
  rw [if_neg hpos] at htime
  obtain ⟨t, ht, htsc⟩ := Option.map_eq_some_iff.mp htime
  obtain ⟨n, hn, hpid, rfl⟩ := (totalOf_eq_some_iff htree).mp ht
  exact ⟨n, hn, hpid, htsc⟩

end Nodes

/-- A list without repetitions that leaves out a member is shorter. -/
theorem length_lt_of_not_mem {α : Type*} {xs ys : List α} {a : α} (hd : xs.Nodup)
    (hsub : ∀ b ∈ xs, b ∈ ys) (ha : a ∈ ys) (hnot : a ∉ xs) : xs.length < ys.length := by
  by_contra hle
  have hperm := (List.subperm_of_subset hd hsub).perm_of_length_le (Nat.not_lt.mp hle)
  exact hnot (hperm.mem_iff.mpr ha)

/-- The report lists the tasks that have completed some time on the CPU, each with exactly
that time and the greatest time first. A task is missing only behind ten others. -/
theorem profile_reported (k : Kernel β) (T : TaskSet Task) (ds : List (Decision Task))
    (h : Schedule ds) (hbusy : Busy T ds) (htie : ∀ before, before <+: ds → Untied before) :
    let lines := (perftopShow (runSchedule k T ds)).tasks
    (lines.map TaskLine.pid).Nodup ∧ lines.Pairwise (fun l l' => l'.totalTsc < l.totalTsc) ∧
      (∀ l ∈ lines, ∃ u, l.pid = T.pid u ∧ l.totalTsc.toNat = (stayOf ds u).total ∧
        (stayOf ds u).total ≠ 0) ∧
      ∀ u, (stayOf ds u).total ≠ 0 → (∃ l ∈ lines, l.pid = T.pid u) ∨
        lines.length = 10 ∧ ∀ l ∈ lines, (stayOf ds u).total < l.totalTsc.toNat := by
  intro lines
  have htree := (rep_runSchedule (k := k) (T := T) ds).tree
  obtain ⟨printed, hlines, hnodes, hlength, hpids, horder, hrest⟩ := htree.printed
  have he : lines = printed.map RbNode.line := hlines
  rw [he]
  refine ⟨?_, ?_, ?_, ?_⟩
  · rwa [List.map_map]
  · exact List.pairwise_map.mpr horder
  · intro l hl
    obtain ⟨n, hn, rfl⟩ := List.mem_map.mp hl
    exact exists_task h hbusy htie (hnodes n hn)
  · intro u hpos
    obtain ⟨n, hn, hpid, htsc⟩ := exists_node (k := k) h hbusy htie hpos
    by_cases hprinted : n ∈ printed
    · exact .inl ⟨n.line, List.mem_map_of_mem hprinted, hpid⟩
    · right
      constructor
      · have hless := length_lt_of_not_mem (List.Nodup.of_map _ hpids) hnodes hn hprinted
        rw [List.length_map, hlength]
        omega
      · intro l hl
        obtain ⟨m, hm, rfl⟩ := List.mem_map.mp hl
        rw [← htsc]
        exact UInt64.lt_iff_toNat_lt.mp (hrest n hn hprinted m hm)

end Report

/-- Only a task that was taken off has completed some time. -/
theorem mem_prev_of_total {Task : Type*} [DecidableEq Task] {ds : List (Decision Task)} {u : Task}
    (h : (stayOf ds u).total ≠ 0) : u ∈ ds.map Decision.prev := by
  induction ds using List.reverseRecOn with
  | nil => exact absurd rfl h
  | append_singleton ds d ih =>
      rw [List.map_append, List.map_singleton, List.mem_append, List.mem_singleton]
      by_cases hu : d.prev = u
      · exact .inr hu.symm
      · left
        apply ih
        rw [stayOf_concat, Stay.after, if_neg hu] at h
        split_ifs at h
        · exact h
        · exact h
        · exact h

/-- To be untied is decided by the tasks that were taken off. -/
theorem untied_of_prev {Task : Type*} [DecidableEq Task] {ds : List (Decision Task)}
    (h : ∀ u ∈ ds.map Decision.prev, ∀ v ∈ ds.map Decision.prev, (stayOf ds u).total ≠ 0 →
      (stayOf ds u).total = (stayOf ds v).total → u = v) : Untied ds := by
  intro u v hpos he
  exact h u (mem_prev_of_total hpos) v (mem_prev_of_total (he ▸ hpos)) hpos he

/-- Tasks 1, 2 and 3 run for 2, 4 and 7 units. -/
def threeStays : List (Decision ℕ) :=
  [⟨1, 3, 1, none⟩, ⟨3, 1, 2, some 3⟩, ⟨7, 2, 3, none⟩, ⟨14, 3, 1, some 2⟩]

theorem profile_reported_threeStays :
    (perftopShow (runSchedule singleBucket userTasks threeStays)).tasks =
        [⟨3, 7⟩, ⟨2, 4⟩, ⟨1, 2⟩] ∧
      ∀ u, (stayOf threeStays u).total ≠ 0 →
        ∃ l ∈ (perftopShow (runSchedule singleBucket userTasks threeStays)).tasks, l.pid = u := by
  have hlines : (perftopShow (runSchedule singleBucket userTasks threeStays)).tasks =
      [⟨3, 7⟩, ⟨2, 4⟩, ⟨1, 2⟩] := by decide +kernel
  have h : Schedule threeStays := ⟨by decide, by decide, by decide⟩
  have hbusy : Busy userTasks threeStays := by
    unfold Busy
    decide
  have hprefixes : ∀ before ∈ threeStays.inits, ∀ u ∈ before.map Decision.prev,
      ∀ v ∈ before.map Decision.prev, (stayOf before u).total ≠ 0 →
        (stayOf before u).total = (stayOf before v).total → u = v := by decide
  have htie : ∀ before, before <+: threeStays → Untied before := fun before hb =>
    untied_of_prev (hprefixes before ((List.mem_inits before threeStays).mpr hb))
  refine ⟨hlines, fun u hpos => ?_⟩
  rcases (profile_reported singleBucket userTasks threeStays h hbusy htie).2.2.2 u hpos with
    hline | ⟨hten, -⟩
  · exact hline
  · rw [hlines] at hten
    cases hten

end OperatingSystems.Perftop
