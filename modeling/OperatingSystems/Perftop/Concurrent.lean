import OperatingSystems.Perftop.Cpus
import OperatingSystems.Perftop.Report
import Mathlib.Algebra.BigOperators.Group.Finset.Piecewise
import Mathlib.Data.BitVec
import Mathlib.Data.List.Sort
import Mathlib.Tactic.Abel

/-!
# Handlers on several CPUs take effect one at a time

A task is on one CPU at a time, so that handlers that run at the same time concern
different pids. Then the tables are at every moment those after the handlers that have
taken effect, run one at a time in that order, but for the entries in the hash table of
a handler that is between two of its steps.
-/
namespace OperatingSystems.Perftop
open Library

variable {β Task ι : Type*}

section Phases
variable (pid : Task → ℤ)

def Phase.pids : Phase Task → List ℤ
  | .idle => []
  | .counted t | .looked t _ | .removed t _ | .closed t | .opened t => t.pids pid

/-- The pids whose entry in the hash table is not what it is after the handlers that have
taken effect. -/
def Phase.stale : Phase Task → List ℤ
  | .removed t _ => [pid t.prev]
  | .closed t => [pid t.next]
  | _ => []

/-- What a handler relies on: `lookup` is the hash table, `start` what it is after the
handlers that have taken effect. -/
def Phase.Holds (lookup start : ℤ → UInt64) : Phase Task → Prop
  | .looked t old => old ≠ 0 ∧ start (pid t.prev) = old
  | .removed t old => old ≠ 0 ∧ start (pid t.prev) = old ∧ lookup (pid t.prev) = 0
  | .closed t => start (pid t.next) = t.curr
  | _ => True

def Event.pids [DecidableEq Task] (e : Event Task) : List ℤ := e.firstPhase.pids pid

/-- A new call concerns other pids than those that run. -/
def Machine.Apart [DecidableEq Task] (m : Machine β Task ι) : CpuStep Task ι → Prop
  | .call _ e => ∀ d, (e.pids pid).Disjoint ((m.cpu d).pids pid)
  | .resume _ => True

theorem Phase.stale_subset (ph : Phase Task) : ph.stale pid ⊆ ph.pids pid := by
  cases ph <;> simp [stale, pids, Turn.pids]

variable {pid}

theorem Phase.Holds.congr {ph : Phase Task} {lookup start lookup' start' : ℤ → UInt64}
    (h : ph.Holds pid lookup start)
    (hl : ∀ r ∈ ph.pids pid, lookup' r = lookup r ∧ start' r = start r) :
    ph.Holds pid lookup' start' := by
  cases ph with
  | idle => trivial
  | counted t => trivial
  | looked t old => exact ⟨h.1, (hl _ (by simp [pids, Turn.pids])).2.trans h.2⟩
  | removed t old =>
      obtain ⟨hl, hs⟩ := hl (pid t.prev) (by simp [pids, Turn.pids])
      exact ⟨h.1, hs.trans h.2.1, hl.trans h.2.2⟩
  | closed t => exact (hl _ (by simp [pids, Turn.pids])).2.trans h
  | opened t => trivial

end Phases

/-- The concurrent machine and the tables after the handlers that have taken effect, one at
a time. -/
structure Linked (k : Kernel β) (pid : Task → ℤ) (m : Machine β Task ι) (s : State β) : Prop where
  tables : Rep k m.tables
  rep : Rep k s
  total : totalOf m.tables.myroot = totalOf s.myroot
  start : ∀ r, (∀ c, r ∉ (m.cpu c).stale pid) →
    lookupHashTable k m.tables r = lookupHashTable k s r
  holds : ∀ c, (m.cpu c).Holds pid (lookupHashTable k m.tables) (lookupHashTable k s)
  apart : ∀ c d, c ≠ d → ((m.cpu c).pids pid).Disjoint ((m.cpu d).pids pid)

section Frame
variable [DecidableEq ι] {k : Kernel β} {pid : Task → ℤ} {m : Machine β Task ι} {s : State β}

theorem Linked.agree (h : Linked k pid m s) {c : ι} {r : ℤ} (hr : r ∈ (m.cpu c).pids pid)
    (hs : r ∉ (m.cpu c).stale pid) : lookupHashTable k m.tables r = lookupHashTable k s r := by
  apply h.start
  intro d hd
  by_cases he : d = c
  · exact hs (he ▸ hd)
  · exact h.apart d c he (Phase.stale_subset pid _ hd) hr

/-- A step of one CPU that changes nothing for pids that are not its own. -/
theorem Linked.frame (h : Linked k pid m s) {c : ι} {ph : Phase Task} {tables s' : State β}
    (hpids : ∀ d, d ≠ c → (ph.pids pid).Disjoint ((m.cpu d).pids pid))
    (hsame : ∀ r, r ∉ ph.pids pid → r ∈ (m.cpu c).stale pid → False)
    (htables : Rep k tables) (hrep : Rep k s') (htotal : totalOf tables.myroot = totalOf s'.myroot)
    (hframe : ∀ r, r ∉ ph.pids pid → lookupHashTable k tables r = lookupHashTable k m.tables r ∧
      lookupHashTable k s' r = lookupHashTable k s r)
    (hown : ∀ r ∈ ph.pids pid, r ∉ ph.stale pid →
      lookupHashTable k tables r = lookupHashTable k s' r)
    (hholds : ph.Holds pid (lookupHashTable k tables) (lookupHashTable k s')) :
    Linked k pid ⟨tables, Function.update m.cpu c ph⟩ s' where
  tables := htables
  rep := hrep
  total := htotal
  start r hr := by
    by_cases hmem : r ∈ ph.pids pid
    · apply hown r hmem
      have hc := hr c
      simpa using hc
    · obtain ⟨hl, hs⟩ := hframe r hmem
      rw [hl, hs]
      apply h.start
      intro d hd
      by_cases he : d = c
      · exact hsame r hmem (he ▸ hd)
      · have hnot := hr d
        simp only [Function.update_of_ne he] at hnot
        exact hnot hd
  holds d := by
    by_cases he : d = c
    · subst he
      simpa using hholds
    · simp only [Function.update_of_ne he]
      exact (h.holds d).congr fun r hr => hframe r fun hmem => hpids d he hmem hr
  apart d e hde := by
    by_cases hd : d = c
    · subst hd
      simp only [Function.update_self, Function.update_of_ne (Ne.symm hde)]
      exact hpids e (Ne.symm hde)
    · by_cases he : e = c
      · subst he
        simp only [Function.update_self, Function.update_of_ne hd]
        exact (hpids d hd).symm
      · simp only [Function.update_of_ne hd, Function.update_of_ne he]
        exact h.apart d e hde

end Frame

section Handlers
variable [DecidableEq β] {k : Kernel β} {pid : Task → ℤ}

omit [DecidableEq β] in
theorem totalOf_chargeTree {s : State β} (h : TreeOk s.myroot) (p : ℤ) (curr old : UInt64) :
    totalOf (chargeTree k s p curr old).myroot =
      Accounts.addTotal (Function.update (totalOf s.myroot) p none) p
        ((totalOf s.myroot p).getD 0 + curr - old) := by
  have htotal := totalOf_removeRbTree (k := k) h p
  have hremoved : TreeOk (removeRbTree k s p).myroot := h.erased (inorder_removeRbTree h p)
  unfold chargeTree insertRedblackTrees
  simp only [lookupRbTree_eq]
  rw [totalOf_insertRbTree hremoved (by rw [htotal]; exact Function.update_self ..), htotal]

omit [DecidableEq β] in
theorem Rep.chargeTree {s : State β} (h : Rep k s) (p : ℤ) (curr old : UInt64) :
    Rep k (chargeTree k s p curr old) where
  chains := h.chains
  tree := by
    have he := inorder_removeRbTree (k := k) h.tree p
    apply (h.tree.erased he).insertRbTree
    intro y hy
    rw [he] at hy
    simpa using (List.mem_filter.mp hy).2

variable [DecidableEq Task]

theorem accounts_event (pid : Task → ℤ) {s : State β} (h : Rep k s) (t : Turn Task) :
    accounts k (Event.handle k pid s t.event) =
      (accounts k s).switch (pid t.prev) (pid t.next) t.curr := by
  have hs : t.event.switched pid = some (pid t.prev, pid t.next) := by
    simp only [Turn.event, Event.switched, if_pos t.switched]
  have ha := accounts_handle h pid t.event
  rw [hs] at ha
  exact ha

theorem lookup_event (pid : Task → ℤ) {s : State β} (h : Rep k s) (t : Turn Task) (r : ℤ) :
    lookupHashTable k (Event.handle k pid s t.event) r =
      if r = pid t.next then t.curr else if r = pid t.prev then 0 else lookupHashTable k s r := by
  have ha := congrArg (fun a => a.start r) (accounts_event pid h t)
  rw [Accounts.switch_start] at ha
  exact ha

theorem totalOf_event (pid : Task → ℤ) {s : State β} (h : Rep k s) (t : Turn Task) :
    totalOf (Event.handle k pid s t.event).myroot =
      if lookupHashTable k s (pid t.prev) ≠ 0 then
        Accounts.addTotal (Function.update (totalOf s.myroot) (pid t.prev) none) (pid t.prev)
          ((totalOf s.myroot (pid t.prev)).getD 0 + t.curr - lookupHashTable k s (pid t.prev))
      else totalOf s.myroot := by
  have ha := congrArg Accounts.total (accounts_event pid h t)
  rw [Accounts.switch_total] at ha
  exact ha

theorem postCount_event (s : State β) (t : Turn Task) :
    (Event.handle k pid s t.event).postCount = s.postCount + 1 := by
  rw [handle_event]
  unfold switchTables
  dsimp only
  split_ifs <;> rfl

theorem contextSwitchCount_event (s : State β) (t : Turn Task) :
    (Event.handle k pid s t.event).contextSwitchCount = s.contextSwitchCount + 1 := by
  rw [handle_event]
  unfold switchTables
  dsimp only
  split_ifs <;> rfl

end Handlers

section Unchanged
variable {k : Kernel β} {pid : Task → ℤ} {m : Machine β Task ι} {s : State β}

theorem Linked.disjoint (h : Linked k pid m s) {c : ι} {ph ph' : Phase Task}
    (hc : m.cpu c = ph) (hsame : ph'.pids pid = ph.pids pid) (d : ι) (hd : d ≠ c) :
    (ph'.pids pid).Disjoint ((m.cpu d).pids pid) := by
  rw [hsame, ← hc]
  exact h.apart c d (Ne.symm hd)

theorem Turn.not_mem_pids {t : Turn Task} {r : ℤ} :
    r ∉ t.pids pid ↔ r ≠ pid t.prev ∧ r ≠ pid t.next := by
  simp [Turn.pids]

variable [DecidableEq ι]

theorem Linked.call [DecidableEq Task] (h : Linked k pid m s) {c : ι}
    (hidle : m.cpu c = .idle) {e : Event Task}
    (hapart : ∀ d, (e.pids pid).Disjoint ((m.cpu d).pids pid)) {s' : State β} (hrep : Rep k s')
    (htotal : totalOf s'.myroot = totalOf s.myroot)
    (hstart : lookupHashTable k s' = lookupHashTable k s) :
    Linked k pid ⟨{ m.tables with postCount := m.tables.postCount + 1 },
      Function.update m.cpu c e.firstPhase⟩ s' := by
  apply h.frame
  · exact fun d _ => hapart d
  · intro r _ hr
    simp [hidle, Phase.stale] at hr
  · exact ⟨h.tables.chains, h.tables.tree⟩
  · exact hrep
  · exact h.total.trans htotal.symm
  · exact fun r _ => ⟨rfl, by rw [hstart]⟩
  · intro r hr _
    rw [hstart]
    apply h.start
    intro d hd
    exact hapart d hr (Phase.stale_subset pid _ hd)
  · unfold Event.firstPhase
    cases e.turn <;> trivial

/-- The lookup found a time: nothing has changed. -/
theorem Linked.look (h : Linked k pid m s) {c : ι} {t : Turn Task} (hc : m.cpu c = .counted t)
    (hold : lookupHashTable k m.tables (pid t.prev) ≠ 0) :
    Linked k pid ⟨m.tables, Function.update m.cpu c
      (.looked t (lookupHashTable k m.tables (pid t.prev)))⟩ s := by
  have hagree : ∀ r ∈ t.pids pid, lookupHashTable k m.tables r = lookupHashTable k s r := by
    intro r hr
    exact h.agree (c := c) (by rwa [hc]) (by simp [hc, Phase.stale])
  apply h.frame
  · exact h.disjoint hc rfl
  · simp [hc, Phase.stale]
  · exact h.tables
  · exact h.rep
  · exact h.total
  · exact fun r _ => ⟨rfl, rfl⟩
  · exact fun r hr _ => hagree r hr
  · exact ⟨hold, (hagree _ (by simp [Turn.pids])).symm⟩

theorem Linked.leave (h : Linked k pid m s) {c : ι} {t : Turn Task} (hc : m.cpu c = .opened t) :
    Linked k pid ⟨{ m.tables with contextSwitchCount := m.tables.contextSwitchCount + 1 },
      Function.update m.cpu c .idle⟩ s := by
  apply h.frame
  · simp [Phase.pids]
  · simp [hc, Phase.stale]
  · exact ⟨h.tables.chains, h.tables.tree⟩
  · exact h.rep
  · exact h.total
  · exact fun r _ => ⟨rfl, rfl⟩
  · simp [Phase.pids]
  · trivial

end Unchanged

section Step
variable [DecidableEq β] [DecidableEq Task] [DecidableEq ι] {k : Kernel β} {pid : Task → ℤ}
  {m : Machine β Task ι} {s : State β} {c : ι} {t : Turn Task} {old : UInt64}

/-- The lookup found none: the handler takes effect, though `next` is not entered yet. -/
theorem Linked.skip (h : Linked k pid m s) (hc : m.cpu c = .counted t)
    (hold : lookupHashTable k m.tables (pid t.prev) = 0) :
    Linked k pid ⟨m.tables, Function.update m.cpu c (.closed t)⟩
      (Event.handle k pid s t.event) := by
  have hagree : ∀ r ∈ t.pids pid, lookupHashTable k m.tables r = lookupHashTable k s r := by
    intro r hr
    exact h.agree (c := c) (by rwa [hc]) (by simp [hc, Phase.stale])
  have hnone : lookupHashTable k s (pid t.prev) = 0 := by
    rw [← hagree _ (by simp [Turn.pids]), hold]
  have hevent := lookup_event pid h.rep t
  apply h.frame
  · exact h.disjoint hc rfl
  · simp [hc, Phase.stale]
  · exact h.tables
  · exact h.rep.handle pid t.event
  · rw [totalOf_event pid h.rep, hnone, if_neg (by simp)]
    exact h.total
  · intro r hr
    obtain ⟨hprev, hnext⟩ := Turn.not_mem_pids.mp hr
    exact ⟨rfl, by rw [hevent, if_neg hnext, if_neg hprev]⟩
  · intro r hr hs
    have hnext : r ≠ pid t.next := by simpa [Phase.stale] using hs
    rw [hevent, if_neg hnext, hagree r hr]
    split_ifs with hprev
    · rw [hprev, hnone]
    · rfl
  · exact (hevent _).trans (if_pos rfl)

omit [DecidableEq Task] in
theorem Linked.remove (h : Linked k pid m s) (hc : m.cpu c = .looked t old) :
    Linked k pid ⟨removeHashTable k m.tables (pid t.prev),
      Function.update m.cpu c (.removed t old)⟩ s := by
  have hlookup := lookup_removeHashTable h.tables.chains (pid t.prev)
  have hholds : old ≠ 0 ∧ lookupHashTable k s (pid t.prev) = old := by
    have hc' := h.holds c
    rwa [hc] at hc'
  apply h.frame
  · exact h.disjoint hc rfl
  · simp [hc, Phase.stale]
  · exact ⟨h.tables.chains.removeHashTable _, h.tables.tree⟩
  · exact h.rep
  · exact h.total
  · intro r hr
    exact ⟨by rw [hlookup, if_neg (Turn.not_mem_pids.mp hr).1], rfl⟩
  · intro r hr hs
    have hprev : r ≠ pid t.prev := by simpa [Phase.stale] using hs
    rw [hlookup, if_neg hprev]
    exact h.agree (c := c) (by rwa [hc]) (by simp [hc, Phase.stale])
  · exact ⟨hholds.1, hholds.2, (hlookup _).trans (if_pos rfl)⟩

/-- The locked part: the handler takes effect. -/
theorem Linked.charge (h : Linked k pid m s) (hc : m.cpu c = .removed t old) :
    Linked k pid ⟨chargeTree k m.tables (pid t.prev) t.curr old,
      Function.update m.cpu c (.closed t)⟩ (Event.handle k pid s t.event) := by
  have hholds : old ≠ 0 ∧ lookupHashTable k s (pid t.prev) = old ∧
      lookupHashTable k m.tables (pid t.prev) = 0 := by
    have hc' := h.holds c
    rwa [hc] at hc'
  obtain ⟨hold, hstart, hgone⟩ := hholds
  have hevent := lookup_event pid h.rep t
  apply h.frame
  · exact h.disjoint hc rfl
  · intro r hr hs
    simp only [hc, Phase.stale, List.mem_singleton] at hs
    exact (Turn.not_mem_pids.mp hr).1 hs
  · exact h.tables.chargeTree _ _ _
  · exact h.rep.handle pid t.event
  · rw [totalOf_event pid h.rep, totalOf_chargeTree h.tables.tree, hstart, if_pos hold, h.total]
  · intro r hr
    obtain ⟨hprev, hnext⟩ := Turn.not_mem_pids.mp hr
    exact ⟨rfl, by rw [hevent, if_neg hnext, if_neg hprev]⟩
  · intro r hr hs
    have hnext : r ≠ pid t.next := by simpa [Phase.stale] using hs
    rw [hevent, if_neg hnext]
    split_ifs with hprev
    · rw [hprev]
      exact hgone
    · exact h.agree (c := c) (by rwa [hc]) (by simpa [hc, Phase.stale] using hprev)
  · exact (hevent _).trans (if_pos rfl)

omit [DecidableEq Task] in
theorem Linked.open (h : Linked k pid m s) (hc : m.cpu c = .closed t) :
    Linked k pid ⟨insertHashTable k m.tables (pid t.next) t.curr,
      Function.update m.cpu c (.opened t)⟩ s := by
  have hlookup := fun r => lookup_insertHashTable h.tables.chains (pid t.next) r t.curr
  have hholds : lookupHashTable k s (pid t.next) = t.curr := by
    have hc' := h.holds c
    rwa [hc] at hc'
  apply h.frame
  · exact h.disjoint hc rfl
  · intro r hr hs
    simp only [hc, Phase.stale, List.mem_singleton] at hs
    exact (Turn.not_mem_pids.mp hr).2 hs
  · exact ⟨h.tables.chains.insertHashTable _ _, h.tables.tree⟩
  · exact h.rep
  · exact h.total
  · intro r hr
    exact ⟨by rw [hlookup, if_neg (Turn.not_mem_pids.mp hr).2], rfl⟩
  · intro r hr _
    rw [hlookup]
    split_ifs with hnext
    · rw [hnext, hholds]
    · exact h.agree (c := c) (by rwa [hc]) (by simpa [hc, Phase.stale] using hnext)
  · trivial

/-- The handlers that have taken effect, one at a time, keep up with every step. -/
theorem Linked.step (h : Linked k pid m s) {a : CpuStep Task ι} (hapart : m.Apart pid a)
    {m' : Machine β Task ι} (ha : m.step k pid a = some m') :
    Linked k pid m' ((m.commit k pid a).foldl (fun s x => Event.handle k pid s x.2) s) := by
  cases a with
  | call c e =>
      obtain ⟨hidle, rfl⟩ := step_call ha
      cases ht : e.turn with
      | none =>
          simp only [Machine.commit, ht, Option.isNone_none, if_pos, List.foldl_cons,
            List.foldl_nil]
          rw [handle_of_no_turn ht]
          exact h.call hidle hapart ⟨h.rep.chains, h.rep.tree⟩ rfl rfl
      | some t =>
          simp only [Machine.commit, ht, Option.isNone_some]
          exact h.call hidle hapart h.rep rfl rfl
  | resume c =>
      obtain ⟨ph, tables, hr, rfl⟩ := step_resume ha
      cases hc : m.cpu c with
      | idle => simp [hc, Phase.resume] at hr
      | counted t =>
          simp only [hc, Phase.resume, Option.some.injEq, Prod.mk.injEq] at hr
          obtain ⟨rfl, rfl⟩ := hr
          simp only [Machine.commit, hc, Phase.commit]
          by_cases hold : lookupHashTable k m.tables (pid t.prev) = 0
          · simp only [hold, ne_eq, not_true_eq_false, if_false]
            exact h.skip hc hold
          · simp only [hold, ne_eq, not_false_eq_true, if_true]
            exact h.look hc hold
      | looked t old =>
          rw [hc] at hr
          obtain ⟨rfl, rfl⟩ := Prod.mk.inj (Option.some.inj hr)
          simp only [Machine.commit, hc, Phase.commit]
          exact h.remove hc
      | removed t old =>
          rw [hc] at hr
          obtain ⟨rfl, rfl⟩ := Prod.mk.inj (Option.some.inj hr)
          simp only [Machine.commit, hc, Phase.commit]
          exact h.charge hc
      | closed t =>
          rw [hc] at hr
          obtain ⟨rfl, rfl⟩ := Prod.mk.inj (Option.some.inj hr)
          simp only [Machine.commit, hc, Phase.commit]
          exact h.open hc
      | opened t =>
          rw [hc] at hr
          obtain ⟨rfl, rfl⟩ := Prod.mk.inj (Option.some.inj hr)
          simp only [Machine.commit, hc, Phase.commit]
          exact h.leave hc

end Step

section Counters
variable [Fintype ι] [DecidableEq ι]

/-- A call is counted before the handler takes effect, and a switch after it. -/
structure Counted (m : Machine β Task ι) (s : State β) : Prop where
  post : m.tables.postCount = s.postCount + ∑ c, ((m.cpu c).waiting.length : BitVec 32)
  switches : s.contextSwitchCount =
    m.tables.contextSwitchCount + ∑ c, ((m.cpu c).uncounted.length : BitVec 32)

theorem sum_update (f : Phase Task → BitVec 32) (cpu : ι → Phase Task) (c : ι) (ph : Phase Task) :
    ∑ d, f (Function.update cpu c ph d) = (∑ d, f (cpu d)) - f (cpu c) + f ph := by
  have hrest : ∑ d ∈ Finset.univ \ {c}, f (Function.update cpu c ph d) =
      ∑ d ∈ Finset.univ \ {c}, f (cpu d) := by
    apply Finset.sum_congr rfl
    intro d hd
    have hne : d ≠ c := by simpa using hd
    rw [Function.update_of_ne hne]
  rw [Finset.sum_eq_add_sum_sdiff_singleton_of_mem (Finset.mem_univ c),
    Finset.sum_eq_add_sum_sdiff_singleton_of_mem (Finset.mem_univ c) fun d => f (cpu d), hrest,
    Function.update_self]
  abel

variable [DecidableEq β] [DecidableEq Task] {k : Kernel β} {pid : Task → ℤ}
  {m : Machine β Task ι} {s : State β}

theorem Phase.counters_resume {ph ph' : Phase Task} {tables tables' : State β}
    (h : ph.resume k pid tables = some (ph', tables')) (s : State β) :
    let commit := ph.commit k pid tables
    let s' := commit.foldl (Event.handle k pid) s
    tables'.postCount = tables.postCount ∧
      s'.postCount = s.postCount + (commit.length : BitVec 32) ∧
      s'.contextSwitchCount = s.contextSwitchCount + (commit.length : BitVec 32) ∧
      tables'.contextSwitchCount + (ph'.uncounted.length : BitVec 32) =
        tables.contextSwitchCount + ph.uncounted.length + (commit.length : BitVec 32) := by
  cases ph with
  | idle => cases h
  | counted t =>
      simp only [resume, Option.some.injEq, Prod.mk.injEq] at h
      obtain ⟨rfl, rfl⟩ := h
      by_cases hold : lookupHashTable k tables (pid t.prev) = 0 <;>
        simp [commit, hold, uncounted, postCount_event, contextSwitchCount_event]
  | looked t old =>
      obtain ⟨rfl, rfl⟩ := Prod.mk.inj (Option.some.inj h)
      simp [commit, uncounted, removeHashTable]
  | removed t old =>
      obtain ⟨rfl, rfl⟩ := Prod.mk.inj (Option.some.inj h)
      simp [commit, uncounted, postCount_event, contextSwitchCount_event, chargeTree,
        insertRedblackTrees, removeRbTree]
  | closed t =>
      obtain ⟨rfl, rfl⟩ := Prod.mk.inj (Option.some.inj h)
      simp [commit, uncounted, insertHashTable, removeHashTable]
  | opened t =>
      obtain ⟨rfl, rfl⟩ := Prod.mk.inj (Option.some.inj h)
      simp [commit, uncounted]

theorem Counted.step (h : Counted m s) {a : CpuStep Task ι} {m' : Machine β Task ι}
    (ha : m.step k pid a = some m') :
    Counted m' ((m.commit k pid a).foldl (fun s x => Event.handle k pid s x.2) s) := by
  obtain ⟨hpost, hswitches⟩ := h
  have hwaiting := sum_update (fun ph : Phase Task => (ph.waiting.length : BitVec 32)) m.cpu
  have huncounted := sum_update (fun ph : Phase Task => (ph.uncounted.length : BitVec 32)) m.cpu
  cases a with
  | call c e =>
      obtain ⟨hidle, rfl⟩ := step_call ha
      cases ht : e.turn with
      | none =>
          simp only [Machine.commit, ht, Option.isNone_none, if_pos, List.foldl_cons,
            List.foldl_nil, handle_of_no_turn ht, Event.firstPhase]
          constructor
          · rw [hwaiting, hidle, hpost, sub_add_cancel, add_right_comm]
          · rw [huncounted, hidle, sub_add_cancel, hswitches]
      | some t =>
          simp only [Machine.commit, ht, Option.isNone_some, Event.firstPhase, Bool.false_eq_true,
            if_false, List.foldl_nil]
          constructor
          · rw [hwaiting, hidle, hpost]
            simp only [Phase.waiting, List.length_nil, List.length_singleton, Nat.cast_zero,
              Nat.cast_one, sub_zero]
            exact add_assoc _ _ _
          · rw [huncounted, hidle, hswitches]
            simp only [Phase.uncounted, List.length_nil, Nat.cast_zero, sub_zero, add_zero]
  | resume c =>
      obtain ⟨ph, tables, hr, rfl⟩ := step_resume ha
      obtain ⟨htables, hs, hs', hcount⟩ := Phase.counters_resume hr s
      have hlength := congrArg List.length (Phase.waiting_resume hr)
      rw [List.length_append] at hlength
      simp only [Machine.commit, List.foldl_map]
      constructor
      · rw [hwaiting, htables, hs, hpost, hlength, Nat.cast_add]
        abel
      · rw [huncounted, hs', hswitches]
        dsimp only
        rw [add_comm _ (ph.uncounted.length : BitVec 32), ← add_assoc, hcount]
        abel

end Counters

theorem printRbTree_congr {root root' : BinaryTree RbNode} (h : TreeOk root) (h' : TreeOk root')
    (ht : totalOf root = totalOf root') : printRbTree root = printRbTree root' := by
  have hlines : (inorder root).map RbNode.line = (inorder root').map RbNode.line := by
    have hsorted : ∀ {t : BinaryTree RbNode}, TreeOk t → ((inorder t).map RbNode.line).Pairwise
        fun l l' => l.totalTsc.toNat < l'.totalTsc.toNat :=
      fun ht => List.pairwise_map.mpr ht.sorted
    have hmem : ∀ {t : BinaryTree RbNode}, TreeOk t → ∀ l : TaskLine,
        l ∈ (inorder t).map RbNode.line ↔ totalOf t l.pid = some l.totalTsc := by
      intro t ht l
      rw [totalOf_eq_some_iff ht, List.mem_map]
      constructor
      · rintro ⟨n, hn, rfl⟩
        exact ⟨n, hn, rfl, rfl⟩
      · rintro ⟨n, hn, hv, hs⟩
        exact ⟨n, hn, by rw [RbNode.line, hv, hs]⟩
    apply (hsorted h).eq_of_mem_iff (hsorted h')
    intro l
    rw [hmem h, hmem h', ht]
  rw [printRbTree_eq, printRbTree_eq, List.map_take, List.map_take, List.map_reverse,
    List.map_reverse, hlines]

theorem linked_init (k : Kernel β) (pid : Task → ℤ) :
    Linked k pid (Machine.init : Machine β Task ι) State.init where
  tables := rep_init
  rep := rep_init
  total := rfl
  start _ _ := rfl
  holds _ := trivial
  apart _ _ _ := List.disjoint_nil_left _

theorem counted_init [Fintype ι] :
    Counted (Machine.init : Machine β Task ι) (State.init : State β) where
  post := by simp [Machine.init, State.init, Phase.waiting]
  switches := by simp [Machine.init, State.init, Phase.uncounted]

section Runs
variable [DecidableEq β] [DecidableEq Task] [Fintype ι] [DecidableEq ι] (k : Kernel β)
  (pid : Task → ℤ)

/-- The handlers in the order in which they take effect. -/
def linearOrder (acts : List (CpuStep Task ι)) : List (ι × Event Task) :=
  committed (Machine.step k pid) (Machine.commit k pid) Machine.init acts

variable {k pid}

theorem linked_run {acts : List (CpuStep Task ι)} {m : Machine β Task ι}
    (h : GuardedRun (Machine.step k pid) (Machine.Apart pid) Machine.init acts m) :
    Linked k pid m (runEvents k pid ((linearOrder k pid acts).map Prod.snd)) ∧
      Counted m (runEvents k pid ((linearOrder k pid acts).map Prod.snd)) := by
  have hrun := h.linearized (Machine.commit k pid) (fun s x => Event.handle k pid s x.2)
    (R := fun m s => Linked k pid m s ∧ Counted m s) ⟨linked_init k pid, counted_init⟩
    fun m m' s a hR hg ha => ⟨hR.1.step hg ha, hR.2.step ha⟩
  rw [runEvents, List.foldl_map]
  exact hrun

variable (k pid)

theorem handlers_linearize {acts : List (CpuStep Task ι)} {m : Machine β Task ι}
    (h : GuardedRun (Machine.step k pid) (Machine.Apart pid) Machine.init acts m) :
    let order := linearOrder k pid acts
    let s := runEvents k pid (order.map Prod.snd)
    (∀ c, (acts.flatMap CpuStep.begun).filter (fun x => x.1 = c) =
      order.filter (fun x => x.1 = c) ++ (m.cpu c).waiting.map (Prod.mk c)) ∧
    (perftopShow m.tables).tasks = (perftopShow s).tasks ∧
    ((∀ c, m.cpu c = .idle) →
      (perftopShow m.tables).postCount = (perftopShow s).postCount ∧
      (perftopShow m.tables).contextSwitches = (perftopShow s).contextSwitches ∧
      ∀ p, lookupHashTable k m.tables p = lookupHashTable k s p) := by
  intro order s
  obtain ⟨hlinked, hcounted⟩ := linked_run h
  refine ⟨?_, ?_, ?_⟩
  · intro c
    exact h.committed_in_order _ (fun m => (m.cpu c).waiting.map (Prod.mk c)) rfl
      fun m m' a _ ha => waiting_step ha c
  · exact printRbTree_congr hlinked.tables.tree hlinked.rep.tree hlinked.total
  · intro hidle
    have hpost := hcounted.post
    have hswitches := hcounted.switches
    simp only [hidle, Phase.waiting, Phase.uncounted, List.length_nil, Nat.cast_zero,
      Finset.sum_const_zero, add_zero] at hpost hswitches
    refine ⟨congrArg BitVec.toInt hpost, congrArg BitVec.toInt hswitches.symm, ?_⟩
    intro p
    apply hlinked.start
    intro c
    simp [hidle, Phase.stale]

end Runs

instance [DecidableEq Task] [Fintype ι] (pid : Task → ℤ) (m : Machine β Task ι) :
    DecidablePred (m.Apart pid)
  | .call _ e => decidable_of_iff (∀ d, ∀ r ∈ e.pids pid, r ∉ (m.cpu d).pids pid) Iff.rfl
  | .resume _ => isTrue trivial

/-- Two CPUs in turn; the second takes the lock first. -/
def twoCpus : List (CpuStep ℕ Bool) :=
  [.call false ⟨some 1, some 2, 5⟩, .call true ⟨some 3, some 4, 6⟩, .resume true, .resume false,
    .resume true, .resume false, .resume true, .resume false,
    .call false ⟨some 2, some 1, 9⟩, .resume false, .call true ⟨some 4, some 3, 12⟩, .resume true,
    .resume false, .resume true, .resume true, .resume false]

theorem handlers_linearize_twoCpus :
    ∃ m, GuardedRun (Machine.step singleBucket Int.ofNat) (Machine.Apart Int.ofNat) Machine.init
        twoCpus m ∧
      (perftopShow m.tables).tasks = (perftopShow (runEvents singleBucket Int.ofNat
        ((linearOrder singleBucket Int.ofNat twoCpus).map Prod.snd))).tasks := by
  have hsome : (runActions (guardedStep (Machine.step singleBucket Int.ofNat)
      (Machine.Apart Int.ofNat)) Machine.init twoCpus).isSome := by decide +kernel
  obtain ⟨m, hm⟩ := Option.isSome_iff_exists.mp hsome
  have hrun := GuardedRun.of_runActions hm
  exact ⟨m, hrun, (handlers_linearize singleBucket Int.ofNat hrun).2.1⟩

end OperatingSystems.Perftop
