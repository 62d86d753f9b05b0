import OperatingSystems.Perftop.Accounts

/-!
# The 64-bit sums do not wrap

A total is never greater than the start time that its pid has, nor than the
latest timestamp. So closing a turn adds to it at most the time since then, and
the new total is at most the current time. Dropped totals and turns opened twice
only make things smaller.
-/
namespace OperatingSystems.Perftop
open Library

structure Bounded (a : Accounts) (latest : UInt64) : Prop where
  starts : ∀ p, a.start p ≤ latest
  totals : ∀ p t, a.total p = some t → t ≤ latest
  pending : ∀ p t, a.total p = some t → a.start p ≠ 0 → t ≤ a.start p

section
variable {a : Accounts} {latest curr : UInt64} {p : ℤ}

theorem Bounded.getD_le (h : Bounded a latest) (hs : a.start p ≠ 0) :
    (a.total p).getD 0 ≤ a.start p := by
  cases ht : a.total p with
  | none => exact UInt64.le_iff_toNat_le.mpr (Nat.zero_le _)
  | some t => exact h.pending p t ht hs

/-- The machine result of `sum + curr - old` is the mathematical one. -/
theorem Bounded.sum_toNat (h : Bounded a latest) (hc : latest ≤ curr) (hs : a.start p ≠ 0) :
    (a.sum p curr).toNat = ((a.total p).getD 0).toNat + (curr.toNat - (a.start p).toNat) ∧
      a.start p ≤ curr ∧ a.sum p curr ≤ curr := by
  have hle := UInt64.le_iff_toNat_le.mp (h.getD_le hs)
  have hold := UInt64.le_iff_toNat_le.mp (UInt64.le_trans (h.starts p) hc)
  have hlt := curr.toNat_lt
  have hsum : (a.sum p curr).toNat =
      ((a.total p).getD 0).toNat + (curr.toNat - (a.start p).toNat) := by
    rw [Accounts.sum, UInt64.toNat_sub, UInt64.toNat_add]
    omega
  refine ⟨hsum, UInt64.le_iff_toNat_le.mpr hold, UInt64.le_iff_toNat_le.mpr ?_⟩
  omega

theorem Bounded.mono (h : Bounded a latest) (hc : latest ≤ curr) : Bounded a curr where
  starts p := UInt64.le_trans (h.starts p) hc
  totals p t ht := UInt64.le_trans (h.totals p t ht) hc
  pending := h.pending

theorem Bounded.switch (h : Bounded a latest) (hc : latest ≤ curr) (q : ℤ) :
    Bounded (a.switch p q curr) curr := by
  have htotals : ∀ r t, (a.switch p q curr).total r = some t → t ≤ curr := by
    intro r t ht
    rcases a.switch_total_cases ht with ⟨-, hs, rfl⟩ | ⟨-, hold⟩
    · exact (h.sum_toNat hc hs).2.2
    · exact UInt64.le_trans (h.totals r t hold) hc
  constructor
  case starts =>
    intro r
    rw [Accounts.switch_start]
    split_ifs
    · exact UInt64.le_refl curr
    · exact UInt64.le_iff_toNat_le.mpr (Nat.zero_le _)
    · exact UInt64.le_trans (h.starts r) hc
  case totals => exact htotals
  case pending =>
    intro r t ht hs
    rw [Accounts.switch_start] at hs ⊢
    split_ifs at hs ⊢ with hq hr
    · exact htotals r t ht
    · exact absurd rfl hs
    · rcases a.switch_total_cases ht with ⟨he, -⟩ | ⟨-, hold⟩
      · exact absurd he hr
      · exact h.pending r t hold hs

end

theorem bounded_init : Bounded Accounts.init 0 where
  starts _ := UInt64.le_refl 0
  totals _ _ ht := absurd ht (by simp [Accounts.init])
  pending _ _ ht := absurd ht (by simp [Accounts.init])

theorem getD_getLast?_le {α : Type*} {time : α → UInt64} {xs : List α} {t : UInt64}
    (h : ∀ x ∈ xs, time x ≤ t) : (xs.getLast?.map time).getD 0 ≤ t := by
  cases hl : xs.getLast? with
  | none => exact UInt64.le_iff_toNat_le.mpr (Nat.zero_le _)
  | some x => exact h x (List.mem_of_getLast? hl)

/-- The time of the last event. -/
def latest {Task : Type*} (evs : List (Event Task)) : UInt64 :=
  (evs.getLast?.map Event.curr).getD 0

theorem latest_le {Task : Type*} {evs : List (Event Task)} {t : UInt64}
    (h : ∀ e ∈ evs, e.curr ≤ t) : latest evs ≤ t := getD_getLast?_le h

theorem lookup_of_mem {β : Type*} {k : Kernel β} {s : State β} (h : ChainsOk k s.myhashtable)
    {b : β} {m : HashNode} (hm : m ∈ s.myhashtable b) : lookupHashTable k s m.value = m.tsc := by
  obtain rfl := h.placed b m hm
  unfold lookupHashTable
  rw [← List.head?_filter, (Container.filter_key_eq (h.unique _) hm).1]
  rfl

section Runs
variable {β : Type*} [DecidableEq β] {Task : Type*} [DecidableEq Task] {k : Kernel β}

theorem bounded_handle {s : State β} {l : UInt64} (hr : Rep k s) (h : Bounded (accounts k s) l)
    (pid : Task → ℤ) {e : Event Task} (hl : l ≤ e.curr) :
    Bounded (accounts k (Event.handle k pid s e)) e.curr := by
  rw [accounts_handle hr]
  cases e.switched pid with
  | none => exact h.mono hl
  | some pq => exact h.switch hl pq.2

theorem bounded_runEvents (pid : Task → ℤ) {evs : List (Event Task)}
    (hmono : evs.Pairwise fun e f => e.curr ≤ f.curr) :
    Bounded (accounts k (runEvents k pid evs)) (latest evs) := by
  induction evs using List.reverseRecOn with
  | nil => exact bounded_init
  | append_singleton evs e ih =>
      obtain ⟨hevs, -, he⟩ := List.pairwise_append.mp hmono
      have hl : latest evs ≤ e.curr := latest_le fun f hf => he f hf e (by simp)
      have hlast : latest (evs ++ [e]) = e.curr := by simp [latest]
      rw [runEvents_concat, hlast]
      exact bounded_handle (rep_runEvents pid evs) (ih hevs) pid hl

end Runs

/-- Neither the sums nor the totals wrap while time does not go back. -/
theorem sums_never_wrap {β : Type*} [DecidableEq β] {Task : Type*} [DecidableEq Task]
    (k : Kernel β) (pid : Task → ℤ) (evs : List (Event Task))
    (hmono : evs.Pairwise fun e f => e.curr ≤ f.curr) (hnz : ∀ e ∈ evs, e.curr ≠ 0) :
    (∀ before e after p q, evs = before ++ e :: after → e.switched pid = some (p, q) →
      let s := runEvents k pid before
      let old := lookupHashTable k s p
      let total := lookupRbTree s p
      old ≠ 0 → old ≤ e.curr ∧
        total.toNat + (e.curr.toNat - old.toNat) ≤ e.curr.toNat ∧
        (total + e.curr - old).toNat = total.toNat + (e.curr.toNat - old.toNat)) ∧
      ∀ n ∈ inorder (runEvents k pid evs).myroot, n.tsc ≤ latest evs ∧
        ∀ b, ∀ m ∈ (runEvents k pid evs).myhashtable b, m.value = n.value → n.tsc ≤ m.tsc := by
  refine ⟨fun before e after p q hsplit _ hold => ?_, fun n hn => ?_⟩
  · subst hsplit
    obtain ⟨hbefore, -, hlast⟩ := List.pairwise_append.mp hmono
    have hl : latest before ≤ e.curr := latest_le fun f hf => hlast f hf e (by simp)
    obtain ⟨hsum, hle, hbound⟩ := (bounded_runEvents (k := k) pid hbefore).sum_toNat hl hold
    have hnat := UInt64.le_iff_toNat_le.mp hbound
    rw [hsum] at hnat
    rw [lookupRbTree_eq]
    exact ⟨hle, hnat, hsum⟩
  · have hrep := rep_runEvents (k := k) pid evs
    have hb := bounded_runEvents (k := k) pid hmono
    have htotal : totalOf (runEvents k pid evs).myroot n.value = some n.tsc :=
      (totalOf_eq_some_iff hrep.tree).mpr ⟨n, hn, rfl, rfl⟩
    refine ⟨hb.totals _ _ htotal, fun b m hm he => ?_⟩
    have hstart := lookup_of_mem hrep.chains hm
    obtain ⟨e, hmem, htsc⟩ := mem_runEvents pid evs hm
    rw [he] at hstart
    have hpending := hb.pending n.value n.tsc htotal
    rw [show (accounts k (runEvents k pid evs)).start n.value = m.tsc from hstart] at hpending
    exact hpending (htsc ▸ hnz e hmem)

/-- Three tasks in turn on one CPU. -/
def threeTasks : List (Event ℕ) :=
  [⟨some 0, some 1, 3⟩, ⟨some 1, some 2, 5⟩, ⟨some 2, some 0, 9⟩, ⟨some 0, some 1, 10⟩]

theorem sums_never_wrap_threeTasks :
    threeTasks.Pairwise (fun e f => e.curr ≤ f.curr) ∧ (∀ e ∈ threeTasks, e.curr ≠ 0) ∧
      ∀ n ∈ inorder (runEvents singleBucket Nat.cast threeTasks).myroot,
        n.tsc ≤ latest threeTasks := by
  have hmono : threeTasks.Pairwise fun e f => e.curr ≤ f.curr := by decide
  have hnz : ∀ e ∈ threeTasks, e.curr ≠ 0 := by decide
  exact ⟨hmono, hnz, fun n hn =>
    ((sums_never_wrap singleBucket Nat.cast threeTasks hmono hnz).2 n hn).1⟩

end OperatingSystems.Perftop
