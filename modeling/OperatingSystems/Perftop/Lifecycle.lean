import OperatingSystems.Library.GuardedRun
import OperatingSystems.Perftop.Ownership

/-!
# Loading and unloading the module

`perftop_init` makes the entry in `/proc` before it registers the probe, and returns
without removing the entry if that fails. `perftop_exit` removes the entry and the
probe and then empties the tables: of the hash table it walks the bucket of key 0
only, and that walk ends at the first node it has erased.

The static tables of a loaded module start out empty. `remains` keeps the tables as
every unload has left them, since the nodes in them are then out of reach. The walk
of the hash table ends where `hash_del` has cleared the link of the erased node, and
`rb_next` of an erased first node is the next one in order: `Walks` states this.
-/
namespace OperatingSystems.Perftop
open Library

structure Walks {β : Type*} (k : Kernel β) : Prop where
  hashEnds : ∀ x xs, k.hashWalk.resume x xs = []
  treeGoesOn : ∀ x xs, (∀ y ∈ xs, RbNode.key x < RbNode.key y) → k.treeWalk.resume x xs = xs

structure Module (β : Type*) where
  loaded : Bool
  procEntry : Bool
  probe : Bool
  tables : State β
  remains : List (State β)

/-- `load` is given the result of `register_kretprobe`. -/
inductive ModuleAction (Task : Type*) where
  | load (ret : ℤ)
  | event (e : Event Task)
  | unload

def State.Emptied {β : Type*} (s : State β) : Prop :=
  (∀ b, s.myhashtable b = []) ∧ inorder s.myroot = []

/-- A node of the tables is at this address. -/
def State.Links {β : Type*} (s : State β) (a : ℕ) : Prop :=
  (∃ b, a ∈ (s.myhashtable b).map HashNode.addr) ∨ a ∈ (inorder s.myroot).map RbNode.addr

/-- Nothing of the module is left. -/
structure Module.Clean {β : Type*} (m : Module β) : Prop where
  procEntry : m.procEntry = false
  probe : m.probe = false
  remains : ∀ s ∈ m.remains, s.Emptied

section Operations
variable {β : Type*} [DecidableEq β] {Task : Type*} [DecidableEq Task] (k : Kernel β)

def removeHashTableAll (s : State β) : State β :=
  let (bucket, erased) := Container.chain.eraseWalk k.hashWalk (fun _ : HashNode => true)
    (s.myhashtable (k.hash 0))
  { s with
    myhashtable := Function.update s.myhashtable (k.hash 0) bucket
    freed := s.freed ++ erased.map HashNode.addr }

def removeRbTreeAll (s : State β) : State β :=
  let (root, erased) := k.rb.container.eraseWalk k.treeWalk (fun _ : RbNode => true) s.myroot
  { s with
    myroot := root
    freed := s.freed ++ erased.map RbNode.addr }

def Module.start : Module β := ⟨false, false, false, State.init, []⟩

/-- The module and the result. A second `proc_create` leaves the entry of the first. -/
def perftopInit (m : Module β) (ret : ℤ) : Module β × ℤ :=
  let m := { m with procEntry := true, tables := State.init }
  if ret < 0 then (m, -1) else ({ m with probe := true }, 0)

def perftopExit (m : Module β) : Module β :=
  let m := { m with procEntry := false, probe := false }
  { m with tables := removeRbTreeAll k (removeHashTableAll k m.tables) }

/-- A module whose `perftop_init` fails is not loaded. -/
def Module.step (pid : Task → ℤ) (m : Module β) : ModuleAction Task → Option (Module β)
  | .load ret =>
      if m.loaded then none else
        let (m, result) := perftopInit m ret
        some { m with loaded := 0 ≤ result }
  | .event e =>
      if m.loaded then some { m with tables := e.handle k pid m.tables } else none
  | .unload =>
      if m.loaded then
        let m := perftopExit k m
        some { m with loaded := false, remains := m.remains ++ [m.tables] }
      else none

/-- The hash table has at most one node, in the bucket that is walked at exit. -/
def State.OneReached (s : State β) : Prop :=
  (∀ b, b ≠ k.hash 0 → s.myhashtable b = []) ∧ (s.myhashtable (k.hash 0)).length ≤ 1

/-- The probe is registered, and an unload finds one node at most, where it looks. -/
def ModuleAction.Tidy (m : Module β) : ModuleAction Task → Prop
  | .load ret => 0 ≤ ret
  | .event _ => True
  | .unload => m.tables.OneReached k

end Operations

section Emptying
variable {β : Type*} [DecidableEq β] {k : Kernel β} {s : State β}

theorem removeHashTableAll_table (hk : Walks k) (b : β) :
    (removeHashTableAll k s).myhashtable b =
      if b = k.hash 0 then (s.myhashtable (k.hash 0)).tail else s.myhashtable b := by
  have hbucket : (Container.chain.eraseWalk k.hashWalk (fun _ : HashNode => true)
      (s.myhashtable (k.hash 0))).1 = (s.myhashtable (k.hash 0)).tail :=
    Container.eraseWalk_first (C := Container.chain) hk.hashEnds _
  unfold removeHashTableAll
  dsimp only
  rw [hbucket, Function.update_apply]

theorem hashTable_emptied_iff (hk : Walks k) :
    (∀ b, (removeHashTableAll k s).myhashtable b = []) ↔ s.OneReached k := by
  simp only [removeHashTableAll_table hk]
  constructor
  · intro h
    constructor
    · intro b hb
      have hempty := h b
      rwa [if_neg hb] at hempty
    · have hempty := h (k.hash 0)
      rw [if_pos rfl] at hempty
      have hlength := congrArg List.length hempty
      rw [List.length_tail, List.length_nil] at hlength
      omega
  · rintro ⟨hothers, hone⟩ b
    split_ifs with hb
    · apply List.eq_nil_of_length_eq_zero
      rw [List.length_tail]
      omega
    · exact hothers b hb

omit [DecidableEq β] in
theorem inorder_removeRbTreeAll (hk : Walks k) (h : TreeOk s.myroot) :
    inorder (removeRbTreeAll k s).myroot = [] :=
  Container.eraseWalk_all (C := k.rb.container) hk.treeGoesOn h.sorted

theorem perftopExit_emptied_iff (hk : Walks k) {m : Module β} (h : TreeOk m.tables.myroot) :
    (perftopExit k m).tables.Emptied ↔ m.tables.OneReached k := by
  have htree : inorder (perftopExit k m).tables.myroot = [] :=
    inorder_removeRbTreeAll (s := removeHashTableAll k m.tables) hk h
  rw [State.Emptied, and_iff_left htree]
  exact hashTable_emptied_iff hk

/-- The nodes that the walk of the table has erased. -/
theorem removeHashTableAll_moves (k : Kernel β) (s : State β) :
    (ledger s).Moves (ledger (removeHashTableAll k s)) (.bucket (k.hash 0)) .freed
      ((Container.chain.eraseWalk k.hashWalk (fun _ : HashNode => true)
        (s.myhashtable (k.hash 0))).2.map HashNode.addr) where
  issued := rfl
  source := by
    have hperm := Container.eraseWalk_perm (C := Container.chain) (w := k.hashWalk)
      (fun _ : HashNode => true) (s.myhashtable (k.hash 0))
    have haddr := hperm.map HashNode.addr
    rw [List.map_append] at haddr
    simp only [ledger, removeHashTableAll, Function.update_self]
    exact haddr
  target := List.perm_append_comm
  frame holder hb hf := by
    cases holder with
    | bucket b =>
        have hne : b ≠ k.hash 0 := fun he => hb (congrArg Holder.bucket he)
        simp only [ledger, removeHashTableAll, Function.update_of_ne hne]
    | tree => rfl
    | freed => exact absurd rfl hf

omit [DecidableEq β] in
theorem removeRbTreeAll_moves (k : Kernel β) (s : State β) :
    (ledger s).Moves (ledger (removeRbTreeAll k s)) .tree .freed
      ((k.rb.container.eraseWalk k.treeWalk (fun _ : RbNode => true) s.myroot).2.map
        RbNode.addr) where
  issued := rfl
  source := by
    have hperm := Container.eraseWalk_perm (C := k.rb.container) (w := k.treeWalk)
      (fun _ : RbNode => true) s.myroot
    have haddr := hperm.map RbNode.addr
    rw [List.map_append] at haddr
    exact haddr
  target := List.perm_append_comm
  frame holder ht hf := by
    cases holder with
    | bucket b => rfl
    | tree => exact absurd rfl ht
    | freed => exact absurd rfl hf

omit [DecidableEq β] in
/-- Where the tables are empty, what is held once was freed once. -/
theorem freed_of_emptied {a : ℕ} (h : s.Emptied) (ha : (ledger s).HeldOnce a) :
    s.freed.count a = 1 := by
  obtain ⟨holder, hcount, -⟩ := ha
  cases holder with
  | bucket b => simp [ledger, h.1 b] at hcount
  | tree => simp [ledger, h.2] at hcount
  | freed => exact hcount

end Emptying

section Nodes
variable {β : Type*} [DecidableEq β] {Task : Type*} [DecidableEq Task] {k : Kernel β}
  {s : State β} {a : ℕ}

/-- The node at the address is in one of the tables or was freed once. -/
structure Kept (k : Kernel β) (a : ℕ) (s : State β) : Prop where
  rep : Rep k s
  issued : a < s.allocated
  notLost : ∃ lost, ((ledger s).withLost lost).Wf ∧ a ∉ lost

omit [DecidableEq β] in
theorem kept_of_links (h : Rep k s) {lost : List ℕ} (hw : ((ledger s).withLost lost).Wf)
    (ha : s.Links a) : Kept k a s := by
  obtain ⟨holder, hmem⟩ : ∃ holder, a ∈ (ledger s).holds holder := by
    rcases ha with ⟨b, hb⟩ | ht
    · exact ⟨.bucket b, hb⟩
    · exact ⟨.tree, ht⟩
  exact ⟨h, hw.fresh (some holder) a hmem, lost, hw, hw.not_lost_of_mem hmem⟩

theorem Kept.handle (h : Kept k a s) (pid : Task → ℤ) (e : Event Task) :
    Kept k a (Event.handle k pid s e) := by
  obtain ⟨lost, hw, hlost⟩ := h.notLost
  obtain ⟨lost', hw', hnew, -⟩ := wf_handle h.rep hw pid e
  refine ⟨h.rep.handle pid e, h.issued.trans_le (allocated_handle k pid s e), lost', hw', ?_⟩
  intro hmem
  rcases hnew a hmem with hold | hge
  · exact hlost hold
  · exact absurd h.issued (not_lt.mpr hge)

/-- At the exit every node of the tables is freed. -/
theorem Kept.exit {m : Module β} (hk : Walks k) (h : Kept k a m.tables)
    (hone : m.tables.OneReached k) : (perftopExit k m).tables.freed.count a = 1 := by
  obtain ⟨lost, hw, hlost⟩ := h.notLost
  have hhash := hw.moves (by simp) ((removeHashTableAll_moves k m.tables).withLost lost)
  have htree := hhash.moves (by simp) ((removeRbTreeAll_moves k _).withLost lost)
  exact freed_of_emptied ((perftopExit_emptied_iff hk h.rep.tree).mpr hone)
    (htree.heldOnce_of_not_lost h.issued hlost)

end Nodes

section Runs
variable {β : Type*} [DecidableEq β] {Task : Type*} [DecidableEq Task] {k : Kernel β}
  {pid : Task → ℤ} {m m' : Module β}

omit [DecidableEq β] in
theorem perftopInit_registered {ret : ℤ} (h : 0 ≤ ret) : perftopInit m ret =
    ({ m with procEntry := true, probe := true, tables := State.init }, 0) :=
  if_neg (not_lt.mpr h)

omit [DecidableEq β] in
theorem perftopInit_failed {ret : ℤ} (h : ret < 0) : perftopInit m ret =
    ({ m with procEntry := true, tables := State.init }, -1) :=
  if_pos h

theorem step_load {ret : ℤ} (h : m.step k pid (.load ret) = some m') :
    m.loaded = false ∧ m'.procEntry = true ∧ m'.tables = State.init ∧ m'.remains = m.remains ∧
      m'.loaded = decide (0 ≤ ret) ∧ m'.probe = (decide (0 ≤ ret) || m.probe) := by
  unfold Module.step at h
  split_ifs at h with hl
  rw [Bool.not_eq_true] at hl
  dsimp only at h
  by_cases hr : 0 ≤ ret
  · rw [perftopInit_registered hr] at h
    obtain rfl := Option.some.inj h
    simp [hl, hr]
  · rw [perftopInit_failed (not_le.mp hr)] at h
    obtain rfl := Option.some.inj h
    simp [hl, hr]

theorem step_event {e : Event Task} (h : m.step k pid (.event e) = some m') :
    m.loaded = true ∧ m' = { m with tables := e.handle k pid m.tables } := by
  unfold Module.step at h
  split_ifs at h with hl
  exact ⟨hl, (Option.some.inj h).symm⟩

theorem step_unload (h : m.step k pid .unload = some m') :
    m.loaded = true ∧ m'.loaded = false ∧ m'.procEntry = false ∧ m'.probe = false ∧
      m'.tables = (perftopExit k m).tables ∧
      m'.remains = m.remains ++ [(perftopExit k m).tables] := by
  unfold Module.step at h
  split_ifs at h with hl
  obtain rfl := Option.some.inj h
  exact ⟨hl, rfl, rfl, rfl, rfl, rfl⟩

/-- What every reachable module meets. -/
structure Module.Inv (k : Kernel β) (m : Module β) : Prop where
  probe : m.probe = m.loaded
  tables : m.loaded = true → Rep k m.tables
  nodes : m.loaded = true → ∃ lost, ((ledger m.tables).withLost lost).Wf

omit [DecidableEq β] in
theorem inv_start : Module.Inv k Module.start := by
  constructor
  · rfl
  · intro hl
    cases hl
  · intro hl
    cases hl

theorem Module.Inv.step (h : m.Inv k) {a : ModuleAction Task} (hs : m.step k pid a = some m') :
    m'.Inv k := by
  cases a with
  | load ret =>
      obtain ⟨hl, -, htables, -, hl', hprobe⟩ := step_load hs
      constructor
      · rw [hprobe, hl', h.probe, hl, Bool.or_false]
      · intro _
        rw [htables]
        exact rep_init
      · intro _
        rw [htables]
        exact ⟨[], wf_init⟩
  | event e =>
      obtain ⟨hl, rfl⟩ := step_event hs
      obtain ⟨lost, hw⟩ := h.nodes hl
      obtain ⟨lost', hw', -⟩ := wf_handle (h.tables hl) hw pid e
      exact ⟨h.probe, fun _ => (h.tables hl).handle pid e, fun _ => ⟨lost', hw'⟩⟩
  | unload =>
      obtain ⟨-, hl', -, hprobe, -⟩ := step_unload hs
      constructor
      · rw [hprobe, hl']
      · intro hloaded
        rw [hl'] at hloaded
        cases hloaded
      · intro hloaded
        rw [hl'] at hloaded
        cases hloaded

theorem inv_runActions {acts : List (ModuleAction Task)}
    (h : runActions (Module.step k pid) Module.start acts = some m) : m.Inv k := by
  have hrun : GuardedRun (Module.step k pid) (fun _ _ => True) Module.start acts m :=
    .of_prefixes h fun _ _ _ _ _ => trivial
  apply hrun.invariant (I := fun _ m => m.Inv k)
  · exact inv_start
  · intro _ _ _ _ hi _ hs
    exact hi.step hs

/-- Nothing was left by the loads and unloads so far. -/
structure Module.NothingLeft (m : Module β) : Prop where
  procEntry : m.loaded = false → m.procEntry = false
  remains : ∀ s ∈ m.remains, s.Emptied

theorem Module.NothingLeft.step (hk : Walks k) (h : m.NothingLeft) (hi : m.Inv k)
    {a : ModuleAction Task} (ha : a.Tidy k m) (hs : m.step k pid a = some m') :
    m'.NothingLeft := by
  cases a with
  | load ret =>
      obtain ⟨-, -, -, hremains, hl', -⟩ := step_load hs
      constructor
      · intro hunloaded
        rw [hl', decide_eq_false_iff_not] at hunloaded
        exact absurd ha hunloaded
      · rw [hremains]
        exact h.remains
  | event e =>
      obtain ⟨hl, rfl⟩ := step_event hs
      exact ⟨h.procEntry, h.remains⟩
  | unload =>
      obtain ⟨hl, -, hproc, -, -, hremains⟩ := step_unload hs
      constructor
      · intro _
        exact hproc
      · intro s hmem
        rw [hremains, List.mem_append, List.mem_singleton] at hmem
        rcases hmem with hold | rfl
        · exact h.remains s hold
        · exact (perftopExit_emptied_iff hk (hi.tables hl).tree).mpr ha

/-- A step that is not tidy leaves something. -/
theorem tidy_of_clean (hk : Walks k) (hi : m.Inv k) {a : ModuleAction Task}
    (hs : m.step k pid a = some m') (h : m'.loaded = false → m'.Clean) : a.Tidy k m := by
  cases a with
  | load ret =>
      obtain ⟨-, hproc, -, -, hl', -⟩ := step_load hs
      by_contra hfailed
      have hclean := h (by rw [hl']; exact decide_eq_false hfailed)
      rw [hclean.procEntry] at hproc
      cases hproc
  | event e => exact trivial
  | unload =>
      obtain ⟨hl, hl', -, -, -, hremains⟩ := step_unload hs
      apply (perftopExit_emptied_iff hk (hi.tables hl).tree).mp
      apply (h hl').remains
      rw [hremains]
      exact List.mem_append_right _ (List.mem_singleton.mpr rfl)

/-- A node that is in the tables now is freed when the module is unloaded. -/
theorem freed_run (hk : Walks k) {a : ℕ} {evs : List (Event Task)} (h : Kept k a m.tables)
    (hone : ∀ u, runActions (Module.step k pid) m (evs.map .event) = some u →
      u.tables.OneReached k)
    (hs : runActions (Module.step k pid) m (evs.map .event ++ [.unload]) = some m') :
    m'.tables.freed.count a = 1 := by
  induction evs generalizing m with
  | nil =>
      obtain ⟨u, hu, hrest⟩ := Option.bind_eq_some_iff.mp hs
      obtain rfl := Option.some.inj hrest
      obtain ⟨-, -, -, -, htables, -⟩ := step_unload hu
      rw [htables]
      exact h.exit hk (hone m rfl)
  | cons e evs ih =>
      obtain ⟨u, hu, hrest⟩ := Option.bind_eq_some_iff.mp hs
      obtain ⟨-, rfl⟩ := step_event hu
      apply ih (h.handle pid e) _ hrest
      intro w hw
      apply hone w
      rw [List.map_cons, runActions, hu]
      exact hw

theorem loaded_of_run {evs : List (Event Task)}
    (hs : runActions (Module.step k pid) m (evs.map .event ++ [.unload]) = some m') :
    m.loaded = true := by
  cases evs with
  | nil =>
      obtain ⟨u, hu, -⟩ := Option.bind_eq_some_iff.mp hs
      exact (step_unload hu).1
  | cons e evs =>
      obtain ⟨u, hu, -⟩ := Option.bind_eq_some_iff.mp hs
      exact (step_event hu).1

end Runs

/-- In every state of the run in which the module is not loaded nothing of it is left, and each
unload has freed once every node that the tables have held since the load. -/
structure CleanWhenUnloaded {β : Type*} [DecidableEq β] {Task : Type*} [DecidableEq Task]
    (k : Kernel β) (pid : Task → ℤ) (acts : List (ModuleAction Task)) : Prop where
  clean : ∀ before m, before <+: acts →
    runActions (Module.step k pid) Module.start before = some m → m.loaded = false → m.Clean
  freed : ∀ before (evs : List (Event Task)) (m m' : Module β),
    before ++ (evs.map .event ++ [.unload]) <+: acts →
    runActions (Module.step k pid) Module.start before = some m →
    runActions (Module.step k pid) m (evs.map .event ++ [.unload]) = some m' →
    ∀ a, m.tables.Links a → m'.tables.freed.count a = 1

/-- Nothing is left exactly if the probe was registered by every load and every unload found
one node of the hash table at most, in the bucket of key 0. -/
theorem clean_when_unloaded_iff {β : Type*} [DecidableEq β] {Task : Type*} [DecidableEq Task]
    {k : Kernel β} (hk : Walks k) (pid : Task → ℤ) {acts : List (ModuleAction Task)} {m : Module β}
    (hrun : runActions (Module.step k pid) Module.start acts = some m) :
    CleanWhenUnloaded k pid acts ↔
      ∀ before a, before ++ [a] <+: acts → ∀ m',
        runActions (Module.step k pid) Module.start before = some m' → a.Tidy k m' := by
  constructor
  · intro h before a hb m' hm'
    obtain ⟨next, hnext⟩ := exists_runActions_of_isPrefix hrun hb
    have hclean := h.clean (before ++ [a]) next hb hnext
    rw [runActions_concat, hm', Option.bind_some] at hnext
    exact tidy_of_clean hk (inv_runActions hm') hnext hclean
  · intro h
    constructor
    · intro before m' hb hm' hunloaded
      have htidy : GuardedRun (Module.step k pid) (fun m a => a.Tidy k m) Module.start before m' :=
        .of_prefixes hm' fun before' a hb' => h before' a (hb'.trans hb)
      have hboth : m'.Inv k ∧ m'.NothingLeft := by
        apply htidy.invariant (I := fun _ m => m.Inv k ∧ m.NothingLeft)
        · exact ⟨inv_start, ⟨fun _ => rfl, fun _ hs => by cases hs⟩⟩
        · intro _ _ _ _ hi ha hs
          exact ⟨hi.1.step hs, hi.2.step hk hi.1 ha hs⟩
      refine ⟨hboth.2.procEntry hunloaded, ?_, hboth.2.remains⟩
      rw [hboth.1.probe, hunloaded]
    · intro before evs u u' hb hu hu' a ha
      have hi : u.Inv k := inv_runActions hu
      have hl := loaded_of_run hu'
      obtain ⟨lost, hw⟩ := hi.nodes hl
      apply freed_run hk (kept_of_links (hi.tables hl) hw ha) _ hu'
      intro w hw
      rw [← List.append_assoc] at hb
      apply h (before ++ evs.map .event) .unload hb w
      rw [runActions_append, hu]
      exact hw

/-- A task with pid 2 is put on the CPU between a load and an unload. -/
def oneSwitch : List (ModuleAction ℕ) := [.load 0, .event ⟨some 1, some 2, 1⟩, .unload]

theorem clean_when_unloaded_iff_oneSwitch :
    let k : Kernel Unit := { singleBucket with treeWalk := .through }
    Walks k ∧ ∃ m, runActions (Module.step k Nat.cast) Module.start oneSwitch = some m ∧
      (CleanWhenUnloaded k Nat.cast oneSwitch ↔
        ∀ before a, before ++ [a] <+: oneSwitch → ∀ m',
          runActions (Module.step k Nat.cast) Module.start before = some m' → a.Tidy k m') := by
  intro k
  have hk : Walks k := ⟨fun _ _ => rfl, fun _ _ _ => rfl⟩
  obtain ⟨m, hm⟩ : ∃ m, runActions (Module.step k Nat.cast) Module.start oneSwitch = some m :=
    Option.isSome_iff_exists.mp (by decide +kernel)
  exact ⟨hk, m, hm, clean_when_unloaded_iff hk Nat.cast hm⟩

/-- The entry of a load that failed, and a node in another bucket than that of key 0. -/
theorem left_behind :
    let k : Kernel Bool := ⟨fun pid => decide (pid = 0), .unbalanced, .stop, .through⟩
    Walks k ∧ ¬ CleanWhenUnloaded k Nat.cast ([.load (-1)] : List (ModuleAction ℕ)) ∧
      ¬ CleanWhenUnloaded k Nat.cast oneSwitch := by
  intro k
  refine ⟨⟨fun _ _ => rfl, fun _ _ _ => rfl⟩, ?_, ?_⟩
  · intro h
    have hentry := (h.clean _ _ (List.prefix_refl _) rfl rfl).procEntry
    cases hentry
  · intro h
    have hleft := h.clean _ _ (List.prefix_refl _) rfl rfl
    have hnode := (hleft.remains _ (List.mem_singleton.mpr rfl)).1 false
    cases hnode

end OperatingSystems.Perftop
