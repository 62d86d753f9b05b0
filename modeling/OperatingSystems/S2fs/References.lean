import OperatingSystems.Library.GuardedRun
import OperatingSystems.S2fs.Mount
import Mathlib.Algebra.BigOperators.Group.List.Basic
import Mathlib.Data.List.Nodup

/-!
# The references of a tree

Directories and files are made one after the other, in directories that are in use. A
call that returns NULL has given back what it took. A call that returns a dentry keeps
three references: the dentry's own, the one it holds on its directory, and the one that
its inode holds for it. So the references taken are at any time those of the entries
made, and each of these is still where it was put.
-/
namespace OperatingSystems.S2fs
open Library

/-- A call of `s2fs_create_dir` or of `s2fs_create_file`. -/
structure Creation (δ : Type*) where
  isDir : Bool
  parent : δ
  name : String
deriving DecidableEq

/-- What a call has made. -/
structure MadeEntry (ι δ : Type*) extends Creation δ where
  dentry : δ
  inode : ι

theorem single_nonneg {α : Type*} [DecidableEq α] (a b : α) : 0 ≤ (Pi.single a 1 : α → ℤ) b := by
  rw [Pi.single_apply]
  split_ifs <;> decide

theorem forall_mem_concat {α : Type*} {p : α → Prop} {l : List α} {a : α} (h : ∀ b ∈ l, p b)
    (ha : p a) : ∀ b ∈ l ++ [a], p b :=
  List.forall_mem_append.mpr ⟨h, List.forall_mem_singleton.mpr ha⟩

theorem nodup_map_concat {α β : Type*} {f : α → β} {l : List α} {a : α} (h : (l.map f).Nodup)
    (hne : ∀ b ∈ l, f b ≠ f a) : ((l ++ [a]).map f).Nodup := by
  have hmem : f a ∉ l.map f := by
    intro hin
    obtain ⟨b, hb, he⟩ := List.mem_map.mp hin
    exact hne b hb he
  rw [List.map_append, List.map_singleton, ← List.concat_eq_append]
  exact h.concat hmem

/-- A view that differs in objects out of use only. -/
structure View.Same {ι δ : Type*} (view view' : View ι δ) : Prop where
  inodeCount : view'.inodeCount = view.inodeCount
  dentryCount : view'.dentryCount = view.dentryCount
  name : ∀ a, 0 < view.dentryCount a → view'.name a = view.name a
  inode : ∀ a, 0 < view.dentryCount a → view'.inode a = view.inode a
  subdirs : ∀ a, 0 < view.dentryCount a → view'.subdirs a = view.subdirs a

section Views
variable {ι δ : Type*} [DecidableEq ι] [DecidableEq δ] {view : View ι δ}

omit [DecidableEq ι] [DecidableEq δ] in
theorem View.Same.refl (view : View ι δ) : view.Same view where
  inodeCount := rfl
  dentryCount := rfl
  name _ _ := rfl
  inode _ _ := rfl
  subdirs _ _ := rfl

omit [DecidableEq ι] in
theorem View.same_dropChild_addChild {parent d : δ} (name : String)
    (hd : view.dentryCount d = 0) : view.Same ((view.addChild parent d name).dropChild d) where
  inodeCount := rfl
  dentryCount := View.dentryCount_dropChild_addChild
  name a ha := by simp [View.dropChild, View.addChild, View.ne_of_fresh ha hd]
  inode a ha := by simp [View.dropChild, View.addChild, View.ne_of_fresh ha hd]
  subdirs _ ha := View.subdirs_dropChild_addChild (View.ne_of_fresh ha hd)

omit [DecidableEq ι] [DecidableEq δ] in
theorem View.Linked.same {view' : View ι δ} {parent d : δ} {name : String} {i : ι}
    (h : view.Linked parent d name i) (hs : view.Same view')
    (hparent : 0 < view.dentryCount parent) (hd : 0 < view.dentryCount d) :
    view'.Linked parent d name i where
  mem_subdirs := by
    rw [hs.subdirs parent hparent]
    exact h.mem_subdirs
  name := by
    rw [hs.name d hd]
    exact h.name
  inode := by
    rw [hs.inode d hd]
    exact h.inode

theorem View.inodeCount_addEntry (parent d : δ) (name : String) (i : ι) :
    (view.addEntry parent d name i).inodeCount = view.inodeCount + Pi.single i 1 := rfl

theorem View.dentryCount_addEntry_eq (parent d : δ) (name : String) (i : ι) :
    (view.addEntry parent d name i).dentryCount =
      view.dentryCount + (Pi.single d 1 + Pi.single parent 1) :=
  add_assoc _ _ _

theorem View.subdirs_addEntry {parent d a : δ} (name : String) (i : ι) (ha : a ≠ d) :
    (view.addEntry parent d name i).subdirs a =
      if a = parent then d :: view.subdirs a else view.subdirs a := by
  by_cases he : a = parent
  · rw [he, View.subdirs_addEntry_parent, if_pos rfl]
  · rw [if_neg he]
    simp [View.addEntry, View.addChild, View.getInode, View.instantiate, he, ha]

end Views

section Calls
variable {K ι δ : Type*} [DecidableEq ι] [DecidableEq δ]
variable (vfs : Vfs K ι δ) (alloc : ℕ → Bool)

def create (c : Creation δ) (m : Mount K ι δ) : Option δ × Mount K ι δ :=
  if c.isDir then s2fsCreateDir vfs alloc c.parent c.name m
  else s2fsCreateFile vfs alloc c.parent c.name m

/-- A file system, and the calls so far that returned a dentry. -/
structure Session (K ι δ : Type*) where
  mount : Mount K ι δ
  returned : List (Creation δ × δ)

def Session.step (s : Session K ι δ) (c : Creation δ) : Option (Session K ι δ) :=
  let (dentry, m) := create vfs alloc c s.mount
  some ⟨m, s.returned ++ dentry.toList.map fun d => (c, d)⟩

/-- A call on a directory in use. -/
def Session.InUse (s : Session K ι δ) (c : Creation δ) : Prop :=
  0 < (vfs.view s.mount.kernel).dentryCount c.parent

variable {vfs alloc} {m m₀ : Mount K ι δ} {c : Creation δ}

theorem createEntry_same (mode : ℕ) (setOps : Inode → Inode) {parent : δ} (name : String)
    (h : alloc m.asked = false ∨ alloc (m.asked + 1) = false)
    (hp : 0 < (vfs.view m.kernel).dentryCount parent) :
    ∃ k n, (vfs.view m.kernel).Same (vfs.view k) ∧
      createEntry vfs alloc mode setOps parent name m =
        (none, { m with kernel := k, asked := n }) := by
  let qname : Qstr :=
    ⟨name, name.utf8ByteSize, vfs.fullNameHash parent name name.utf8ByteSize⟩
  cases hfirst : alloc m.asked with
  | false =>
      obtain ⟨k, he, hview⟩ := vfs.dAlloc_null parent qname m.kernel
      refine ⟨k, m.asked + 1, ?_, ?_⟩
      · rw [hview]
        exact View.Same.refl _
      · rw [createEntry]
        dsimp only
        rw [hfirst, he]
  | true =>
      have hsecond : alloc (m.asked + 1) = false := by
        rcases h with h | h
        · rw [hfirst] at h
          cases h
        · exact h
      obtain ⟨d, k₁, he₁, hfresh, hview₁⟩ := vfs.dAlloc_some parent qname m.kernel hp
      obtain ⟨k₂, hview₂, he₂⟩ := s2fsMakeInode_null vfs
        { m with kernel := k₁, asked := m.asked + 1 } mode hsecond
      have hview : vfs.view k₂ = (vfs.view m.kernel).addChild parent d name := by
        rw [hview₂, hview₁]
      have hcount : (vfs.view k₂).dentryCount d = 1 := by
        rw [hview, View.dentryCount_addChild (View.ne_of_fresh hp hfresh), hfresh, zero_add]
      have hnone : (vfs.view k₂).inode d = none := by
        simp [hview, View.addChild]
      refine ⟨vfs.dput d k₂, m.asked + 2, ?_, ?_⟩
      · rw [vfs.view_dput d k₂ hcount hnone, hview]
        exact View.same_dropChild_addChild name hfresh
      · rw [createEntry]
        dsimp only
        rw [hfirst, he₁]
        dsimp only
        rw [he₂]

/-- The references that belong to the entries. -/
def inodeRefs (made : List (MadeEntry ι δ)) : ι → ℤ :=
  (made.map fun e => (Pi.single e.inode 1 : ι → ℤ)).sum

def dentryRefs (made : List (MadeEntry ι δ)) : δ → ℤ :=
  (made.map fun e => (Pi.single e.dentry 1 + Pi.single e.parent 1 : δ → ℤ)).sum

/-- The attributes of a made entry's inode. -/
def MadeEntry.HasKind (e : MadeEntry ι δ) (x : Inode) : Prop :=
  if e.isDir then x.iMode = sIfdir ||| 0o777 ∧ x.iOp = .simpleDir ∧ x.iFop = .simpleDir
  else x.iMode = sIfreg ||| 0o644 ∧ x.iFop = .s2fs

/-- The entries made in a directory, the newest first. -/
def listing (made : List (MadeEntry ι δ)) (a : δ) : List δ :=
  ((made.filter fun e => e.parent = a).map MadeEntry.dentry).reverse

/-- What `made` has changed since the state `m₀`. -/
structure Made (vfs : Vfs K ι δ) (m₀ : Mount K ι δ) (made : List (MadeEntry ι δ))
    (m : Mount K ι δ) : Prop where
  inodeCount : (vfs.view m.kernel).inodeCount = (vfs.view m₀.kernel).inodeCount + inodeRefs made
  dentryCount :
    (vfs.view m.kernel).dentryCount = (vfs.view m₀.kernel).dentryCount + dentryRefs made
  linked : ∀ e ∈ made, (vfs.view m.kernel).Linked e.parent e.dentry e.name e.inode
  kind : ∀ e ∈ made, e.HasKind (m.inodes e.inode)
  dentryLive : ∀ e ∈ made, 0 < (vfs.view m.kernel).dentryCount e.dentry
  parentLive : ∀ e ∈ made, 0 < (vfs.view m.kernel).dentryCount e.parent
  inodeLive : ∀ e ∈ made, 0 < (vfs.view m.kernel).inodeCount e.inode
  dentries : (made.map MadeEntry.dentry).Nodup
  inodes : (made.map MadeEntry.inode).Nodup
  subdirs : ∀ a, 0 < (vfs.view m₀.kernel).dentryCount a →
    (vfs.view m.kernel).subdirs a = listing made a ++ (vfs.view m₀.kernel).subdirs a
  madeSubdirs : ∀ e ∈ made, (vfs.view m.kernel).subdirs e.dentry = listing made e.dentry
  inode : ∀ a, 0 < (vfs.view m₀.kernel).dentryCount a →
    (vfs.view m.kernel).inode a = (vfs.view m₀.kernel).inode a
  contents : ∀ i, 0 < (vfs.view m₀.kernel).inodeCount i → m.inodes i = m₀.inodes i
  sb : m.sb = m₀.sb

variable {made : List (MadeEntry ι δ)}

theorem Made.nil : Made vfs m [] m where
  inodeCount := (add_zero _).symm
  dentryCount := (add_zero _).symm
  linked _ he := absurd he List.not_mem_nil
  kind _ he := absurd he List.not_mem_nil
  dentryLive _ he := absurd he List.not_mem_nil
  parentLive _ he := absurd he List.not_mem_nil
  inodeLive _ he := absurd he List.not_mem_nil
  dentries := List.nodup_nil
  inodes := List.nodup_nil
  subdirs _ _ := rfl
  madeSubdirs _ he := absurd he List.not_mem_nil
  inode _ _ := rfl
  contents _ _ := rfl
  sb := rfl

omit [DecidableEq δ] in
theorem inodeRefs_nonneg (made : List (MadeEntry ι δ)) (a : ι) : 0 ≤ inodeRefs made a := by
  induction made with
  | nil => exact le_rfl
  | cons e made ih => exact add_nonneg (single_nonneg e.inode a) ih

omit [DecidableEq ι] in
theorem dentryRefs_nonneg (made : List (MadeEntry ι δ)) (a : δ) : 0 ≤ dentryRefs made a := by
  induction made with
  | nil => exact le_rfl
  | cons e made ih =>
      exact add_nonneg (add_nonneg (single_nonneg e.dentry a) (single_nonneg e.parent a)) ih

omit [DecidableEq ι] in
theorem dentryRefs_concat (e : MadeEntry ι δ) :
    dentryRefs (made ++ [e]) =
      dentryRefs made + (Pi.single e.dentry 1 + Pi.single e.parent 1) := by
  simp [dentryRefs]

omit [DecidableEq δ] in
theorem inodeRefs_concat (e : MadeEntry ι δ) :
    inodeRefs (made ++ [e]) = inodeRefs made + Pi.single e.inode 1 := by
  simp [inodeRefs]

omit [DecidableEq ι] in
theorem listing_concat (made : List (MadeEntry ι δ)) (e : MadeEntry ι δ) (a : δ) :
    listing (made ++ [e]) a =
      if e.parent = a then e.dentry :: listing made a else listing made a := by
  unfold listing
  rw [List.filter_append]
  by_cases he : e.parent = a
  · simp [he]
  · simp [he]

omit [DecidableEq ι] in
theorem listing_eq_nil {a : δ} (h : ∀ e ∈ made, e.parent ≠ a) : listing made a = [] := by
  have hnone : made.filter (fun e => e.parent = a) = [] := by
    rw [List.filter_eq_nil_iff]
    intro e he
    simpa using h e he
  rw [listing, hnone]
  rfl

/-- The listing of a directory that is there grows by an entry made in it. -/
theorem View.subdirs_push {view : View ι δ} {d a : δ} {i : ι} {old : List δ} (hne : a ≠ d)
    (h : view.subdirs a = listing made a ++ old) :
    (view.addEntry c.parent d c.name i).subdirs a = listing (made ++ [⟨c, d, i⟩]) a ++ old := by
  rw [View.subdirs_addEntry c.name i hne, h, listing_concat]
  by_cases he : c.parent = a
  · rw [if_pos he.symm, if_pos he, List.cons_append]
  · rw [if_neg (Ne.symm he), if_neg he]

theorem Made.live (h : Made vfs m₀ made m) {a : δ}
    (ha : 0 < (vfs.view m₀.kernel).dentryCount a) : 0 < (vfs.view m.kernel).dentryCount a := by
  rw [h.dentryCount]
  exact Int.lt_of_lt_of_le ha (le_add_of_nonneg_right (dentryRefs_nonneg made a))

/-- A call that has failed. -/
theorem Made.same {k : K} {n : ℕ} (h : Made vfs m₀ made m)
    (hs : (vfs.view m.kernel).Same (vfs.view k)) :
    Made vfs m₀ made { m with kernel := k, asked := n } where
  inodeCount := hs.inodeCount.trans h.inodeCount
  dentryCount := hs.dentryCount.trans h.dentryCount
  linked e he := (h.linked e he).same hs (h.parentLive e he) (h.dentryLive e he)
  kind := h.kind
  dentryLive e he := by
    dsimp only
    rw [hs.dentryCount]
    exact h.dentryLive e he
  parentLive e he := by
    dsimp only
    rw [hs.dentryCount]
    exact h.parentLive e he
  inodeLive e he := by
    dsimp only
    rw [hs.inodeCount]
    exact h.inodeLive e he
  dentries := h.dentries
  inodes := h.inodes
  subdirs a ha := (hs.subdirs a (h.live ha)).trans (h.subdirs a ha)
  madeSubdirs e he := (hs.subdirs e.dentry (h.dentryLive e he)).trans (h.madeSubdirs e he)
  inode a ha := (hs.inode a (h.live ha)).trans (h.inode a ha)
  contents := h.contents
  sb := h.sb

theorem View.inodeCount_le_addEntry {view : View ι δ} (parent d : δ) (name : String) (i j : ι) :
    view.inodeCount j ≤ (view.addEntry parent d name i).inodeCount j := by
  rw [View.inodeCount_addEntry, Pi.add_apply]
  exact le_add_of_nonneg_right (single_nonneg i j)

/-- A call that has made an entry. -/
theorem Made.push {k : K} {n : ℕ} {d : δ} {i : ι} {x : Inode} (h : Made vfs m₀ made m)
    (hparent : 0 < (vfs.view m.kernel).dentryCount c.parent)
    (hd : (vfs.view m.kernel).dentryCount d = 0) (hi : (vfs.view m.kernel).inodeCount i = 0)
    (hview : vfs.view k = (vfs.view m.kernel).addEntry c.parent d c.name i)
    (hx : MadeEntry.HasKind ⟨c, d, i⟩ x) :
    Made vfs m₀ (made ++ [⟨c, d, i⟩])
      { m with kernel := k, asked := n, inodes := Function.update m.inodes i x } := by
  have hne : c.parent ≠ d := View.ne_of_fresh hparent hd
  have hgrown : ∀ a, 0 < (vfs.view m.kernel).dentryCount a → 0 < (vfs.view k).dentryCount a := by
    intro a ha
    rw [hview]
    exact Int.lt_of_lt_of_le ha (View.dentryCount_le_addEntry a)
  constructor
  case inodeCount =>
    dsimp only
    rw [hview, View.inodeCount_addEntry, h.inodeCount, inodeRefs_concat, add_assoc]
  case dentryCount =>
    dsimp only
    rw [hview, View.dentryCount_addEntry_eq, h.dentryCount, dentryRefs_concat, add_assoc]
  case linked =>
    dsimp only
    rw [hview]
    apply forall_mem_concat
    · intro e he
      exact (h.linked e he).addEntry (View.ne_of_fresh (h.dentryLive e he) hd)
        (View.ne_of_fresh (h.parentLive e he) hd)
    · exact View.linked_addEntry
  case kind =>
    apply forall_mem_concat
    · intro e he
      dsimp only
      rw [Function.update_of_ne (View.ne_of_fresh (h.inodeLive e he) hi)]
      exact h.kind e he
    · dsimp only
      rw [Function.update_self]
      exact hx
  case dentryLive =>
    apply forall_mem_concat fun e he => hgrown e.dentry (h.dentryLive e he)
    dsimp only
    rw [hview, View.dentryCount_addEntry hne, hd]
    decide
  case parentLive =>
    exact forall_mem_concat (fun e he => hgrown e.parent (h.parentLive e he))
      (hgrown c.parent hparent)
  case inodeLive =>
    dsimp only
    rw [hview]
    apply forall_mem_concat
    · intro e he
      exact Int.lt_of_lt_of_le (h.inodeLive e he) (View.inodeCount_le_addEntry _ _ _ _ _)
    · rw [View.inodeCount_addEntry_self, hi]
      decide
  case subdirs =>
    intro a ha
    dsimp only
    rw [hview]
    exact View.subdirs_push (View.ne_of_fresh (h.live ha) hd) (h.subdirs a ha)
  case madeSubdirs =>
    apply forall_mem_concat
    · intro e he
      have hene : e.dentry ≠ d := View.ne_of_fresh (h.dentryLive e he) hd
      have hold : (vfs.view m.kernel).subdirs e.dentry = listing made e.dentry ++ [] := by
        rw [h.madeSubdirs e he, List.append_nil]
      dsimp only
      rw [hview, View.subdirs_push hene hold, List.append_nil]
    · dsimp only
      rw [hview, View.subdirs_addEntry_self hne, listing_concat, if_neg hne]
      exact (listing_eq_nil fun e he => View.ne_of_fresh (h.parentLive e he) hd).symm
  case inode =>
    intro a ha
    dsimp only
    rw [hview, View.inode_addEntry (View.ne_of_fresh (h.live ha) hd), h.inode a ha]
  case contents =>
    intro j hj
    have hlive : 0 < (vfs.view m.kernel).inodeCount j := by
      rw [h.inodeCount]
      exact Int.lt_of_lt_of_le hj (le_add_of_nonneg_right (inodeRefs_nonneg made j))
    dsimp only
    rw [Function.update_of_ne (View.ne_of_fresh hlive hi), h.contents j hj]
  case sb => exact h.sb
  case dentries =>
    exact nodup_map_concat h.dentries fun e he => View.ne_of_fresh (h.dentryLive e he) hd
  case inodes =>
    exact nodup_map_concat h.inodes fun e he => View.ne_of_fresh (h.inodeLive e he) hi

/-- A call on a directory in use takes what its entry needs, or nothing. -/
theorem create_cases (alloc : ℕ → Bool) (c : Creation δ)
    (hp : 0 < (vfs.view m.kernel).dentryCount c.parent) (h : Made vfs m₀ made m) :
    (∃ m', create vfs alloc c m = (none, m') ∧ Made vfs m₀ made m' ∧
      (alloc m.asked = false ∨ alloc (m.asked + 1) = false)) ∨
    ∃ d i m', create vfs alloc c m = (some d, m') ∧
      Made vfs m₀ (made ++ [⟨c, d, i⟩]) m' ∧ m'.asked = m.asked + 2 ∧
      alloc m.asked = true ∧ alloc (m.asked + 1) = true := by
  by_cases hall : alloc m.asked = true ∧ alloc (m.asked + 1) = true
  · right
    unfold create s2fsCreateDir s2fsCreateFile
    split_ifs with hdir
    · obtain ⟨k, d, i, x, hd, hi, hview, hmode, he⟩ :=
        createEntry_some vfs (sIfdir ||| 0o777) Inode.setDirOps c.name hall.1 hall.2 hp
      refine ⟨d, i, _, he, h.push hp hd hi hview ?_, rfl, hall⟩
      rw [MadeEntry.HasKind, if_pos hdir]
      exact ⟨hmode, rfl, rfl⟩
    · obtain ⟨k, d, i, x, hd, hi, hview, hmode, he⟩ :=
        createEntry_some vfs (sIfreg ||| 0o644) Inode.setFileOps c.name hall.1 hall.2 hp
      refine ⟨d, i, _, he, h.push hp hd hi hview ?_, rfl, hall⟩
      rw [MadeEntry.HasKind, if_neg hdir]
      exact ⟨hmode, rfl⟩
  · left
    have hnull := null_of_not_and hall
    unfold create s2fsCreateDir s2fsCreateFile
    split_ifs
    · obtain ⟨k, n, hs, he⟩ := createEntry_same (sIfdir ||| 0o777) Inode.setDirOps c.name hnull hp
      exact ⟨_, he, h.same hs, hnull⟩
    · obtain ⟨k, n, hs, he⟩ := createEntry_same (sIfreg ||| 0o644) Inode.setFileOps c.name hnull hp
      exact ⟨_, he, h.same hs, hnull⟩

instance (s : Session K ι δ) (c : Creation δ) : Decidable (s.InUse vfs c) :=
  inferInstanceAs (Decidable (0 < (vfs.view s.mount.kernel).dentryCount c.parent))

/-- What is left of a sequence of calls. -/
structure Left (vfs : Vfs K ι δ) (alloc : ℕ → Bool) (m₀ : Mount K ι δ)
    (calls : List (Creation δ)) (s : Session K ι δ) (made : List (MadeEntry ι δ)) : Prop where
  returned : made.map (fun e => (e.toCreation, e.dentry)) = s.returned
  sublist : (made.map MadeEntry.toCreation).Sublist calls
  all : (∀ n, alloc n = true) → made.map MadeEntry.toCreation = calls
  made : Made vfs m₀ made s.mount

theorem Left.step {calls : List (Creation δ)} {s t : Session K ι δ}
    (h : Left vfs alloc m₀ calls s made) (hp : s.InUse vfs c)
    (ht : s.step vfs alloc c = some t) :
    ∃ made', Left vfs alloc m₀ (calls ++ [c]) t made' := by
  unfold Session.step at ht
  rcases create_cases alloc c hp h.made with
    ⟨m', he, hm, hnull⟩ | ⟨d, i, m', he, hm, -⟩
  · rw [he] at ht
    obtain rfl := Option.some.inj ht
    refine ⟨made, ?_⟩
    constructor
    case returned => simpa using h.returned
    case sublist => exact h.sublist.trans (List.sublist_append_left calls [c])
    case all =>
      intro hall
      rcases hnull with hn | hn
      · rw [hall] at hn
        cases hn
      · rw [hall] at hn
        cases hn
    case made => exact hm
  · rw [he] at ht
    obtain rfl := Option.some.inj ht
    refine ⟨made ++ [⟨c, d, i⟩], ?_⟩
    constructor
    case returned =>
      rw [List.map_append, h.returned]
      rfl
    case sublist =>
      rw [List.map_append]
      exact h.sublist.append_right [c]
    case all =>
      intro hall
      rw [List.map_append, h.all hall]
      rfl
    case made => exact hm

/-- After any calls on directories in use, whichever allocations failed, the counts are the
earlier ones and the references of the entries made, and each entry is in its directory. -/
theorem references_counted (vfs : Vfs K ι δ) (alloc : ℕ → Bool) {m₀ : Mount K ι δ}
    {calls : List (Creation δ)} {s : Session K ι δ}
    (h : GuardedRun (Session.step vfs alloc) (Session.InUse vfs) ⟨m₀, []⟩ calls s) :
    ∃ made, Left vfs alloc m₀ calls s made := by
  refine h.invariant (I := fun calls s =>
    ∃ made, Left vfs alloc m₀ calls s made) ⟨[], ?_⟩ ?_
  · exact ⟨rfl, List.Sublist.refl [], fun _ => rfl, Made.nil⟩
  · intro as s c t hs hp ht
    obtain ⟨made, hm⟩ := hs
    exact hm.step hp ht

end Calls

/-- A directory in foo fails for want of an inode, a file in the root is made. -/
theorem references_counted_second :
    let alloc := fun n => n != 7
    let m₀ := (mount Numbered.vfs alloc Numbered.empty fun _ => blankInode).2
    let calls := [⟨true, 2, "baz"⟩, ⟨false, 1, "qux"⟩]
    ∃ s made, Left Numbered.vfs alloc m₀ calls s made ∧
      s.returned = [(⟨false, 1, "qux"⟩, 7)] := by
  intro alloc m₀ calls
  obtain ⟨s, hs, hreturned⟩ : ∃ s ∈ runActions (guardedStep (Session.step Numbered.vfs alloc)
      (Session.InUse Numbered.vfs)) ⟨m₀, []⟩ calls,
      s.returned = [(⟨false, 1, "qux"⟩, 7)] := by decide +kernel
  obtain ⟨made, hm⟩ := references_counted Numbered.vfs alloc (.of_runActions hs)
  exact ⟨s, made, hm, hreturned⟩

section Mounting
variable {K ι δ : Type*} [DecidableEq ι] [DecidableEq δ]
variable {vfs : Vfs K ι δ} {alloc : ℕ → Bool} {m m₀ : Mount K ι δ}

/-- What `s2fs_fill_super` has made under the root, by the allocations that have failed. -/
def Contents (alloc : ℕ → Bool) (root : δ) : List (MadeEntry ι δ) → Prop
  | [] => ¬ (alloc 2 = true ∧ alloc 3 = true)
  | [foo] => foo.toCreation = ⟨true, root, "foo"⟩ ∧ (alloc 2 = true ∧ alloc 3 = true) ∧
      ¬ (alloc 4 = true ∧ alloc 5 = true)
  | [foo, bar] => foo.toCreation = ⟨true, root, "foo"⟩ ∧
      bar.toCreation = ⟨false, foo.dentry, "bar"⟩ ∧ (alloc 2 = true ∧ alloc 3 = true) ∧
      alloc 4 = true ∧ alloc 5 = true
  | _ => False

theorem not_and_of_null {a b : Bool} (h : a = false ∨ b = false) : ¬ (a = true ∧ b = true) := by
  rcases h with rfl | rfl
  · exact fun hab => Bool.false_ne_true hab.1
  · exact fun hab => Bool.false_ne_true hab.2

theorem createContents_made {root : δ} (h : Made vfs m₀ [] m) (hasked : m.asked = 2)
    (hroot : 0 < (vfs.view m.kernel).dentryCount root) :
    ∃ made, Contents alloc root made ∧ Made vfs m₀ made (createContents vfs alloc root m) := by
  have hfoo := create_cases alloc ⟨true, root, "foo"⟩ hroot h
  rw [hasked] at hfoo
  rw [createContents]
  rcases hfoo with ⟨m₁, he₁, h₁, hnull⟩ | ⟨foo, i, m₁, he₁, h₁, hasked₁, hall⟩
  · rw [create, if_pos rfl] at he₁
    rw [he₁]
    exact ⟨[], not_and_of_null hnull, h₁⟩
  · rw [create, if_pos rfl] at he₁
    rw [he₁]
    have hlive := h₁.dentryLive ⟨⟨true, root, "foo"⟩, foo, i⟩ List.mem_cons_self
    have hbar := create_cases alloc ⟨false, foo, "bar"⟩ hlive h₁
    rw [hasked₁] at hbar
    dsimp only
    rcases hbar with ⟨m₂, he₂, h₂, hnull⟩ | ⟨bar, j, m₂, he₂, h₂, -, hall₂⟩
    · rw [create, if_neg Bool.false_ne_true] at he₂
      rw [he₂]
      exact ⟨[⟨⟨true, root, "foo"⟩, foo, i⟩], ⟨rfl, hall, not_and_of_null hnull⟩, h₂⟩
    · rw [create, if_neg Bool.false_ne_true] at he₂
      rw [he₂]
      exact ⟨[⟨⟨true, root, "foo"⟩, foo, i⟩, ⟨⟨false, foo, "bar"⟩, bar, j⟩],
        ⟨rfl, rfl, hall, hall₂⟩, h₂⟩

/-- The state in which the root has been made. -/
structure RootOnly (vfs : Vfs K ι δ) (kernel : K) (m : Mount K ι δ) (root : δ) (i : ι) :
    Prop where
  view : vfs.view m.kernel = ((vfs.view kernel).getInode i).addRoot root i
  freshInode : (vfs.view kernel).inodeCount i = 0
  freshDentry : (vfs.view kernel).dentryCount root = 0
  asked : m.asked = 2
  mode : (m.inodes i).iMode = sIfdir ||| 0o755
  isDir : (m.inodes i).IsDir
  sb : m.sb = ⟨s2fsMagic, .s2fs, some root⟩

theorem mount_of_rootOnly (vfs : Vfs K ι δ) (hinode : alloc 0 = true) (hdentry : alloc 1 = true)
    (kernel : K) (inodes : ι → Inode) :
    ∃ m root i, RootOnly vfs kernel m root i ∧
      mount vfs alloc kernel inodes = (0, createContents vfs alloc root m) := by
  obtain ⟨k₁, i, x, hfresh, hview₁, hmode, he₁⟩ := s2fsMakeInode_some vfs
    ⟨kernel, inodes, ⟨s2fsMagic, .s2fs, none⟩, 0⟩ (sIfdir ||| 0o755) hinode
  obtain ⟨root, k₂, he₂, hroot, hview₂⟩ := vfs.dMakeRoot_some i k₁
  refine ⟨⟨k₂, Function.update inodes i x.setDirOps,
    ⟨s2fsMagic, .s2fs, some root⟩, 2⟩, root, i, ?_, ?_⟩
  · rw [hview₁] at hview₂ hroot
    exact {
      view := hview₂
      freshInode := hfresh
      freshDentry := hroot
      asked := rfl
      mode := by
        dsimp only
        rw [Function.update_self]
        exact hmode
      isDir := by
        dsimp only
        rw [Function.update_self]
        exact isDir_setDirOps (by rw [hmode]; decide)
      sb := rfl }
  · rw [mount, s2fsFillSuper]
    dsimp only
    rw [he₁]
    dsimp only [Mount.setInode]
    rw [zero_add, hdentry, he₂]
    dsimp only
    rw [Function.update_self, Function.update_idem]

/-- What `s2fs_fill_super` leaves behind. -/
inductive MountEnd (vfs : Vfs K ι δ) (alloc : ℕ → Bool) (kernel : K) (run : ℤ × Mount K ι δ) :
    Prop
  | noInode : alloc 0 = false → run.1 = -enomem → vfs.view run.2.kernel = vfs.view kernel →
      MountEnd vfs alloc kernel run
  | noDentry (i : ι) : alloc 0 = true → alloc 1 = false → run.1 = -enomem →
      (vfs.view kernel).inodeCount i = 0 →
      (vfs.view run.2.kernel).inodeCount = (vfs.view kernel).inodeCount - Pi.single i 1 →
      (vfs.view run.2.kernel).dentryCount = (vfs.view kernel).dentryCount →
      MountEnd vfs alloc kernel run
  | mounted (m : Mount K ι δ) (root : δ) (i : ι) (made : List (MadeEntry ι δ)) :
      alloc 0 = true → alloc 1 = true → run.1 = 0 → RootOnly vfs kernel m root i →
      Contents alloc root made → Made vfs m made run.2 → MountEnd vfs alloc kernel run

/-- Whichever allocations fail, a mount takes the references of the root and of the entries
made, or none, or gives back one more than it has taken. -/
theorem mount_leaves (vfs : Vfs K ι δ) (alloc : ℕ → Bool) (kernel : K) (inodes : ι → Inode) :
    MountEnd vfs alloc kernel (mount vfs alloc kernel inodes) := by
  cases hinode : alloc 0 with
  | false =>
      obtain ⟨k, hview, he⟩ := mount_of_inode_null vfs hinode kernel inodes
      rw [he]
      exact .noInode hinode rfl hview
  | true =>
      cases hdentry : alloc 1 with
      | false =>
          obtain ⟨k, i, x, hfresh, hview, he⟩ :=
            mount_of_dentry_null vfs hinode hdentry kernel inodes
          rw [he]
          apply MountEnd.noDentry i hinode hdentry rfl hfresh
          · rw [hview]
            simp only [View.putInode, View.getInode, add_sub_cancel_right]
          · rw [hview]
            rfl
      | true =>
          obtain ⟨m, root, i, hr, he⟩ := mount_of_rootOnly vfs hinode hdentry kernel inodes
          have hlive : 0 < (vfs.view m.kernel).dentryCount root := by
            rw [hr.view]
            simp [View.addRoot, View.getInode, hr.freshDentry]
          obtain ⟨made, hcontents, hmade⟩ := createContents_made Made.nil hr.asked hlive
          rw [he]
          exact .mounted m root i made hinode hdentry rfl hr hcontents hmade

end Mounting

end OperatingSystems.S2fs
