import Mathlib.Algebra.Group.Pi.Basic
import Mathlib.Algebra.Ring.Int.Defs
import Mathlib.Data.List.Basic
import Mathlib.Tactic.Abel

/-!
# The kernel's inodes and dentries

What a file system sees of them through `new_inode`, `iput`, `d_alloc`, `d_make_root`,
`d_add` and `dput`. These belong to the kernel and are parameters here. Their laws say
how each of them changes the reference counts and the links between the dentries; the
kernel's state behind that, and the choice of a new object, are left open.

An operation that allocates is given the outcome of its allocation.
-/
namespace OperatingSystems.S2fs

/-- The references taken and not yet released, negative for an object that was released too
often, and the links of the dentries. -/
structure View (ι δ : Type*) where
  inodeCount : ι → ℤ
  dentryCount : δ → ℤ
  name : δ → String
  parent : δ → δ
  inode : δ → Option ι
  subdirs : δ → List δ

namespace View
variable {ι δ : Type*} [DecidableEq ι] [DecidableEq δ] (view : View ι δ)

def getInode (i : ι) : View ι δ := { view with inodeCount := view.inodeCount + Pi.single i 1 }

def putInode (i : ι) : View ι δ := { view with inodeCount := view.inodeCount - Pi.single i 1 }

/-- A dentry without a parent takes over the inode. -/
def addRoot (d : δ) (i : ι) : View ι δ :=
  { view with
    dentryCount := view.dentryCount + Pi.single d 1
    name := Function.update view.name d "/"
    parent := Function.update view.parent d d
    inode := Function.update view.inode d (some i)
    subdirs := Function.update view.subdirs d [] }

/-- A dentry without an inode, which holds a reference on its parent. -/
def addChild (parent d : δ) (name : String) : View ι δ :=
  { view with
    dentryCount := view.dentryCount + Pi.single d 1 + Pi.single parent 1
    name := Function.update view.name d name
    parent := Function.update view.parent d parent
    inode := Function.update view.inode d none
    subdirs := Function.update (Function.update view.subdirs d []) parent
      (d :: view.subdirs parent) }

/-- The inode's reference is the dentry's from now on. -/
def instantiate (d : δ) (i : ι) : View ι δ :=
  { view with inode := Function.update view.inode d (some i) }

/-- The dentry goes, and with it its reference on the parent. -/
def dropChild (d : δ) : View ι δ :=
  { view with
    dentryCount := view.dentryCount - Pi.single d 1 - Pi.single (view.parent d) 1
    subdirs := Function.update view.subdirs (view.parent d)
      ((view.subdirs (view.parent d)).erase d) }

/-- The dentry is in the directory, under the given name and with the given inode. -/
structure Linked (parent d : δ) (name : String) (i : ι) : Prop where
  mem_subdirs : d ∈ view.subdirs parent
  name : view.name d = name
  inode : view.inode d = some i

/-- A child of the parent, with its inode. -/
def addEntry (parent d : δ) (name : String) (i : ι) : View ι δ :=
  ((view.addChild parent d name).getInode i).instantiate d i

variable {view} {parent d : δ} {name : String} {i : ι}

theorem ne_of_fresh {α : Type*} {count : α → ℤ} {a b : α} (ha : 0 < count a)
    (hb : count b = 0) : a ≠ b := by
  intro he
  rw [he, hb] at ha
  exact Int.lt_irrefl 0 ha

omit [DecidableEq ι] in
theorem dentryCount_addChild (h : parent ≠ d) :
    (view.addChild parent d name).dentryCount d = view.dentryCount d + 1 := by
  simp [addChild, h.symm]

theorem dentryCount_addEntry (h : parent ≠ d) :
    (view.addEntry parent d name i).dentryCount d = view.dentryCount d + 1 := by
  simp [addEntry, addChild, getInode, instantiate, h.symm]

theorem dentryCount_le_addEntry (a : δ) :
    view.dentryCount a ≤ (view.addEntry parent d name i).dentryCount a := by
  have hd : 0 ≤ (Pi.single d 1 : δ → ℤ) a := by
    rw [Pi.single_apply]
    split_ifs <;> decide
  have hp : 0 ≤ (Pi.single parent 1 : δ → ℤ) a := by
    rw [Pi.single_apply]
    split_ifs <;> decide
  simp only [addEntry, addChild, getInode, instantiate, Pi.add_apply]
  omega

theorem subdirs_addEntry_parent :
    (view.addEntry parent d name i).subdirs parent = d :: view.subdirs parent := by
  simp [addEntry, addChild, getInode, instantiate]

theorem subdirs_addEntry_self (h : parent ≠ d) :
    (view.addEntry parent d name i).subdirs d = [] := by
  simp [addEntry, addChild, getInode, instantiate, h.symm]

theorem inodeCount_addEntry_self :
    (view.addEntry parent d name i).inodeCount i = view.inodeCount i + 1 := by
  simp [addEntry, addChild, getInode, instantiate]

theorem inodeCount_addEntry_of_ne {a : ι} (ha : a ≠ i) :
    (view.addEntry parent d name i).inodeCount a = view.inodeCount a := by
  simp [addEntry, addChild, getInode, instantiate, ha]

theorem linked_addEntry : (view.addEntry parent d name i).Linked parent d name i where
  mem_subdirs := by simp [addEntry, addChild, getInode, instantiate]
  name := by simp [addEntry, addChild, getInode, instantiate]
  inode := by simp [addEntry, addChild, getInode, instantiate]

theorem inode_addEntry {a : δ} (ha : a ≠ d) :
    (view.addEntry parent d name i).inode a = view.inode a := by
  simp [addEntry, addChild, getInode, instantiate, ha]

theorem Linked.addEntry {parent' d' : δ} {name' : String} {i' : ι}
    (h : view.Linked parent' d' name' i') (hd : d' ≠ d) (hparent : parent' ≠ d) :
    (view.addEntry parent d name i).Linked parent' d' name' i' where
  mem_subdirs := by
    have hmem := h.mem_subdirs
    by_cases he : parent' = parent
    · subst he
      simp [View.addEntry, addChild, getInode, instantiate, hmem]
    · simp [View.addEntry, addChild, getInode, instantiate, he, hparent, hmem]
  name := by
    simp only [View.addEntry, addChild, getInode, instantiate, Function.update_of_ne hd]
    exact h.name
  inode := by
    rw [inode_addEntry hd]
    exact h.inode

omit [DecidableEq ι] in
theorem dentryCount_dropChild_addChild :
    ((view.addChild parent d name).dropChild d).dentryCount = view.dentryCount := by
  simp only [dropChild, addChild, Function.update_self]
  abel

omit [DecidableEq ι] in
theorem subdirs_dropChild_addChild {a : δ} (ha : a ≠ d) :
    ((view.addChild parent d name).dropChild d).subdirs a = view.subdirs a := by
  simp only [dropChild, addChild, Function.update_self, List.erase_cons_head]
  by_cases he : a = parent
  · rw [he, Function.update_self]
  · rw [Function.update_of_ne he, Function.update_of_ne he, Function.update_of_ne ha]

end View

structure Qstr where
  name : String
  len : ℕ
  hash : UInt32

/-- The kernel's operations on inodes and dentries. -/
structure Vfs (K ι δ : Type*) [DecidableEq ι] [DecidableEq δ] where
  view : K → View ι δ
  newInode : Bool → K → Option ι × K
  newInode_null : ∀ k, ∃ k', newInode false k = (none, k') ∧ view k' = view k
  newInode_some : ∀ k, ∃ i k', newInode true k = (some i, k') ∧
    (view k).inodeCount i = 0 ∧ view k' = (view k).getInode i
  iput : ι → K → K
  view_iput : ∀ i k, view (iput i k) = (view k).putInode i
  /-- A failure releases the inode. -/
  dMakeRoot : Bool → ι → K → Option δ × K
  dMakeRoot_null : ∀ i k, ∃ k', dMakeRoot false i k = (none, k') ∧
    view k' = (view k).putInode i
  dMakeRoot_some : ∀ i k, ∃ d k', dMakeRoot true i k = (some d, k') ∧
    (view k).dentryCount d = 0 ∧ view k' = (view k).addRoot d i
  dAlloc : Bool → δ → Qstr → K → Option δ × K
  dAlloc_null : ∀ p q k, ∃ k', dAlloc false p q k = (none, k') ∧ view k' = view k
  dAlloc_some : ∀ p q k, 0 < (view k).dentryCount p → ∃ d k', dAlloc true p q k = (some d, k') ∧
    (view k).dentryCount d = 0 ∧ view k' = (view k).addChild p d q.name
  dAdd : δ → ι → K → K
  view_dAdd : ∀ d i k, view (dAdd d i k) = (view k).instantiate d i
  /-- The last reference of a dentry that has no inode takes the dentry away. -/
  dput : δ → K → K
  view_dput : ∀ d k, (view k).dentryCount d = 1 → (view k).inode d = none →
    view (dput d k) = (view k).dropChild d
  fullNameHash : δ → String → ℕ → UInt32
  getNextIno : K → ℕ × K
  view_getNextIno : ∀ k, view (getNextIno k).2 = view k
  currentTime : K → ℤ
  /-- What the caller of `fill_super` does with the superblock after an error. -/
  releaseSuper : Option δ → K → K
  view_releaseSuper : ∀ k, view (releaseSuper none k) = view k

/-- All numbers from `next` on are free. -/
structure Numbered where
  view : View ℕ ℕ
  next : ℕ
  inodeFree : ∀ i, next ≤ i → view.inodeCount i = 0
  dentryFree : ∀ d, next ≤ d → view.dentryCount d = 0

namespace Numbered

def empty : Numbered :=
  ⟨⟨fun _ => 0, fun _ => 0, fun _ => "", id, fun _ => none, fun _ => []⟩, 0, fun _ _ => rfl,
    fun _ _ => rfl⟩

def getInode (k : Numbered) : Numbered where
  view := k.view.getInode k.next
  next := k.next + 1
  inodeFree i hi := by
    have hne : i ≠ k.next := by omega
    simp [View.getInode, hne, k.inodeFree i (by omega)]
  dentryFree d hd := k.dentryFree d (by omega)

def putInode (i : ℕ) (k : Numbered) : Numbered where
  view := k.view.putInode i
  next := max k.next (i + 1)
  inodeFree a ha := by
    have hne : a ≠ i := by omega
    simp [View.putInode, hne, k.inodeFree a (by omega)]
  dentryFree d hd := k.dentryFree d (by omega)

def addRoot (i : ℕ) (k : Numbered) : Numbered where
  view := k.view.addRoot k.next i
  next := k.next + 1
  inodeFree a ha := k.inodeFree a (by omega)
  dentryFree d hd := by
    have hne : d ≠ k.next := by omega
    simp [View.addRoot, hne, k.dentryFree d (by omega)]

def addChild (p : ℕ) (name : String) (k : Numbered) : Numbered where
  view := k.view.addChild p k.next name
  next := max (k.next + 1) (p + 1)
  inodeFree a ha := k.inodeFree a (by omega)
  dentryFree d hd := by
    have hne : d ≠ k.next := by omega
    have hparent : d ≠ p := by omega
    simp [View.addChild, hne, hparent, k.dentryFree d (by omega)]

def dropChild (d : ℕ) (k : Numbered) : Numbered where
  view := k.view.dropChild d
  next := max (max k.next (d + 1)) (k.view.parent d + 1)
  inodeFree a ha := k.inodeFree a (by omega)
  dentryFree a ha := by
    have hne : a ≠ d := by omega
    have hparent : a ≠ k.view.parent d := by omega
    simp [View.dropChild, hne, hparent, k.dentryFree a (by omega)]

/-- The hash, the inode numbers and the time are always 0. -/
def vfs : Vfs Numbered ℕ ℕ where
  view := view
  newInode ok k := if ok then (some k.next, k.getInode) else (none, k)
  newInode_null k := ⟨k, rfl, rfl⟩
  newInode_some k := ⟨k.next, k.getInode, rfl, k.inodeFree k.next le_rfl, rfl⟩
  iput := putInode
  view_iput _ _ := rfl
  dMakeRoot ok i k := if ok then (some k.next, k.addRoot i) else (none, k.putInode i)
  dMakeRoot_null i k := ⟨k.putInode i, rfl, rfl⟩
  dMakeRoot_some i k := ⟨k.next, k.addRoot i, rfl, k.dentryFree k.next le_rfl, rfl⟩
  dAlloc ok p q k := if ok then (some k.next, k.addChild p q.name) else (none, k)
  dAlloc_null _ _ k := ⟨k, rfl, rfl⟩
  dAlloc_some p q k _ := ⟨k.next, k.addChild p q.name, rfl, k.dentryFree k.next le_rfl, rfl⟩
  dAdd d i k := { k with view := k.view.instantiate d i }
  view_dAdd _ _ _ := rfl
  dput := dropChild
  view_dput _ _ _ _ := rfl
  fullNameHash _ _ _ := 0
  getNextIno k := (0, k)
  view_getNextIno _ := rfl
  currentTime _ := 0
  releaseSuper _ k := k
  view_releaseSuper _ := rfl

end Numbered

end OperatingSystems.S2fs
