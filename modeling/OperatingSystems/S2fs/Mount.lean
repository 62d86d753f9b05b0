import OperatingSystems.S2fs.Vfs
import Mathlib.Tactic.IntervalCases

/-!
# Mounting s2fs

`s2fs_fill_super` makes the root directory, the directory foo in it and the file bar in
foo. The allocations of one call are numbered in their order: the inode and the dentry
of the root, the dentry and the inode of foo, the dentry and the inode of bar.
-/
namespace OperatingSystems.S2fs

inductive InodeOperations where
  | empty
  | simpleDir
deriving DecidableEq

inductive FileOperations where
  | empty
  | simpleDir
  | s2fs
deriving DecidableEq

inductive SuperOperations where
  | empty
  | s2fs
deriving DecidableEq

structure Inode where
  iIno : ℕ
  iMode : ℕ
  iUid : ℕ
  iGid : ℕ
  iBlocks : ℕ
  iAtime : ℤ
  iMtime : ℤ
  iCtime : ℤ
  iOp : InodeOperations
  iFop : FileOperations
deriving DecidableEq

def sIfmt : ℕ := 0o170000

def sIfdir : ℕ := 0o040000

def sIfreg : ℕ := 0o100000

def Inode.IsDir (x : Inode) : Prop :=
  x.iMode &&& sIfmt = sIfdir ∧ x.iOp = .simpleDir ∧ x.iFop = .simpleDir

def Inode.IsFile (x : Inode) : Prop := x.iMode &&& sIfmt = sIfreg ∧ x.iFop = .s2fs

structure SuperBlock (δ : Type*) where
  sMagic : ℕ
  sOp : SuperOperations
  sRoot : Option δ

def s2fsMagic : ℕ := 0x19980122

def enomem : ℤ := 12

/-- The kernel, the contents of the inodes, the superblock and the number of the allocations
that were made. -/
structure Mount (K ι δ : Type*) where
  kernel : K
  inodes : ι → Inode
  sb : SuperBlock δ
  asked : ℕ

section Code
variable {K ι δ : Type*} [DecidableEq ι] [DecidableEq δ]
variable (vfs : Vfs K ι δ) (alloc : ℕ → Bool)

def Mount.setInode (m : Mount K ι δ) (i : ι) (change : Inode → Inode) : Mount K ι δ :=
  { m with inodes := Function.update m.inodes i (change (m.inodes i)) }

/-- The fields that are not set here are left as `new_inode` has set them. -/
def Inode.setNew (mode ino : ℕ) (now : ℤ) (x : Inode) : Inode :=
  { x with
    iIno := ino, iMode := mode, iUid := 0, iGid := 0, iBlocks := 0
    iAtime := now, iMtime := now, iCtime := now }

def s2fsMakeInode (mode : ℕ) (m : Mount K ι δ) : Option ι × Mount K ι δ :=
  match vfs.newInode (alloc m.asked) m.kernel with
  | (none, k) => (none, { m with kernel := k, asked := m.asked + 1 })
  | (some ret, k) =>
      let (ino, k) := vfs.getNextIno k
      let m := { m with kernel := k, asked := m.asked + 1 }
      (some ret, m.setInode ret (Inode.setNew mode ino (vfs.currentTime k)))

/-- `s2fs_create_dir` and `s2fs_create_file`, which differ in the mode and in the operations
that they set. -/
def createEntry (mode : ℕ) (setOps : Inode → Inode) (parent : δ) (name : String)
    (m : Mount K ι δ) : Option δ × Mount K ι δ :=
  let qname := ⟨name, name.utf8ByteSize, vfs.fullNameHash parent name name.utf8ByteSize⟩
  match vfs.dAlloc (alloc m.asked) parent qname m.kernel with
  | (none, k) => (none, { m with kernel := k, asked := m.asked + 1 })
  | (some dentry, k) =>
      match s2fsMakeInode vfs alloc mode { m with kernel := k, asked := m.asked + 1 } with
      | (none, m) => (none, { m with kernel := vfs.dput dentry m.kernel })
      | (some inode, m) =>
          let m := m.setInode inode setOps
          (some dentry, { m with kernel := vfs.dAdd dentry inode m.kernel })

def Inode.setDirOps (x : Inode) : Inode := { x with iOp := .simpleDir, iFop := .simpleDir }

def Inode.setFileOps (x : Inode) : Inode := { x with iFop := .s2fs }

def s2fsCreateDir (parent : δ) (dirName : String) (m : Mount K ι δ) :
    Option δ × Mount K ι δ :=
  createEntry vfs alloc (sIfdir ||| 0o777) Inode.setDirOps parent dirName m

def s2fsCreateFile (dir : δ) (fileName : String) (m : Mount K ι δ) : Option δ × Mount K ι δ :=
  createEntry vfs alloc (sIfreg ||| 0o644) Inode.setFileOps dir fileName m

/-- `foo` and `bar`, after the root. The two results are not returned. -/
def createContents (rootDentry : δ) (m : Mount K ι δ) : Mount K ι δ :=
  match s2fsCreateDir vfs alloc rootDentry "foo" m with
  | (none, m) => m
  | (some subdirectory, m) => (s2fsCreateFile vfs alloc subdirectory "bar" m).2

def s2fsFillSuper (m : Mount K ι δ) : ℤ × Mount K ι δ :=
  let m := { m with sb := { m.sb with sMagic := s2fsMagic, sOp := .s2fs } }
  match s2fsMakeInode vfs alloc (sIfdir ||| 0o755) m with
  | (none, m) => (-enomem, m)
  | (some root, m) =>
      let m := m.setInode root Inode.setDirOps
      match vfs.dMakeRoot (alloc m.asked) root m.kernel with
      | (none, k) => (-enomem, { m with kernel := vfs.iput root k, asked := m.asked + 1 })
      | (some rootDentry, k) =>
          let m := { m with
            kernel := k, asked := m.asked + 1, sb := { m.sb with sRoot := some rootDentry } }
          (0, createContents vfs alloc rootDentry m)

/-- The call on the superblock that `mount_nodev` has just made. -/
def mount (kernel : K) (inodes : ι → Inode) : ℤ × Mount K ι δ :=
  s2fsFillSuper vfs alloc ⟨kernel, inodes, ⟨0, .empty, none⟩, 0⟩

end Code

section Specification
variable {K ι δ : Type*} [DecidableEq ι] [DecidableEq δ]
variable {vfs : Vfs K ι δ} {alloc : ℕ → Bool} {m : Mount K ι δ}

theorem s2fsMakeInode_null (vfs : Vfs K ι δ) (m : Mount K ι δ) (mode : ℕ)
    (h : alloc m.asked = false) :
    ∃ k, vfs.view k = vfs.view m.kernel ∧
      s2fsMakeInode vfs alloc mode m = (none, { m with kernel := k, asked := m.asked + 1 }) := by
  obtain ⟨k, he, hview⟩ := vfs.newInode_null m.kernel
  refine ⟨k, hview, ?_⟩
  rw [s2fsMakeInode, h, he]

theorem s2fsMakeInode_some (vfs : Vfs K ι δ) (m : Mount K ι δ) (mode : ℕ)
    (h : alloc m.asked = true) :
    ∃ k i x, (vfs.view m.kernel).inodeCount i = 0 ∧
      vfs.view k = (vfs.view m.kernel).getInode i ∧ x.iMode = mode ∧
      s2fsMakeInode vfs alloc mode m = (some i,
        { m with
          kernel := k, asked := m.asked + 1, inodes := Function.update m.inodes i x }) := by
  obtain ⟨i, k, he, hfresh, hview⟩ := vfs.newInode_some m.kernel
  let next := vfs.getNextIno k
  have hnext : vfs.view next.2 = (vfs.view m.kernel).getInode i := by
    rw [vfs.view_getNextIno, hview]
  refine ⟨next.2, i, Inode.setNew mode next.1 (vfs.currentTime next.2) (m.inodes i), hfresh,
    hnext, rfl, ?_⟩
  rw [s2fsMakeInode, h, he]
  rfl

/-- A failure gives back every reference, and leaves the directories in use as they were. -/
theorem createEntry_null (vfs : Vfs K ι δ) (mode : ℕ) (setOps : Inode → Inode)
    {parent : δ} (name : String) (h : alloc m.asked = false ∨ alloc (m.asked + 1) = false)
    (hp : 0 < (vfs.view m.kernel).dentryCount parent) :
    ∃ k n, (vfs.view k).inodeCount = (vfs.view m.kernel).inodeCount ∧
      (vfs.view k).dentryCount = (vfs.view m.kernel).dentryCount ∧
      (∀ a, 0 < (vfs.view m.kernel).dentryCount a →
        (vfs.view k).subdirs a = (vfs.view m.kernel).subdirs a) ∧
      createEntry vfs alloc mode setOps parent name m =
        (none, { m with kernel := k, asked := n }) := by
  let qname : Qstr :=
    ⟨name, name.utf8ByteSize, vfs.fullNameHash parent name name.utf8ByteSize⟩
  cases hfirst : alloc m.asked with
  | false =>
      obtain ⟨k, he, hview⟩ := vfs.dAlloc_null parent qname m.kernel
      refine ⟨k, m.asked + 1, ?_, ?_, ?_, ?_⟩
      · rw [hview]
      · rw [hview]
      · intro a _
        rw [hview]
      · rw [createEntry]
        dsimp only
        rw [hfirst, he]
  | true =>
      have hsecond : alloc (m.asked + 1) = false := by
        rcases h with h | h
        · rw [hfirst] at h
          cases h
        · exact h
      obtain ⟨d, k₁, he₁, hfresh, hview₁⟩ := vfs.dAlloc_some parent qname m.kernel hp
      obtain ⟨k₂, hview₂, he₂⟩ := s2fsMakeInode_null vfs
        { m with kernel := k₁, asked := m.asked + 1 } mode hsecond
      have hview : vfs.view k₂ = (vfs.view m.kernel).addChild parent d name := by
        rw [hview₂, hview₁]
      have hcount : (vfs.view k₂).dentryCount d = 1 := by
        rw [hview, View.dentryCount_addChild (View.ne_of_fresh hp hfresh), hfresh, zero_add]
      have hnone : (vfs.view k₂).inode d = none := by
        simp [hview, View.addChild]
      have hdrop : vfs.view (vfs.dput d k₂) =
          ((vfs.view m.kernel).addChild parent d name).dropChild d := by
        rw [vfs.view_dput d k₂ hcount hnone, hview]
      refine ⟨vfs.dput d k₂, m.asked + 2, ?_, ?_, ?_, ?_⟩
      · rw [hdrop]
        rfl
      · rw [hdrop]
        exact View.dentryCount_dropChild_addChild
      · intro a ha
        rw [hdrop]
        exact View.subdirs_dropChild_addChild (View.ne_of_fresh ha hfresh)
      · rw [createEntry]
        dsimp only
        rw [hfirst, he₁]
        dsimp only
        rw [he₂]

theorem createEntry_some (vfs : Vfs K ι δ) (mode : ℕ) (setOps : Inode → Inode)
    {parent : δ} (name : String) (hfirst : alloc m.asked = true)
    (hsecond : alloc (m.asked + 1) = true)
    (hp : 0 < (vfs.view m.kernel).dentryCount parent) :
    ∃ k d i x, (vfs.view m.kernel).dentryCount d = 0 ∧ (vfs.view m.kernel).inodeCount i = 0 ∧
      vfs.view k = (vfs.view m.kernel).addEntry parent d name i ∧ x.iMode = mode ∧
      createEntry vfs alloc mode setOps parent name m = (some d,
        { m with
          kernel := k, asked := m.asked + 2
          inodes := Function.update m.inodes i (setOps x) }) := by
  let qname : Qstr :=
    ⟨name, name.utf8ByteSize, vfs.fullNameHash parent name name.utf8ByteSize⟩
  obtain ⟨d, k₁, he₁, hfresh, hview₁⟩ := vfs.dAlloc_some parent qname m.kernel hp
  obtain ⟨k₂, i, x, hinode, hview₂, hmode, he₂⟩ := s2fsMakeInode_some vfs
    { m with kernel := k₁, asked := m.asked + 1 } mode hsecond
  have hfreshInode : (vfs.view m.kernel).inodeCount i = 0 := by
    rw [hview₁] at hinode
    exact hinode
  refine ⟨vfs.dAdd d i k₂, d, i, x, hfresh, hfreshInode, ?_, hmode, ?_⟩
  · rw [vfs.view_dAdd, hview₂, hview₁]
    rfl
  · rw [createEntry]
    dsimp only
    rw [hfirst, he₁]
    dsimp only
    rw [he₂]
    dsimp only [Mount.setInode]
    rw [Function.update_self, Function.update_idem]

theorem mount_of_inode_null (vfs : Vfs K ι δ) (h : alloc 0 = false) (kernel : K)
    (inodes : ι → Inode) :
    ∃ k, vfs.view k = vfs.view kernel ∧
      mount vfs alloc kernel inodes =
        (-enomem, ⟨k, inodes, ⟨s2fsMagic, .s2fs, none⟩, 1⟩) := by
  obtain ⟨k, hview, he⟩ := s2fsMakeInode_null vfs
    ⟨kernel, inodes, ⟨s2fsMagic, .s2fs, none⟩, 0⟩ (sIfdir ||| 0o755) h
  refine ⟨k, hview, ?_⟩
  rw [mount, s2fsFillSuper]
  dsimp only
  rw [he]

/-- The inode is released by `d_make_root` and once more at `out_iput`. -/
theorem mount_of_dentry_null (vfs : Vfs K ι δ) (hinode : alloc 0 = true)
    (hdentry : alloc 1 = false) (kernel : K) (inodes : ι → Inode) :
    ∃ k i x, (vfs.view kernel).inodeCount i = 0 ∧
      vfs.view k = (((vfs.view kernel).getInode i).putInode i).putInode i ∧
      mount vfs alloc kernel inodes =
        (-enomem, ⟨k, Function.update inodes i x, ⟨s2fsMagic, .s2fs, none⟩, 2⟩) := by
  obtain ⟨k₁, i, x, hfresh, hview₁, -, he₁⟩ := s2fsMakeInode_some vfs
    ⟨kernel, inodes, ⟨s2fsMagic, .s2fs, none⟩, 0⟩ (sIfdir ||| 0o755) hinode
  obtain ⟨k₂, he₂, hview₂⟩ := vfs.dMakeRoot_null i k₁
  refine ⟨vfs.iput i k₂, i, x.setDirOps, hfresh, ?_, ?_⟩
  · rw [vfs.view_iput, hview₂, hview₁]
  · rw [mount, s2fsFillSuper]
    dsimp only
    rw [he₁]
    dsimp only [Mount.setInode]
    rw [zero_add, hdentry, he₂]
    dsimp only
    rw [Function.update_self, Function.update_idem]

/-- The root directory has been made and is empty. -/
structure Rooted (vfs : Vfs K ι δ) (m : Mount K ι δ) (root : δ) (i : ι) : Prop where
  asked : m.asked = 2
  sRoot : m.sb.sRoot = some root
  linked : (vfs.view m.kernel).inode root = some i
  isDir : (m.inodes i).IsDir
  empty : (vfs.view m.kernel).subdirs root = []
  live : 0 < (vfs.view m.kernel).dentryCount root
  inodeLive : 0 < (vfs.view m.kernel).inodeCount i

theorem isDir_setDirOps {x : Inode} (h : x.iMode &&& sIfmt = sIfdir) : x.setDirOps.IsDir :=
  ⟨h, rfl, rfl⟩

theorem mount_of_root (vfs : Vfs K ι δ) (hinode : alloc 0 = true) (hdentry : alloc 1 = true)
    (kernel : K) (inodes : ι → Inode) :
    ∃ m root i, Rooted vfs m root i ∧
      mount vfs alloc kernel inodes = (0, createContents vfs alloc root m) := by
  obtain ⟨k₁, i, x, hfresh, hview₁, hmode, he₁⟩ := s2fsMakeInode_some vfs
    ⟨kernel, inodes, ⟨s2fsMagic, .s2fs, none⟩, 0⟩ (sIfdir ||| 0o755) hinode
  obtain ⟨root, k₂, he₂, hroot, hview₂⟩ := vfs.dMakeRoot_some i k₁
  have hdir : x.setDirOps.IsDir := isDir_setDirOps (by rw [hmode]; decide)
  refine ⟨⟨k₂, Function.update inodes i x.setDirOps,
    ⟨s2fsMagic, .s2fs, some root⟩, 2⟩, root, i, ?_, ?_⟩
  · rw [hview₁] at hroot
    exact {
      asked := rfl
      sRoot := rfl
      linked := by simp [hview₂, View.addRoot]
      isDir := by
        dsimp only
        rw [Function.update_self]
        exact hdir
      empty := by simp [hview₂, View.addRoot]
      live := by simp [hview₂, hview₁, View.addRoot, hroot]
      inodeLive := by simp [hview₂, hview₁, View.addRoot, View.getInode, hfresh] }
  · rw [mount, s2fsFillSuper]
    dsimp only
    rw [he₁]
    dsimp only [Mount.setInode]
    rw [zero_add, hdentry, he₂]
    dsimp only
    rw [Function.update_self, Function.update_idem]

/-- The root directory, the directory foo in it and the file bar in foo. -/
structure Tree (vfs : Vfs K ι δ) (m : Mount K ι δ) (root foo bar : δ)
    (rootInode fooInode barInode : ι) : Prop where
  sRoot : m.sb.sRoot = some root
  rootLinked : (vfs.view m.kernel).inode root = some rootInode
  rootDir : (m.inodes rootInode).IsDir
  fooLinked : (vfs.view m.kernel).Linked root foo "foo" fooInode
  fooDir : (m.inodes fooInode).IsDir
  barLinked : (vfs.view m.kernel).Linked foo bar "bar" barInode
  barFile : (m.inodes barInode).IsFile

def Mounted (vfs : Vfs K ι δ) (m : Mount K ι δ) : Prop :=
  ∃ root foo bar rootInode fooInode barInode,
    Tree vfs m root foo bar rootInode fooInode barInode

/-- After the release of the superblock the reference counts are those before the call. -/
structure Restored (vfs : Vfs K ι δ) (kernel : K) (m : Mount K ι δ) : Prop where
  inodeCount : (vfs.view (vfs.releaseSuper m.sb.sRoot m.kernel)).inodeCount =
    (vfs.view kernel).inodeCount
  dentryCount : (vfs.view (vfs.releaseSuper m.sb.sRoot m.kernel)).dentryCount =
    (vfs.view kernel).dentryCount

def AllOrNothing (vfs : Vfs K ι δ) (alloc : ℕ → Bool) (kernel : K) (inodes : ι → Inode) : Prop :=
  let run := mount vfs alloc kernel inodes
  run.1 = 0 ∧ Mounted vfs run.2 ∨ run.1 ≠ 0 ∧ Restored vfs kernel run.2

/-- The root directory holds foo, which is empty. -/
structure WithFoo (vfs : Vfs K ι δ) (m : Mount K ι δ) (root foo : δ) (i fooInode : ι) :
    Prop where
  asked : m.asked = 4
  sRoot : m.sb.sRoot = some root
  rootLinked : (vfs.view m.kernel).inode root = some i
  rootDir : (m.inodes i).IsDir
  fooLinked : (vfs.view m.kernel).Linked root foo "foo" fooInode
  fooDir : (m.inodes fooInode).IsDir
  onlyFoo : (vfs.view m.kernel).subdirs root = [foo]
  empty : (vfs.view m.kernel).subdirs foo = []
  rootLive : 0 < (vfs.view m.kernel).dentryCount root
  fooLive : 0 < (vfs.view m.kernel).dentryCount foo
  rootInodeLive : 0 < (vfs.view m.kernel).inodeCount i
  fooInodeLive : 0 < (vfs.view m.kernel).inodeCount fooInode

variable {root foo : δ} {i fooInode : ι}

theorem createContents_of_foo (h : Rooted vfs m root i) (hdentry : alloc 2 = true)
    (hinode : alloc 3 = true) :
    ∃ m₁ foo fooInode, WithFoo vfs m₁ root foo i fooInode ∧
      createContents vfs alloc root m = (s2fsCreateFile vfs alloc foo "bar" m₁).2 := by
  obtain ⟨k, foo, fooInode, x, hfoo, hfresh, hview, hmode, he⟩ :=
    createEntry_some vfs (sIfdir ||| 0o777) Inode.setDirOps "foo" (h.asked ▸ hdentry)
      (h.asked ▸ hinode) h.live
  have hne : root ≠ foo := View.ne_of_fresh h.live hfoo
  have hinodes : i ≠ fooInode := View.ne_of_fresh h.inodeLive hfresh
  have hdir : x.setDirOps.IsDir := isDir_setDirOps (by rw [hmode]; decide)
  refine ⟨{ m with
    kernel := k, asked := m.asked + 2
    inodes := Function.update m.inodes fooInode x.setDirOps }, foo, fooInode, ?_, ?_⟩
  · exact {
      asked := by dsimp only; rw [h.asked]
      sRoot := h.sRoot
      rootLinked := by rw [hview, View.inode_addEntry hne, h.linked]
      rootDir := by dsimp only; rw [Function.update_of_ne hinodes]; exact h.isDir
      fooLinked := by rw [hview]; exact View.linked_addEntry
      fooDir := by dsimp only; rw [Function.update_self]; exact hdir
      onlyFoo := by rw [hview, View.subdirs_addEntry_parent, h.empty]
      empty := by rw [hview, View.subdirs_addEntry_self hne]
      rootLive := by
        rw [hview]
        exact Int.lt_of_lt_of_le h.live (View.dentryCount_le_addEntry root)
      fooLive := by rw [hview, View.dentryCount_addEntry hne, hfoo]; decide
      rootInodeLive := by
        rw [hview, View.inodeCount_addEntry_of_ne hinodes]
        exact h.inodeLive
      fooInodeLive := by rw [hview, View.inodeCount_addEntry_self, hfresh]; decide }
  · rw [createContents, s2fsCreateDir, he]

theorem mounted_of_withFoo (h : WithFoo vfs m root foo i fooInode) (hdentry : alloc 4 = true)
    (hinode : alloc 5 = true) : Mounted vfs (s2fsCreateFile vfs alloc foo "bar" m).2 := by
  obtain ⟨k, bar, barInode, x, hbar, hfresh, hview, hmode, he⟩ :=
    createEntry_some vfs (sIfreg ||| 0o644) Inode.setFileOps "bar" (h.asked ▸ hdentry)
      (h.asked ▸ hinode) h.fooLive
  have hroot : root ≠ bar := View.ne_of_fresh h.rootLive hbar
  have hfoo : foo ≠ bar := View.ne_of_fresh h.fooLive hbar
  have hi : i ≠ barInode := View.ne_of_fresh h.rootInodeLive hfresh
  have hfooInode : fooInode ≠ barInode := View.ne_of_fresh h.fooInodeLive hfresh
  rw [s2fsCreateFile, he]
  refine ⟨root, foo, bar, i, fooInode, barInode, ?_⟩
  exact {
    sRoot := h.sRoot
    rootLinked := by rw [hview, View.inode_addEntry hroot, h.rootLinked]
    rootDir := by dsimp only; rw [Function.update_of_ne hi]; exact h.rootDir
    fooLinked := by rw [hview]; exact h.fooLinked.addEntry hfoo hroot
    fooDir := by dsimp only; rw [Function.update_of_ne hfooInode]; exact h.fooDir
    barLinked := by rw [hview]; exact View.linked_addEntry
    barFile := by
      dsimp only
      rw [Function.update_self]
      exact ⟨by rw [Inode.setFileOps, hmode]; decide, rfl⟩ }

theorem not_mounted_of_rooted (h : Rooted vfs m root i)
    (hnull : alloc 2 = false ∨ alloc 3 = false) :
    ¬ Mounted vfs (createContents vfs alloc root m) := by
  have hnull' : alloc m.asked = false ∨ alloc (m.asked + 1) = false := by
    rw [h.asked]
    exact hnull
  obtain ⟨k, n, -, -, hsubdirs, he⟩ := createEntry_null vfs (sIfdir ||| 0o777)
    Inode.setDirOps "foo" hnull' h.live
  rintro ⟨root', foo, bar, rootInode, fooInode, barInode, ht⟩
  rw [createContents, s2fsCreateDir, he] at ht
  have hroot : root' = root := Option.some.inj (ht.sRoot.symm.trans h.sRoot)
  have hmem := ht.fooLinked.mem_subdirs
  rw [hroot, hsubdirs root h.live, h.empty] at hmem
  cases hmem

theorem not_mounted_of_withFoo (h : WithFoo vfs m root foo i fooInode)
    (hnull : alloc 4 = false ∨ alloc 5 = false) :
    ¬ Mounted vfs (s2fsCreateFile vfs alloc foo "bar" m).2 := by
  have hnull' : alloc m.asked = false ∨ alloc (m.asked + 1) = false := by
    rw [h.asked]
    exact hnull
  obtain ⟨k, n, -, -, hsubdirs, he⟩ := createEntry_null vfs (sIfreg ||| 0o644)
    Inode.setFileOps "bar" hnull' h.fooLive
  rintro ⟨root', foo', bar, rootInode, fooInode', barInode, ht⟩
  rw [s2fsCreateFile, he] at ht
  have hroot : root' = root := Option.some.inj (ht.sRoot.symm.trans h.sRoot)
  have hfoo := ht.fooLinked.mem_subdirs
  rw [hroot, hsubdirs root h.rootLive, h.onlyFoo, List.mem_singleton] at hfoo
  have hbar := ht.barLinked.mem_subdirs
  rw [hfoo, hsubdirs foo h.fooLive, h.empty] at hbar
  cases hbar

theorem null_of_not_and {a b : Bool} (h : ¬ (a = true ∧ b = true)) : a = false ∨ b = false :=
  (not_and_or.mp h).imp Bool.eq_false_of_not_eq_true Bool.eq_false_of_not_eq_true

theorem mounted_iff_of_withFoo (h : WithFoo vfs m root foo i fooInode) :
    Mounted vfs (s2fsCreateFile vfs alloc foo "bar" m).2 ↔ alloc 4 = true ∧ alloc 5 = true := by
  constructor
  · intro hm
    by_contra hne
    exact not_mounted_of_withFoo h (null_of_not_and hne) hm
  · intro hall
    exact mounted_of_withFoo h hall.1 hall.2

theorem mounted_iff_of_rooted (h : Rooted vfs m root i) :
    Mounted vfs (createContents vfs alloc root m) ↔
      (alloc 2 = true ∧ alloc 3 = true) ∧ alloc 4 = true ∧ alloc 5 = true := by
  by_cases hfoo : alloc 2 = true ∧ alloc 3 = true
  · obtain ⟨m₁, foo, fooInode, hw, he⟩ := createContents_of_foo h hfoo.1 hfoo.2
    rw [he, mounted_iff_of_withFoo hw]
    exact (and_iff_right hfoo).symm
  · exact iff_of_false (not_mounted_of_rooted h (null_of_not_and hfoo)) fun hall => hfoo hall.1

theorem enomem_ne_zero : -enomem ≠ 0 := by decide

/-- An error of the root's inode is returned with nothing taken. -/
theorem allOrNothing_of_inode_null (kernel : K) (inodes : ι → Inode) (h : alloc 0 = false) :
    AllOrNothing vfs alloc kernel inodes := by
  obtain ⟨k, hview, he⟩ := mount_of_inode_null vfs h kernel inodes
  have hreleased : vfs.view (vfs.releaseSuper none k) = vfs.view kernel := by
    rw [vfs.view_releaseSuper, hview]
  rw [AllOrNothing, he]
  refine .inr ⟨enomem_ne_zero, ?_, ?_⟩
  · rw [hreleased]
  · rw [hreleased]

theorem not_allOrNothing_of_dentry_null (kernel : K) (inodes : ι → Inode)
    (hinode : alloc 0 = true) (hdentry : alloc 1 = false) :
    ¬ AllOrNothing vfs alloc kernel inodes := by
  obtain ⟨k, i, x, -, hview, he⟩ := mount_of_dentry_null vfs hinode hdentry kernel inodes
  rw [AllOrNothing, he]
  rintro (⟨hzero, -⟩ | ⟨-, hrestored⟩)
  · exact enomem_ne_zero hzero
  · have hcount := congrFun hrestored.inodeCount i
    rw [vfs.view_releaseSuper, hview] at hcount
    simp only [View.putInode, View.getInode, Pi.sub_apply, Pi.add_apply, Pi.single_eq_same]
      at hcount
    omega

/-- Behind the root the call returns 0, whatever has been made. -/
theorem allOrNothing_iff_mounted {kernel : K} {inodes : ι → Inode}
    (h : mount vfs alloc kernel inodes = (0, m)) :
    AllOrNothing vfs alloc kernel inodes ↔ Mounted vfs m := by
  rw [AllOrNothing, h]
  constructor
  · rintro (⟨-, hm⟩ | ⟨hne, -⟩)
    · exact hm
    · exact absurd rfl hne
  · intro hm
    exact .inl ⟨rfl, hm⟩

/-- The mount is all or nothing exactly if the first allocation fails or none does. -/
theorem all_or_nothing_iff (vfs : Vfs K ι δ) (alloc : ℕ → Bool) (kernel : K)
    (inodes : ι → Inode) :
    AllOrNothing vfs alloc kernel inodes ↔ alloc 0 = false ∨ ∀ n < 6, alloc n = true := by
  cases hinode : alloc 0 with
  | false => exact iff_of_true (allOrNothing_of_inode_null kernel inodes hinode) (.inl rfl)
  | true =>
      cases hdentry : alloc 1 with
      | false =>
          apply iff_of_false (not_allOrNothing_of_dentry_null kernel inodes hinode hdentry)
          rintro (h | h)
          · cases h
          · rw [h 1 (by decide)] at hdentry
            cases hdentry
      | true =>
          obtain ⟨m, root, i, hr, he⟩ := mount_of_root vfs hinode hdentry kernel inodes
          rw [allOrNothing_iff_mounted he, mounted_iff_of_rooted hr]
          constructor
          · rintro ⟨⟨h₂, h₃⟩, h₄, h₅⟩
            right
            intro n hn
            interval_cases n
            · exact hinode
            · exact hdentry
            · exact h₂
            · exact h₃
            · exact h₄
            · exact h₅
          · rintro (h | h)
            · cases h
            · exact ⟨⟨h 2 (by decide), h 3 (by decide)⟩, h 4 (by decide), h 5 (by decide)⟩

end Specification

def blankInode : Inode := ⟨0, 0, 0, 0, 0, 0, 0, 0, .empty, .empty⟩

/-- The dentry of the root is not allocated, and the root's inode is released twice. -/
theorem root_released_twice :
    let run := mount Numbered.vfs (fun n => n ≠ 1) Numbered.empty fun _ => blankInode
    run.1 = -12 ∧ run.2.kernel.view.inodeCount 0 = -1 ∧
      ¬ AllOrNothing Numbered.vfs (fun n => n ≠ 1) Numbered.empty fun _ => blankInode := by
  intro run
  have hresult : run.1 = -12 := rfl
  have hcount : run.2.kernel.view.inodeCount 0 = -1 := by decide
  refine ⟨hresult, hcount, ?_⟩
  rintro (⟨hzero, -⟩ | ⟨-, hrestored⟩)
  · exact absurd (hresult.symm.trans hzero) (by decide)
  · have hbefore : run.2.kernel.view.inodeCount 0 = 0 := congrFun hrestored.inodeCount 0
    exact absurd (hcount.symm.trans hbefore) (by decide)

end OperatingSystems.S2fs
