import OperatingSystems.Perftop.Representation

/-!
# The report

Reading `/proc/perftop` prints the three counters and then a line for each node of
the tree, walked from the last node backwards with `rb_last` and `rb_prev`. The loop
counts its lines and stops after a line for which the count was above 8, so that the
tenth line is the last one.
-/
namespace OperatingSystems.Perftop
open Library

/-- `"PID = %d , Total Tsc =  %llu \n"` -/
structure TaskLine where
  pid : ℤ
  totalTsc : UInt64
deriving DecidableEq

def RbNode.line (temp : RbNode) : TaskLine := ⟨temp.value, temp.tsc⟩

/-- The loop from the nodes ahead of it; `count` is incremented after the comparison. -/
def printNodes : ℕ → List RbNode → List TaskLine
  | _, [] => []
  | count, temp :: rest => temp.line :: if count > 8 then [] else printNodes (count + 1) rest

def printRbTree (mytree : BinaryTree RbNode) : List TaskLine :=
  printNodes 0 (inorder mytree).reverse

structure Report where
  preCount : ℤ
  postCount : ℤ
  contextSwitches : ℤ
  tasks : List TaskLine

def perftopShow {β : Type*} (s : State β) : Report where
  preCount := s.preCount.toInt
  postCount := s.postCount.toInt
  contextSwitches := s.contextSwitchCount.toInt
  tasks := printRbTree s.myroot

theorem printNodes_eq {count : ℕ} (hc : count ≤ 9) (nodes : List RbNode) :
    printNodes count nodes = (nodes.take (10 - count)).map RbNode.line := by
  induction nodes generalizing count with
  | nil => rw [printNodes, List.take_nil, List.map_nil]
  | cons temp rest ih =>
      obtain ⟨left, hleft⟩ := Nat.exists_eq_add_of_le hc
      have htake : 10 - count = left + 1 := by omega
      rw [printNodes, htake, List.take_succ_cons, List.map_cons]
      split_ifs with hlast
      · have hnone : left = 0 := by omega
        rw [hnone, List.take_zero, List.map_nil]
      · rw [ih (by omega)]
        congr 3
        omega

theorem printRbTree_eq (mytree : BinaryTree RbNode) :
    printRbTree mytree = ((inorder mytree).reverse.take 10).map RbNode.line :=
  printNodes_eq (Nat.zero_le 9) _

/-- The lines are those of the nodes with the greatest times, at most ten, each pid once and
the greatest time first. -/
theorem TreeOk.printed {root : BinaryTree RbNode} (h : TreeOk root) :
    ∃ printed : List RbNode, printRbTree root = printed.map RbNode.line ∧
      (∀ n ∈ printed, n ∈ inorder root) ∧
      printed.length = min 10 (inorder root).length ∧
      (printed.map RbNode.value).Nodup ∧ printed.Pairwise (fun m n => n.tsc < m.tsc) ∧
      ∀ n ∈ inorder root, n ∉ printed → ∀ m ∈ printed, n.tsc < m.tsc := by
  refine ⟨_, printRbTree_eq root, ?_, ?_, ?_, ?_, ?_⟩
  · intro n hn
    exact List.mem_reverse.mp (List.mem_of_mem_take hn)
  · rw [List.length_take, List.length_reverse]
  · have hreverse : ((inorder root).reverse.map RbNode.value).Nodup := by
      rw [List.map_reverse]
      exact List.nodup_reverse.mpr h.unique
    exact hreverse.sublist ((List.take_sublist ..).map _)
  · apply (h.sorted.reverse.imp _).sublist (List.take_sublist ..)
    intro m n hlt
    exact UInt64.lt_iff_toNat_lt.mpr hlt
  · intro n hn hnot m hm
    exact UInt64.lt_iff_toNat_lt.mpr (h.sorted.lt_of_not_mem_take hm hn hnot)

theorem report_top_ten {β : Type*} [DecidableEq β] {Task : Type*} [DecidableEq Task]
    (k : Kernel β) (pid : Task → ℤ) (evs : List (Event Task)) :
    let s := runEvents k pid evs
    let lines := (perftopShow s).tasks
    lines.length = min 10 (inorder s.myroot).length ∧
      (lines.map TaskLine.pid).Nodup ∧
      lines.Pairwise (fun l l' => l'.totalTsc < l.totalTsc) ∧
      (∀ l ∈ lines, ∃ n ∈ inorder s.myroot, n.line = l) ∧
      ∀ n ∈ inorder s.myroot, n.line ∉ lines → ∀ l ∈ lines, n.tsc < l.totalTsc := by
  intro s lines
  obtain ⟨printed, hlines, hnodes, hlength, hpids, horder, hrest⟩ :=
    (rep_runEvents (k := k) pid evs).tree.printed
  have he : lines = printed.map RbNode.line := hlines
  rw [he]
  refine ⟨?_, ?_, ?_, ?_, ?_⟩
  · rwa [List.length_map]
  · rwa [List.map_map]
  · exact List.pairwise_map.mpr horder
  · intro l hl
    obtain ⟨n, hn, rfl⟩ := List.mem_map.mp hl
    exact ⟨n, hnodes n hn, rfl⟩
  · intro n hn hnot l hl
    obtain ⟨m, hm, rfl⟩ := List.mem_map.mp hl
    exact hrest n hn (fun hprinted => hnot (List.mem_map.mpr ⟨n, hprinted, rfl⟩)) m hm

end OperatingSystems.Perftop
