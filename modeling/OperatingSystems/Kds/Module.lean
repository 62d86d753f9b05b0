import OperatingSystems.Kds.Bitmap
import OperatingSystems.Kds.Freeing
import OperatingSystems.Kds.IntegerList
import Mathlib.Data.List.Infix

/-!
# Loading kds

`lkp_init` reads the integers of its parameter into an array and hands the array to the
linked list, the hash table, the red-black tree, the radix tree, the XArray and the
bitmap in turn. Each run fills its container, reports what is in it, takes everything
out again and reports once more. So all reports are about the same integers, and a list
of integers given as text comes out of every container, provided that the odd ones fit
into the array of results of the radix tree.
-/
namespace OperatingSystems.Kds
open Library

section Array
variable {old : ℕ → Int32}

end Array

section Tree
variable (rb : RbOps Node)

end Tree

section Arrays
variable {σ : Type*} {A : SparseArray σ ℕ Node} {values : List Int32} {s : σ}

theorem Filled.lookupLoop (h : Filled A values s) :
    lookupLoop A s values = values.map some := by
  apply List.map_congr_left
  intro v hv
  obtain ⟨n, hn⟩ := Option.isSome_iff_exists.mp (h.all v hv)
  have hvalue : n.value = v := index_injective (h.own _ n hn)
  rw [hn, Option.map_some, hvalue]

end Arrays

section Reports
variable {σ τ : Type*} (k : Primitives σ τ) (old : ℕ → Int32) (word : BitVec 64)
  (intStr : CString)

end Reports

end OperatingSystems.Kds
