import Mvcc.Bytes.Basic
import Mvcc.OrderedMap

/-!
# Trees

A tree keeps byte strings under byte strings, in ascending order of the keys.

* `Tree.scanPrefix`: the entries whose key has a given beginning, found as one stretch of the tree.
* `Edit`, `Batch`, `Tree.apply`: changes that are made together.
-/

namespace Mvcc

/-- Byte strings kept under byte strings. -/
abbrev Tree := OrderedMap Bytes Bytes

inductive Edit where
  | insert (key value : Bytes)
  | remove (key : Bytes)
  deriving DecidableEq

/-- Changes that are made together, in order. -/
abbrev Batch := List Edit

namespace Tree

/-- The entries whose key begins with `start`. They are one stretch of the tree: it begins at the
first key that is not below `start` and ends before the first that does not begin with it. -/
def scanPrefix (t : Tree) (start : Bytes) : List (Bytes × Bytes) :=
  (t.toList.dropWhile fun e => compare e.1 start == .lt).takeWhile fun e => start.isPrefixOf e.1

def edit (t : Tree) : Edit → Tree
  | .insert k v => t.insert k v
  | .remove k => t.erase k

def apply (t : Tree) (b : Batch) : Tree := b.foldl edit t

@[simp] theorem apply_nil (t : Tree) : apply t [] = t := rfl

@[simp] theorem apply_cons (t : Tree) (e : Edit) (b : Batch) :
    apply t (e :: b) = apply (edit t e) b := rfl

end Tree

end Mvcc
