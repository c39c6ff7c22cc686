import HeapProfile.Tree.Basic

/-!
# Flat trees — the written form of a cost tree

A flat tree lists the rows by number and links them by number, so it nests no deeper than one row
however deep the call paths go.  Its links are words and may point anywhere: a tree that was read
from a file promises nothing about its shape.
-/

namespace HeapProfile

/-- One row of a flat tree. -/
structure FlatRow where
  location : Location := {}
  cost : Cost := {}
  parent : Option UInt64 := none
  children : List UInt64 := []
deriving DecidableEq, Repr, Inhabited

/-- Rows linked by number, and the numbers of the roots. -/
structure FlatTree where
  roots : List UInt64 := []
  rows : List FlatRow := []
deriving DecidableEq, Repr, Inhabited

namespace FlatTree

/-- The rows that the root numbers refer to; numbers without a row are left out. -/
def rootRows (t : FlatTree) : List FlatRow :=
  let rows := t.rows.toArray
  t.roots.filterMap fun id => rows[id.toNat]?

end FlatTree

/-- The written form of a row. -/
def Row.flat (row : Row) : FlatRow where
  location := row.location
  cost := row.cost
  parent := row.parent.map UInt64.ofNat
  children := row.children.map UInt64.ofNat

/-- The written form of a tree; row `i` of it is the row with number `i`. -/
def CostTree.flat (t : CostTree) : FlatTree where
  roots := t.roots.map UInt64.ofNat
  rows := t.rows.toList.map Row.flat

end HeapProfile
