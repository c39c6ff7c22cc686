import HeapProfile.Cost
import HeapProfile.Location

/-!
# Cost trees — forests of call-path rows with costs

A finished tree keeps its rows in one array; a row's number is its position there and rows refer to
each other by number.  The roots and the children of every row are listed in location order.

Two walks read the shape: `depthFirst` lists every row before its children, and `ancestry` climbs
from a row to its root.  Both follow links at most as often as there are rows, which is as far as
links without a cycle can lead.  `selfCost` is what a row costs beyond its children.
-/

namespace HeapProfile

/-- The number of a row: its position in the array of rows. -/
abbrev RowId := Nat

/-- One row of a cost tree. -/
structure Row where
  location : Location := {}
  cost : Cost := {}
  parent : Option RowId := none
  children : List RowId := []
deriving DecidableEq, Repr, Inhabited

/-- A finished forest of rows. -/
structure CostTree where
  rows : Array Row := #[]
  roots : List RowId := []
deriving DecidableEq, Repr, Inhabited

namespace CostTree

/-- The number of rows. -/
def size (t : CostTree) : Nat := t.rows.size

/-- Whether the tree has no row. -/
def isEmpty (t : CostTree) : Bool := t.rows.isEmpty

/-- The row of a number; a number without a row stands for an empty row. -/
def row (t : CostTree) (id : RowId) : Row := (t.rows[id]?).getD {}

/-- The children of a row, in location order. -/
def children (t : CostTree) (id : RowId) : List RowId := (t.row id).children

/-- Whether a row has no children. -/
def isLeaf (t : CostTree) (id : RowId) : Bool := (t.children id).isEmpty

/-- The rows that can be reached from a list of pending rows, each one before its children; the
number bounds how many rows are listed. -/
def preorder (t : CostTree) : Nat → List RowId → List RowId
  | 0, _ => []
  | _ + 1, [] => []
  | fuel + 1, id :: pending => id :: t.preorder fuel (t.children id ++ pending)

/-- Every row, each one before its children and siblings in location order. -/
def depthFirst (t : CostTree) : List RowId := t.preorder t.size t.roots

/-- The rows without children, in depth-first order. -/
def leaves (t : CostTree) : List RowId := t.depthFirst.filter t.isLeaf

/-- The rows on the way up from a row, following at most the given number of parent links. -/
def climb (t : CostTree) : Nat → RowId → List RowId
  | 0, id => [id]
  | fuel + 1, id =>
    id :: match (t.row id).parent with
      | none => []
      | some parent => t.climb fuel parent

/-- The chain from a row up to its root, the row first. -/
def ancestry (t : CostTree) (id : RowId) : List RowId := t.climb t.size id

/-- The sum of the costs of some rows. -/
def costOf (t : CostTree) (ids : List RowId) : Cost :=
  Cost.total (ids.map fun id => (t.row id).cost)

/-- The sum of the costs of the roots. -/
def totalCost (t : CostTree) : Cost := t.costOf t.roots

/-- The sum of the costs of the leaves. -/
def leafCost (t : CostTree) : Cost := t.costOf t.leaves

/-- What a row costs beyond its children: the cost of the paths that end at it. -/
def selfCost (t : CostTree) (id : RowId) : Cost := (t.row id).cost - t.costOf (t.children id)

/-- The first of some rows that belongs to a function. -/
def findFunction? (t : CostTree) (ids : List RowId) (function : String) : Option RowId :=
  ids.find? fun id => (t.row id).location.function == function

/-- The first root that belongs to a function. -/
def findRoot? (t : CostTree) (function : String) : Option RowId :=
  t.findFunction? t.roots function

/-- The first child of a row that belongs to a function. -/
def findChild? (t : CostTree) (id : RowId) (function : String) : Option RowId :=
  t.findFunction? (t.children id) function

end CostTree

end HeapProfile
