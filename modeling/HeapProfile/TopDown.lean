import HeapProfile.Violation

/-!
# The top-down forest — outermost callers at the roots, allocation sites below

Inverting a forest charges the self cost of every row to the reversed path of that row: the row
itself becomes a root and its own root the innermost frame.  Rows whose self cost is zero are covered
by their children and charge nothing.
-/

namespace HeapProfile

namespace CostTree

/-- The locations on the way from a row up to its root. -/
def pathUp (t : CostTree) (id : RowId) : List Location :=
  (t.ancestry id).map fun id => (t.row id).location

/-- Charges the self cost of a row along its way up; a row without self cost charges nothing. -/
def chargeInverted (t : CostTree) (builder : TreeBuilder) (id : RowId) : TreeBuilder :=
  let cost := t.selfCost id
  if cost.isZero then builder else builder.chargePath cost none (t.pathUp id)

/-- The inverted forest. -/
def invert (t : CostTree) : Except Violation CostTree :=
  (t.depthFirst.foldl t.chargeInverted {}).finish.mapError Violation.shape

end CostTree

end HeapProfile
