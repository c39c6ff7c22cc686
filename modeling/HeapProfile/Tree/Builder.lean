import HeapProfile.Tree.Basic

/-!
# Growing a cost tree — find or insert, charge, finish

A builder starts empty.  `findOrInsert` goes to the child of a row (or to the root) at a location
and creates it where there is none: a new row takes the next number and its place among its siblings
by location order.  `charge` adds to the cost of a row.  `finish` links every row to its parent and
checks the shape on the way: each row is reached once and siblings increase.
-/

namespace HeapProfile

/-- How the rows of a builder can fail to be a forest in location order. -/
inductive ShapeFault
  /-- A row is reached by two ways. -/
  | sharedRow (id : RowId)
  /-- Two neighbouring siblings do not increase; their functions are named. -/
  | siblingsOutOfOrder (left right : String)
deriving DecidableEq, Repr

namespace ShapeFault

/-- The wording of a fault. -/
def message : ShapeFault → String
  | sharedRow id => "cost row " ++ toString id ++ " is reachable more than once"
  | siblingsOutOfOrder left right =>
    "siblings out of order: '" ++ left ++ "' before '" ++ right ++ "'"

end ShapeFault

/-- A forest under construction; its rows have no parent links yet. -/
structure TreeBuilder where
  rows : Array Row := #[]
  roots : List RowId := []
deriving DecidableEq, Repr, Inhabited

namespace TreeBuilder

/-- The number of rows created so far. -/
def size (b : TreeBuilder) : Nat := b.rows.size

/-- Whether no row was created yet. -/
def isEmpty (b : TreeBuilder) : Bool := b.rows.isEmpty

/-- The row of a number; a number without a row stands for an empty row. -/
def row (b : TreeBuilder) (id : RowId) : Row := (b.rows[id]?).getD {}

/-- The roots, or the children of a row. -/
def siblings (b : TreeBuilder) : Option RowId → List RowId
  | none => b.roots
  | some parent => (b.row parent).children

/-- The row at a location below a parent, if it was created. -/
def find? (b : TreeBuilder) (parent : Option RowId) (location : Location) : Option RowId :=
  (b.siblings parent).find? fun id => (b.row id).location == location

/-- Puts a new row among siblings, behind those whose location comes before its own. -/
def place (b : TreeBuilder) (location : Location) (new : RowId) : List RowId → List RowId
  | [] => [new]
  | id :: rest =>
    if compare (b.row id).location location = .lt then
      id :: b.place location new rest
    else new :: id :: rest

/-- The builder with one more row at a location below a parent. -/
def insert (b : TreeBuilder) (parent : Option RowId) (location : Location) : TreeBuilder :=
  let among := b.place location b.size (b.siblings parent)
  match parent with
  | none => { rows := b.rows.push { location }, roots := among }
  | some id =>
    { b with rows := (b.rows.modify id fun row => { row with children := among }).push { location } }

/-- The row at a location below a parent (or among the roots), created if it is missing. -/
def findOrInsert (b : TreeBuilder) (parent : Option RowId) (location : Location) :
    RowId × TreeBuilder :=
  match b.find? parent location with
  | some id => (id, b)
  | none => (b.size, b.insert parent location)

/-- Adds to the cost of a row. -/
def charge (b : TreeBuilder) (id : RowId) (cost : Cost) : TreeBuilder :=
  { b with rows := b.rows.modify id fun row => { row with cost := row.cost + cost } }

/-- Charges every row along a path of locations below a parent, creating the missing ones. -/
def chargePath (cost : Cost) : TreeBuilder → Option RowId → List Location → TreeBuilder
  | b, _, [] => b
  | b, parent, location :: rest =>
    let (id, grown) := b.findOrInsert parent location
    chargePath cost (grown.charge id cost) (some id) rest

/-- Visits the pending rows and all below them, and writes down each row's parent.  A row that was
visited before is shared.  The number bounds the visits; no more than all rows are ever needed. -/
def link : Nat → List (RowId × Option RowId) → Array Bool → Array Row →
    Except ShapeFault (Array Row)
  | _, [], _, rows => .ok rows
  | 0, (id, _) :: _, _, _ => .error (.sharedRow id)
  | fuel + 1, (id, parent) :: pending, visited, rows =>
    -- a number without a row counts as visited
    if visited[id]?.getD true then .error (.sharedRow id)
    else
      let below := ((rows[id]?).getD {}).children.map fun child => (child, some id)
      link fuel (below ++ pending) (visited.setIfInBounds id true)
        (rows.modify id fun row => { row with parent })

/-- Refuses siblings of which one does not come strictly before the next. -/
def checkSiblings (rows : Array Row) : List RowId → Except ShapeFault Unit
  | left :: right :: rest =>
    let before := ((rows[left]?).getD {}).location
    let after := ((rows[right]?).getD {}).location
    if compare before after = .lt then checkSiblings rows (right :: rest)
    else .error (.siblingsOutOfOrder before.function after.function)
  | _ => .ok ()

/-- The finished forest, with a parent link in every row that is not a root. -/
def finish (b : TreeBuilder) : Except ShapeFault CostTree := do
  let rows ← link b.size (b.roots.map fun id => (id, none)) (Array.replicate b.size false) b.rows
  checkSiblings rows b.roots
  rows.toList.forM fun row => checkSiblings rows row.children
  return { rows, roots := b.roots }

end TreeBuilder

end HeapProfile
