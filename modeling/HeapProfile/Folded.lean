import HeapProfile.Tree.Basic

/-!
# Folded stacks — a forest as lines of text

Every row of a top-down forest that costs something itself gives one stack: the functions from its root
down to it, outermost first, separated by semicolons.  The stacks are listed by weight, the heaviest
first, and stacks of one weight by their text.  Semicolons and blanks inside a function name would break
the format and are replaced.
-/

namespace HeapProfile

/-- A path of functions with the cost of its innermost one. -/
structure FoldedStack where
  stack : String
  weight : UInt64
deriving DecidableEq, Repr, Inhabited

namespace FoldedStack

/-- The line of a stack. -/
def line (s : FoldedStack) : String := s.stack ++ " " ++ toString s.weight.toNat

/-- The order of stacks: heavier ones first, equally heavy ones by their text. -/
def listedBefore (a b : FoldedStack) : Bool :=
  ((compare b.weight a.weight).then (compare a.stack b.stack)).isLE

end FoldedStack

/-- A function name as a frame of a folded stack. -/
def frameName (function : String) : String :=
  function.map fun c => if c = ';' ∨ c = ' ' then '_' else c

namespace CostTree

/-- The frames from the root of a row down to the row. -/
def frames (t : CostTree) (id : RowId) : List String :=
  (t.ancestry id).reverse.map fun id => frameName (t.row id).location.function

/-- The folded stack of a row, if the row costs something itself. -/
def foldedRow? (t : CostTree) (field : CostField) (id : RowId) : Option FoldedStack :=
  let weight := (t.selfCost id).get field
  if weight = 0 then none
  else some { stack := String.intercalate ";" (t.frames id), weight }

/-- The folded stacks of a forest, weighed by a field. -/
def folded (t : CostTree) (field : CostField) : List FoldedStack :=
  (t.depthFirst.filterMap (t.foldedRow? field)).mergeSort FoldedStack.listedBefore

end CostTree

/-- The text of a file of folded stacks. -/
def foldedText (folded : List FoldedStack) : String :=
  String.join (folded.map fun s => s.line ++ "\n")

end HeapProfile
