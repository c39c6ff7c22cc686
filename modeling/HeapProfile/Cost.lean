import HeapProfile.Saturating

/-!
# Costs — the four amounts that every call path carries

A cost counts allocation calls, peak bytes, leaked bytes and allocated bytes.  Costs are added and
subtracted field by field with saturating words.  A `CostField` names one of the four; a name is
read in any mixture of ASCII capitals and small letters, and each field has two names.
-/

namespace HeapProfile

/-- The four amounts that a call path, a row or a whole run is charged with. -/
structure Cost where
  /-- Number of allocation calls. -/
  allocations : UInt64 := 0
  /-- Highest number of bytes outstanding at one time. -/
  peak : UInt64 := 0
  /-- Bytes that were never freed. -/
  leaked : UInt64 := 0
  /-- Bytes allocated, whether freed or not. -/
  allocated : UInt64 := 0
deriving DecidableEq, Repr, Inhabited

/-- One of the four amounts of a cost. -/
inductive CostField
  | allocations
  | peak
  | leaked
  | allocated
deriving DecidableEq, Repr

namespace Cost

/-- The cost of nothing. -/
def zero : Cost := {}

instance : Zero Cost := ⟨zero⟩

/-- The sum field by field, each field stopping at the largest word. -/
def add (a b : Cost) : Cost where
  allocations := a.allocations.satAdd b.allocations
  peak := a.peak.satAdd b.peak
  leaked := a.leaked.satAdd b.leaked
  allocated := a.allocated.satAdd b.allocated

/-- The difference field by field, each field stopping at zero. -/
def sub (a b : Cost) : Cost where
  allocations := a.allocations.satSub b.allocations
  peak := a.peak.satSub b.peak
  leaked := a.leaked.satSub b.leaked
  allocated := a.allocated.satSub b.allocated

instance : Add Cost := ⟨add⟩

instance : Sub Cost := ⟨sub⟩

/-- Whether all four fields are zero. -/
def isZero (c : Cost) : Bool := c == 0

/-- The sum of a list of costs, added from the left. -/
def total (costs : List Cost) : Cost := costs.foldl (· + ·) 0

/-- The amount that a field names. -/
def get (c : Cost) : CostField → UInt64
  | .allocations => c.allocations
  | .peak => c.peak
  | .leaked => c.leaked
  | .allocated => c.allocated

@[simp] theorem get_add (a b : Cost) (f : CostField) : (a + b).get f = (a.get f).satAdd (b.get f) := by
  cases f <;> rfl

@[simp] theorem get_sub (a b : Cost) (f : CostField) : (a - b).get f = (a.get f).satSub (b.get f) := by
  cases f <;> rfl

@[simp] theorem get_zero (f : CostField) : (0 : Cost).get f = 0 := by
  cases f <;> rfl

@[ext] theorem ext_get {a b : Cost} (h : ∀ f, a.get f = b.get f) : a = b := by
  have h1 := h .allocations
  have h2 := h .peak
  have h3 := h .leaked
  have h4 := h .allocated
  cases a; cases b
  simp_all [get]

end Cost

namespace CostField

/-- The canonical name of a field. -/
def name : CostField → String
  | .allocations => "allocations"
  | .peak => "peak"
  | .leaked => "leaked"
  | .allocated => "allocated"

/-- The field that a name in small letters stands for. -/
def ofLowerName? : String → Option CostField
  | "allocations" | "count" => some .allocations
  | "peak" | "consumed" => some .peak
  | "leaked" | "leak" => some .leaked
  | "allocated" | "bytes" => some .allocated
  | _ => none

/-- The field that a name stands for, ASCII capitals read as small letters. -/
def ofName? (name : String) : Option CostField := ofLowerName? (name.map Char.toLower)

/-- The complaint about a name that stands for no field. -/
def unknownName (name : String) : String :=
  "unknown cost field '" ++ name.map Char.toLower ++ "'"

end CostField

end HeapProfile
