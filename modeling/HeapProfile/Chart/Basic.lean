import HeapProfile.Chart.LabelValues

/-!
# Charts — finished time series

A chart is a list of samples with a list of labels.  Each sample maps label numbers to values, and
a label number is the position of its text in the list of labels.
-/

namespace HeapProfile

/-- What a series measures per function. -/
inductive Metric
  /-- Bytes outstanding. -/
  | consumed
  /-- Bytes allocated so far, whether freed or not. -/
  | allocated
  /-- Allocation calls so far. -/
  | allocations
deriving DecidableEq, Repr

/-- One sample of a series. -/
structure ChartRow where
  timeStamp : UInt64 := 0
  values : LabelValues := .empty
deriving DecidableEq, Inhabited

/-- The samples of a series and the texts of its labels. -/
structure Chart where
  rows : List ChartRow := []
  labels : List String := []
deriving DecidableEq, Inhabited

namespace Chart

/-- The text of a label number. -/
def label? (c : Chart) (id : UInt32) : Option String := c.labels[id.toNat]?

end Chart

/-- The three finished charts of a run. -/
structure ChartSet where
  consumed : Chart := {}
  allocations : Chart := {}
  allocated : Chart := {}
deriving DecidableEq, Inhabited

end HeapProfile
