import HeapProfile.Chart.Basic
import HeapProfile.Ledger
import HeapProfile.Location

/-!
# Series — charts while the trace is read

At every boundary the records are grouped by the function of their allocation site and ranked by each
metric.  A series then gets one sample: the grand total under label 0 and the functions of the
highest ranks under labels of their own.  A function keeps the label it got when it was first listed;
labels are numbered in that order.  Freezing a series fixes its labels, and a frozen set of series
takes no further samples.
-/

namespace HeapProfile

/-- The label under which a sample reports the grand total. -/
def totalLabel : String := "total"

/-- The number of the label of the grand total. -/
def totalLabelId : UInt32 := 0

/-- How many functions a sample lists beside the total. -/
def maxChartEntries : Nat := 10

/-- What all records with their allocation site in one function amount to. -/
structure FunctionCost where
  consumed : UInt64 := 0
  allocated : UInt64 := 0
  allocations : UInt64 := 0
deriving DecidableEq, Repr, Inhabited

/-- The grand totals of a boundary. -/
structure ChartTotals where
  /-- The most bytes outstanding at one time since the last boundary. -/
  consumed : UInt64 := 0
  allocated : UInt64 := 0
  allocations : UInt64 := 0
deriving DecidableEq, Repr, Inhabited

namespace Metric

/-- The metrics in the order in which a boundary serves them. -/
def all : List Metric := [.consumed, .allocated, .allocations]

/-- The name of a metric. -/
def name : Metric → String
  | .consumed => "consumed"
  | .allocated => "allocated"
  | .allocations => "allocations"

/-- What a metric reads from the cost of a function. -/
def value (m : Metric) (cost : FunctionCost) : UInt64 :=
  match m with
  | .consumed => cost.consumed
  | .allocated => cost.allocated
  | .allocations => cost.allocations

/-- What a metric reads from the grand totals. -/
def total (m : Metric) (totals : ChartTotals) : UInt64 :=
  match m with
  | .consumed => totals.consumed
  | .allocated => totals.allocated
  | .allocations => totals.allocations

/-- The order of ranks: larger values first, equal values by name. -/
def ranksBefore (m : Metric) (a b : String × FunctionCost) : Bool :=
  ((compare (m.value b.2) (m.value a.2)).then (compare a.1 b.1)).isLE

end Metric

namespace FunctionCost

/-- The cost of a function with one record more. -/
def addRecord (cost : FunctionCost) (record : Record) : FunctionCost where
  consumed := cost.consumed.satAdd record.leaked
  allocated := cost.allocated.satAdd record.allocated
  allocations := cost.allocations.satAdd record.allocations

/-- Adds a record to the cost of its function, in a list of functions ordered by name. -/
def addTo (function : String) (record : Record) :
    List (String × FunctionCost) → List (String × FunctionCost)
  | [] => [(function, ({} : FunctionCost).addRecord record)]
  | entry :: rest =>
    match compare function entry.1 with
    | .lt => (function, ({} : FunctionCost).addRecord record) :: entry :: rest
    | .eq => (entry.1, entry.2.addRecord record) :: rest
    | .gt => entry :: addTo function record rest

end FunctionCost

namespace Record

/-- The address of the allocation site of a record, if the tables know it. -/
def site? (tables : Tables) (record : Record) : Option Ip := do
  let node ← tables.trace? record.trace
  tables.ip? node.ip

/-- The function of the allocation site of a record; an unknown site has the empty name. -/
def functionName (tables : Tables) (resolver : Resolver) (record : Record) : String :=
  ((record.site? tables).map resolver.functionName).getD ""

end Record

/-- The cost of every function that holds the allocation site of a record, ordered by name. -/
def costByFunction (tables : Tables) (resolver : Resolver) (records : List Record) :
    List (String × FunctionCost) :=
  records.foldl
    (fun merged record =>
      FunctionCost.addTo (record.functionName tables resolver) record merged) []

/-- One time series under construction. -/
structure Series where
  metric : Metric
  /-- The samples so far, the first one an empty sample at the origin. -/
  rows : Array ChartRow := #[{}]
  /-- The label texts in order of their numbers. -/
  labels : Array String := #[totalLabel]
  frozen : Bool := false

namespace Series

/-- The number of a label among some labels, if it is one of them. -/
def numberIn (labels : Array String) (label : String) : Option UInt32 :=
  (labels.findIdx? (· == label)).map UInt32.ofNat

/-- The number of a label, if it was given out. -/
def labelId? (s : Series) (label : String) : Option UInt32 := numberIn s.labels label

/-- The number of a label, given out now if it has none yet. -/
def assign (labels : Array String) (label : String) : UInt32 × Array String :=
  match labels.findIdx? (· == label) with
  | some id => (UInt32.ofNat id, labels)
  | none => (UInt32.ofNat labels.size, labels.push label)

/-- The functions that a sample lists: the highest ranks, as far as their value is not zero. -/
def listed (metric : Metric) (functions : List (String × FunctionCost)) :
    List (String × UInt64) :=
  (((functions.mergeSort metric.ranksBefore).take maxChartEntries).map
    fun entry => (entry.1, metric.value entry.2)).takeWhile fun entry => entry.2 != 0

/-- Enters one listed function into a sample, under the number of its label. -/
def enter (state : Array String × LabelValues) (entry : String × UInt64) :
    Array String × LabelValues :=
  let (id, labels) := assign state.1 entry.1
  (labels, state.2.insert id entry.2)

/-- The series with the sample of one boundary more. -/
def sample (s : Series) (stamp total : UInt64) (functions : List (String × FunctionCost)) :
    Series :=
  -- labels are given out in the order of the ranks
  let (labels, values) :=
    (listed s.metric functions).foldl enter (s.labels, LabelValues.empty.insert totalLabelId total)
  { s with labels, rows := s.rows.push { timeStamp := stamp, values } }

/-- The series with its labels fixed. -/
def freeze (s : Series) : Series := { s with frozen := true }

/-- The chart of a series; it has labels once the series is frozen. -/
def chart (s : Series) : Chart where
  rows := s.rows.toList
  labels := if s.frozen then s.labels.toList else []

/-- The finished chart, if the series is frozen. -/
def chart? (s : Series) : Option Chart := if s.frozen then some s.chart else none

end Series

/-- The three series of a run. -/
structure SeriesSet where
  consumed : Series := { metric := .consumed }
  allocated : Series := { metric := .allocated }
  allocations : Series := { metric := .allocations }

namespace SeriesSet

/-- The series of a metric. -/
def series (c : SeriesSet) : Metric → Series
  | .consumed => c.consumed
  | .allocated => c.allocated
  | .allocations => c.allocations

/-- Does the same to all three series. -/
def map (c : SeriesSet) (f : Series → Series) : SeriesSet where
  consumed := f c.consumed
  allocated := f c.allocated
  allocations := f c.allocations

/-- Whether the series take no further samples. -/
def isFrozen (c : SeriesSet) : Bool := c.consumed.frozen

/-- Samples one boundary in all three series, and remembers every address that had to be named; the
final boundary freezes them.  Frozen series are left as they are. -/
def boundary (c : SeriesSet) (stamp : UInt64) (isLast : Bool) (records : List Record)
    (tables : Tables) (resolver : Resolver) (totals : ChartTotals) : SeriesSet × Resolver :=
  if c.isFrozen then (c, resolver)
  else
    let functions := costByFunction tables resolver records
    let sampled := c.map fun s => s.sample stamp (s.metric.total totals) functions
    (if isLast then sampled.map Series.freeze else sampled,
      (records.filterMap fun record => record.site? tables).foldl Resolver.note resolver)

/-- Fixes the labels of all series without a sample. -/
def freeze (c : SeriesSet) : SeriesSet := c.map Series.freeze

/-- The three finished charts, if the series are frozen. -/
def charts? (c : SeriesSet) : Option ChartSet := do
  let consumed ← c.consumed.chart?
  let allocations ← c.allocations.chart?
  let allocated ← c.allocated.chart?
  return { consumed, allocations, allocated }

end SeriesSet

end HeapProfile
