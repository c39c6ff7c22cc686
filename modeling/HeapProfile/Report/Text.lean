import HeapProfile.Json.Decoder
import HeapProfile.Json.Printer
import HeapProfile.Report.Basic

/-!
# The text of a report

A report is written as an indented document.  A row of a forest carries the fields of its cost among its
own, leaves out the parent if it has none and leaves out an empty list of children.  A row of a chart
has its label numbers as names of members, in increasing order.  Reading takes any order of members and
passes over unknown ones.
-/

namespace HeapProfile

open Json

namespace Location

/-- A location as a document. -/
def toValue (l : Location) : Value :=
  .object [("function", .string l.function), ("file", .string l.file),
    ("module", .string l.module), ("line", .word32 l.line)]

/-- The fields of a location. -/
def fields : Fields Location :=
  ((Fields.required "function" Decoder.text).and
    ((Fields.required "file" Decoder.text).and
      ((Fields.required "module" Decoder.text).and
        (Fields.required "line" Decoder.word32)))).map
    fun (function, file, module, line) => { function, file, module, line }

end Location

namespace Cost

/-- The fields of a cost as members of an object. -/
def members (c : Cost) : List (String × Value) :=
  [("allocations", .word c.allocations), ("peak", .word c.peak), ("leaked", .word c.leaked),
    ("allocated", .word c.allocated)]

/-- The fields of a cost. -/
def fields : Fields Cost :=
  ((Fields.required "allocations" Decoder.word).and
    ((Fields.required "peak" Decoder.word).and
      ((Fields.required "leaked" Decoder.word).and
        (Fields.required "allocated" Decoder.word)))).map
    fun (allocations, peak, leaked, allocated) => { allocations, peak, leaked, allocated }

end Cost

namespace FlatRow

/-- A row as a document. -/
def toValue (row : FlatRow) : Value :=
  .object (("location", row.location.toValue) :: row.cost.members ++
    (row.parent.map fun parent => ("parent", .word parent)).toList ++
    if row.children.isEmpty then [] else [("children", .array (row.children.map Value.word))])

/-- The fields of a row beside its cost. -/
def fields : Fields (Location × Option UInt64 × List UInt64) :=
  (Fields.required "location" (Location.fields.record "struct Location")).and
    ((Fields.withDefault "parent" none (Decoder.optional Decoder.rowNumber)).and
      (Fields.withDefault "children" [] (Decoder.list Decoder.rowNumber)))

/-- How deep brackets may nest in an unknown member of a row: a row stands inside four brackets. -/
def memberDepth : Nat := Reading.maxDepth - 4

/-- A row. -/
def ask : Decoder FlatRow := fun found =>
  (fields.recordWith Cost.fields "struct FlatRow" memberDepth found).map
    fun ((location, parent, children), cost) => { location, cost, parent, children }

end FlatRow

namespace FlatTree

/-- A forest as a document. -/
def toValue (t : FlatTree) : Value :=
  .object [("roots", .array (t.roots.map Value.word)),
    ("rows", .array (t.rows.map FlatRow.toValue))]

/-- The fields of a forest. -/
def fields : Fields FlatTree :=
  ((Fields.required "roots" (Decoder.list Decoder.rowNumber)).and
    (Fields.required "rows" (Decoder.list FlatRow.ask))).map
    fun (roots, rows) => { roots, rows }

/-- A forest. -/
def ask : Decoder FlatTree := fields.record "struct FlatTree"

end FlatTree

namespace Summary

/-- A summary as a document. -/
def toValue (s : Summary) : Value :=
  .object [("debuggee", .string s.debuggee), ("total_time_ms", .word s.totalTimeMs),
    ("total_allocated", .word s.totalAllocated), ("total_allocations", .word s.totalAllocations),
    ("peak", .word s.peak), ("leaked", .word s.leaked)]

/-- The fields of a summary. -/
def fields : Fields Summary :=
  ((Fields.required "debuggee" Decoder.text).and
    ((Fields.required "total_time_ms" Decoder.word).and
      ((Fields.required "total_allocated" Decoder.word).and
        ((Fields.required "total_allocations" Decoder.word).and
          ((Fields.required "peak" Decoder.word).and
            (Fields.required "leaked" Decoder.word)))))).map
    fun (debuggee, totalTimeMs, totalAllocated, totalAllocations, peak, leaked) =>
      { debuggee, totalTimeMs, totalAllocated, totalAllocations, peak, leaked }

end Summary

namespace LabelValues

/-- Label values as a document: the numbers are the names of the members. -/
def toValue (values : LabelValues) : Value :=
  .object (values.entries.map fun (id, value) => (toString id.toNat, .word value))

/-- Label values; of entries with one number the last one counts. -/
def ask : Decoder LabelValues := fun found =>
  (Decoder.numbered Decoder.word found).map LabelValues.ofList

end LabelValues

namespace ChartRow

/-- A sample as a document. -/
def toValue (row : ChartRow) : Value :=
  .object [("time_stamp", .word row.timeStamp), ("cost", row.values.toValue)]

/-- The fields of a sample. -/
def fields : Fields ChartRow :=
  ((Fields.required "time_stamp" Decoder.word).and
    (Fields.required "cost" LabelValues.ask)).map
    fun (timeStamp, values) => { timeStamp, values }

end ChartRow

namespace Chart

/-- A chart as a document. -/
def toValue (c : Chart) : Value :=
  .object [("rows", .array (c.rows.map ChartRow.toValue)),
    ("labels", .array (c.labels.map Value.string))]

/-- The fields of a chart. -/
def fields : Fields Chart :=
  ((Fields.required "rows" (Decoder.list (ChartRow.fields.record "struct ChartRow"))).and
    (Fields.required "labels" (Decoder.list Decoder.text))).map
    fun (rows, labels) => { rows, labels }

/-- A chart. -/
def ask : Decoder Chart := fields.record "struct ChartData"

end Chart

namespace ChartSet

/-- The three charts as a document. -/
def toValue (c : ChartSet) : Value :=
  .object [("consumed", c.consumed.toValue), ("allocations", c.allocations.toValue),
    ("allocated", c.allocated.toValue)]

/-- The fields of the three charts. -/
def fields : Fields ChartSet :=
  ((Fields.required "consumed" Chart.ask).and
    ((Fields.required "allocations" Chart.ask).and
      (Fields.required "allocated" Chart.ask))).map
    fun (consumed, allocations, allocated) => { consumed, allocations, allocated }

end ChartSet

namespace Report

/-- A report as a document. -/
def toValue (r : Report) : Value :=
  .object [("version", .string r.version), ("summary", r.summary.toValue),
    ("bottom_up", r.bottomUp.toValue), ("top_down", r.topDown.toValue),
    ("charts", r.charts.toValue), ("generated_at", .string r.generatedAt)]

/-- The fields of a report. -/
def fields : Fields Report :=
  ((Fields.required "version" Decoder.text).and
    ((Fields.required "summary" (Summary.fields.record "struct Summary")).and
      ((Fields.required "bottom_up" FlatTree.ask).and
        ((Fields.required "top_down" FlatTree.ask).and
          ((Fields.required "charts" (ChartSet.fields.record "struct ReportCharts")).and
            (Fields.required "generated_at" Decoder.text)))))).map
    fun (version, summary, bottomUp, topDown, charts, generatedAt) =>
      { version, summary, bottomUp, topDown, charts, generatedAt }

/-- A report as text. -/
def toText (r : Report) : String := r.toValue.pretty

/-- The report that stored text holds. -/
def ofSymbols (text : List Symbol) : Except Fault Report :=
  decode (fields.record "struct Report") text

/-- The report that a text holds. -/
def ofText (text : String) : Except Fault Report := ofSymbols (Symbol.ofString text)

end Report

end HeapProfile
