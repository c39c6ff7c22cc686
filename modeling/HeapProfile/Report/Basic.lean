import HeapProfile.Chart.Basic
import HeapProfile.Run
import HeapProfile.Tree.Flat

/-!
# Reports — a profile as a document to keep

A report holds the final numbers of a run, both forests in flat form and the three charts, together with
the version of the format and the time at which it was made.
-/

namespace HeapProfile

/-- The version of the format of reports. -/
def reportVersion : String := "1.0.0"

/-- A profile as it is kept. -/
structure Report where
  version : String
  summary : Summary
  bottomUp : FlatTree
  topDown : FlatTree
  charts : ChartSet
  /-- When the report was made. -/
  generatedAt : String
deriving DecidableEq

/-- The report on a profile, made at a time. -/
def Profile.report (p : Profile) (generatedAt : String) : Report where
  version := reportVersion
  summary := p.summary
  bottomUp := p.bottomUp.flat
  topDown := p.topDown.flat
  charts := p.charts
  generatedAt := generatedAt

end HeapProfile
