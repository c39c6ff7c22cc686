/-!
# Summaries — the final numbers of a run

A summary carries raw words; rates are computed from it in double precision.
-/

namespace HeapProfile

/-- The final numbers of a run. -/
structure Summary where
  /-- The command line of the traced program. -/
  debuggee : String := ""
  /-- The length of the run in milliseconds. -/
  totalTimeMs : UInt64 := 0
  /-- Bytes allocated, whether freed or not. -/
  totalAllocated : UInt64 := 0
  /-- Calls to allocation functions. -/
  totalAllocations : UInt64 := 0
  /-- The most bytes outstanding at one time. -/
  peak : UInt64 := 0
  /-- Bytes still outstanding at the end. -/
  leaked : UInt64 := 0
deriving DecidableEq, Repr, Inhabited

namespace Summary

/-- The length of the run in seconds. -/
def totalTimeSecs (s : Summary) : Float := s.totalTimeMs.toFloat / 1000.0

/-- How much of an amount falls on a second; a run without length has the rate zero. -/
def perSecond (s : Summary) (amount : UInt64) : Float :=
  if s.totalTimeSecs > 0.0 then amount.toFloat / s.totalTimeSecs else 0.0

/-- Bytes allocated per second. -/
def allocatedPerSecond (s : Summary) : Float := s.perSecond s.totalAllocated

/-- Allocation calls per second. -/
def allocationsPerSecond (s : Summary) : Float := s.perSecond s.totalAllocations

end Summary

end HeapProfile
