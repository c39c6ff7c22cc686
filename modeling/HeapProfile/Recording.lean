import HeapProfile.Chart.Series
import HeapProfile.Event.Stream
import HeapProfile.StopNames
import HeapProfile.Summary

/-!
# Recordings — everything a run knows while events arrive

A recording takes events one by one: it interns, keeps the ledger, and samples the charts at every time
mark that is later than all before it.  Between two time marks it keeps the most bytes that were
outstanding at one time.  `finish` closes the recording one tick behind the last time mark; where there
is no later tick the charts are closed without a last sample.
-/

namespace HeapProfile

/-- The state of a run that reads a trace. -/
structure Recording where
  tables : Tables := {}
  ledger : Ledger := {}
  debuggee : String := ""
  /-- The last time mark that was taken, or zero. -/
  lastStamp : UInt64 := 0
  /-- The most bytes outstanding at one time since that time mark. -/
  intervalPeak : UInt64 := 0
  resolver : Resolver := {}
  series : SeriesSet := {}
  stops : StopNames
  finished : Bool := false
  /-- The length of the run, known once it is finished. -/
  totalTime : UInt64 := 0

namespace Recording

/-- The recording before the first event. -/
def start (stopNames : List String) : Recording := { stops := { names := stopNames } }

/-- Interns a string, and takes notice of a stop name. -/
def intern (r : Recording) (value : String) : Recording :=
  let tables := r.tables.pushString value
  let index := tables.strings.newest
  { r with tables, stops := r.stops.observe index (tables.string index) }

/-- Enters an allocation. -/
def alloc (r : Recording) (trace : TraceIndex) (size : UInt64) : Recording :=
  let ledger := r.ledger.alloc trace size
  { r with ledger, intervalPeak := max r.intervalPeak ledger.totals.leaked }

/-- Samples the charts at a time mark and begins the next interval. -/
def boundary (r : Recording) (stamp : UInt64) (isLast : Bool) : Recording :=
  let resolver := r.resolver.sync r.tables.strings.entries
  let totals : ChartTotals :=
    { consumed := max r.intervalPeak r.ledger.totals.leaked
      allocated := r.ledger.totals.totalAllocated
      allocations := r.ledger.totals.totalAllocations }
  let (series, resolver) :=
    r.series.boundary stamp isLast r.ledger.records.toList r.tables resolver totals
  { r with resolver, series, lastStamp := stamp, intervalPeak := 0 }

/-- Takes one event. -/
def handle (r : Recording) : Event → Recording
  | .string value => r.intern value
  | .ip ip => { r with tables := r.tables.pushIp ip }
  | .trace node => { r with tables := r.tables.pushTrace node }
  | .alloc trace size => r.alloc trace size
  | .free trace size => { r with ledger := r.ledger.free trace size }
  | .timestamp stamp => if stamp ≤ r.lastStamp then r else r.boundary stamp false
  | .debuggee command => { r with debuggee := command }

/-- Closes the recording; a closed one stays as it is. -/
def finish (r : Recording) : Recording :=
  if r.finished then r
  -- behind the largest time mark there is no tick left for a last sample
  else if r.lastStamp = UInt64.largest then
    { r with finished := true, totalTime := r.lastStamp, series := r.series.freeze }
  else
    let stop := r.lastStamp + 1
    { r.boundary stop true with finished := true, totalTime := stop }

/-- Takes everything that a stream yields and closes the recording; a fault of the stream leaves it
open. -/
def read (r : Recording) : List (Except StreamFault Event) → Recording × Option StreamFault
  | [] => (r.finish, none)
  | .ok event :: rest => (r.handle event).read rest
  | .error fault :: _ => (r, some fault)

/-- The final numbers of the run. -/
def summary (r : Recording) : Summary where
  debuggee := r.debuggee
  totalTimeMs := r.totalTime
  totalAllocated := r.ledger.totals.totalAllocated
  totalAllocations := r.ledger.totals.totalAllocations
  peak := r.ledger.totals.peak
  leaked := r.ledger.totals.leaked

end Recording

end HeapProfile
