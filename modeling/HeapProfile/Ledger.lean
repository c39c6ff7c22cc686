import HeapProfile.Cost
import HeapProfile.Interning

/-!
# The ledger — what every call path allocated and still holds

The ledger has one record for every call path that ever allocated, in order of the first
allocation, and the totals of the run beside them.  A free releases at most what its record still
holds, and a free on a path without a record changes nothing.
-/

namespace HeapProfile

/-- What one call path allocated. -/
structure Record where
  trace : TraceIndex
  allocations : UInt64 := 0
  allocated : UInt64 := 0
  /-- Bytes outstanding; what remains at the end of the run leaked. -/
  leaked : UInt64 := 0
  /-- The largest number of bytes outstanding so far. -/
  peak : UInt64 := 0
deriving DecidableEq, Repr, Inhabited

namespace Record

/-- The cost that a record stands for. -/
def cost (r : Record) : Cost where
  allocations := r.allocations
  peak := r.peak
  leaked := r.leaked
  allocated := r.allocated

/-- The record after one allocation. -/
def alloc (r : Record) (size : UInt64) : Record :=
  let leaked := r.leaked.satAdd size
  { r with
    allocations := r.allocations.satAdd 1
    allocated := r.allocated.satAdd size
    leaked
    peak := max r.peak leaked }

/-- How much of a freed size the record can release. -/
def releasable (r : Record) (size : UInt64) : UInt64 := min size r.leaked

/-- The record after one free. -/
def free (r : Record) (size : UInt64) : Record :=
  { r with leaked := r.leaked - r.releasable size }

end Record

/-- The counters of the whole run. -/
structure Totals where
  totalAllocated : UInt64 := 0
  totalAllocations : UInt64 := 0
  peak : UInt64 := 0
  /-- Bytes outstanding on all call paths. -/
  leaked : UInt64 := 0
deriving DecidableEq, Repr, Inhabited

namespace Totals

/-- The totals after one allocation. -/
def alloc (t : Totals) (size : UInt64) : Totals :=
  let leaked := t.leaked.satAdd size
  { totalAllocated := t.totalAllocated.satAdd size
    totalAllocations := t.totalAllocations.satAdd 1
    leaked
    peak := max t.peak leaked }

/-- The totals after some bytes were released. -/
def release (t : Totals) (size : UInt64) : Totals :=
  { t with leaked := t.leaked.satSub size }

end Totals

/-- The records of a run and its totals. -/
structure Ledger where
  /-- One record per call path, in order of its first allocation. -/
  records : Array Record := #[]
  totals : Totals := {}
deriving DecidableEq, Repr, Inhabited

namespace Ledger

/-- The position of the record of a call path. -/
def slot? (l : Ledger) (trace : TraceIndex) : Option Nat :=
  l.records.findIdx? fun record => record.trace == trace

/-- The ledger after an allocation, with a new record for a call path that had none. -/
def alloc (l : Ledger) (trace : TraceIndex) (size : UInt64) : Ledger where
  totals := l.totals.alloc size
  records :=
    match l.slot? trace with
    | some slot => l.records.modify slot fun record => record.alloc size
    | none => l.records.push ({ trace : Record }.alloc size)

/-- The ledger after a free; on a call path without a record it is the same ledger. -/
def free (l : Ledger) (trace : TraceIndex) (size : UInt64) : Ledger :=
  match l.slot? trace with
  | none => l
  | some slot =>
    let released := ((l.records[slot]?).map fun record => record.releasable size).getD 0
    { totals := l.totals.release released
      records := l.records.modify slot fun record => record.free size }

end Ledger

end HeapProfile
