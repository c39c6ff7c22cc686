import HeapProfile.CallPath
import HeapProfile.Ledger
import HeapProfile.Violation

/-!
# The bottom-up forest — allocation sites at the roots, callers below

Every record charges its cost to each row along its call path, from the allocation site outwards.
Records whose paths begin alike share those rows, so a row costs the sum over all records whose path
leads through it.
-/

namespace HeapProfile

namespace Resolver

/-- The locations of a call path. -/
def locatePath (r : Resolver) (frames : List Ip) : List Location := frames.map r.locate

end Resolver

namespace BottomUp

variable (tables : Tables) (stop : StringIndex → Bool)

/-- Charges the records one by one, and remembers every address that had to be named.  A record
whose links lead round in a cycle ends the work. -/
def chargeRecords : List Record → Resolver → TreeBuilder →
    Resolver × Except Violation TreeBuilder
  | [], resolver, builder => (resolver, .ok builder)
  | record :: rest, resolver, builder =>
    let path := tables.walk stop record.trace
    let resolver := path.frames.foldl Resolver.note resolver
    if path.ended then
      chargeRecords rest resolver
        (builder.chargePath record.cost none (resolver.locatePath path.frames))
    else (resolver, .error (.cyclicLinks record.trace))

/-- The forest of all records, and the resolver with the names that were needed for it. -/
def merge (records : List Record) (resolver : Resolver) :
    Resolver × Except Violation CostTree :=
  let (resolver, charged) :=
    chargeRecords tables stop records (resolver.sync tables.strings.entries) {}
  (resolver, do
    let builder ← charged
    builder.finish.mapError Violation.shape)

end BottomUp

end HeapProfile
