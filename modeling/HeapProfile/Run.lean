import HeapProfile.BottomUp
import HeapProfile.Recording
import HeapProfile.TopDown

/-!
# Runs — from a stream of events to a profile

A run reads the stream, merges the bottom-up forest, inverts it and closes the charts; it yields all
results or none.  Whoever asked for it may cancel it: the run looks at the flag after every so many events
and at the end of each stage.  `Run.read` counts how many steps of the stream were taken.
-/

namespace HeapProfile

/-- How many events are read between two looks at the cancellation flag. -/
def eventsPerCancelCheck : Nat := 4096

/-- Why a run yields no profile. -/
inductive RunFailure
  | stream (fault : StreamFault)
  | cancelled
  | violation (cause : Violation)
  /-- The worker that did the run went away. -/
  | workerLost
deriving DecidableEq, Repr

namespace RunFailure

/-- The wording of a failure. -/
def message : RunFailure → String
  | stream fault => "Decoder failure: " ++ fault.message
  | cancelled => "Aggregation was cancelled"
  | violation cause => "Internal invariant violated: " ++ cause.message
  | workerLost => "Aggregation worker thread panicked"

end RunFailure

/-- Everything that a run yields. -/
structure Profile where
  summary : Summary
  bottomUp : CostTree
  topDown : CostTree
  charts : ChartSet
deriving DecidableEq

/-- When the flag of a run is set: before the step with the given number (zero: before the run), or
never. -/
abbrev Cancellation := Option Nat

namespace Cancellation

/-- Whether the flag is set when so many steps of the stream were taken. -/
def isSetAfter (c : Cancellation) (steps : Nat) : Bool := c.any (· ≤ steps)

end Cancellation

namespace Run

/-- Fails if the flag is set. -/
def check (isSet : Bool) : Except RunFailure Unit := if isSet then .error .cancelled else .ok ()

/-- Reads a stream to its end, and counts the steps taken. -/
def read (cancel : Cancellation) :
    Recording → Nat → List (Except StreamFault Event) → Except RunFailure Recording × Nat
  | recording, taken, [] => (.ok recording.finish, taken + 1)
  | _, taken, .error fault :: _ => (.error (.stream fault), taken + 1)
  | recording, taken, .ok event :: rest =>
    let recording := recording.handle event
    -- the flag is looked at behind every full batch of events
    if (taken + 1) % eventsPerCancelCheck = 0 ∧ cancel.isSetAfter (taken + 1) then
      (.error .cancelled, taken + 1)
    else read cancel recording (taken + 1) rest

/-- The profile of a closed recording; the flag is looked at after every stage. -/
def profile (isSet : Bool) (stop : StringIndex → Bool) (recording : Recording) :
    Except RunFailure Profile := do
  check isSet
  let (_, merged) :=
    BottomUp.merge recording.tables stop recording.ledger.records.toList recording.resolver
  let bottomUp ← merged.mapError RunFailure.violation
  check isSet
  let topDown ← bottomUp.invert.mapError RunFailure.violation
  check isSet
  match recording.series.charts? with
  | none => throw (.violation .labelsNotFrozen)
  | some charts =>
    check isSet
    return { summary := recording.summary, bottomUp, topDown, charts }

/-- A whole run, and the number of steps of the stream that it took.  Call paths end at the stop names
unless another boundary is given. -/
def run (stopNames : List String) (boundary : Option (StringIndex → Bool)) (cancel : Cancellation)
    (stream : List (Except StreamFault Event)) : Except RunFailure Profile × Nat :=
  match read cancel (Recording.start stopNames) 0 stream with
  | (.error failure, taken) => (.error failure, taken)
  | (.ok recording, taken) =>
    let stop := boundary.getD recording.stops.isStop
    (profile (cancel.isSetAfter taken) stop recording, taken)

end Run

end HeapProfile
