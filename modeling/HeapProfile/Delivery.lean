import HeapProfile.Folded
import HeapProfile.Run

/-!
# Delivery — handing a profile over piece by piece

A run in the background hands its results over as messages in a fixed order, or a single message of
failure.  `collect` puts a profile together again and accepts exactly that order.
-/

namespace HeapProfile

/-- One piece of a profile, or the end of the delivery. -/
inductive Message
  | summary (summary : Summary)
  | bottomUp (tree : CostTree)
  | consumedChart (chart : Chart)
  | allocationsChart (chart : Chart)
  | allocatedChart (chart : Chart)
  | topDown (tree : CostTree)
  /-- The forest from which stacks are folded. -/
  | flameGraph (tree : CostTree)
  | finished
  /-- The run failed, and nothing else is delivered. -/
  | failed (failure : RunFailure)
deriving DecidableEq

namespace Message

/-- The name of the kind of a message. -/
def kind : Message → String
  | summary _ => "summary"
  | bottomUp _ => "bottom_up"
  | consumedChart _ => "consumed"
  | allocationsChart _ => "allocations"
  | allocatedChart _ => "allocated"
  | topDown _ => "top_down"
  | flameGraph _ => "flame_graph"
  | finished => "finished"
  | failed _ => "failed"

end Message

namespace Profile

/-- The messages that deliver a profile. -/
def messages (p : Profile) : List Message :=
  [.summary p.summary, .bottomUp p.bottomUp, .consumedChart p.charts.consumed,
    .allocationsChart p.charts.allocations, .allocatedChart p.charts.allocated,
    .topDown p.topDown, .flameGraph p.topDown, .finished]

end Profile

namespace Delivery

/-- The messages that deliver the outcome of a run. -/
def ofOutcome : Except RunFailure Profile → List Message
  | .ok profile => profile.messages
  | .error failure => [.failed failure]

/-- Takes the next message for what is due: its content, or why it does not have it. -/
def expect {α : Type} (due : String) (content? : Message → Option α) :
    List Message → Except RunFailure (α × List Message)
  -- the messages end before the delivery does
  | [] => .error .workerLost
  | .failed failure :: _ => .error failure
  | message :: rest =>
    match content? message with
    | some content => .ok (content, rest)
    | none => .error (.violation (.messageExpected due))

/-- The profile that a list of messages delivers; what follows its end is not looked at. -/
def collect (messages : List Message) : Except RunFailure Profile := do
  let (summary, messages) ← expect "summary" (fun
    | .summary summary => some summary
    | _ => none) messages
  let (bottomUp, messages) ← expect "bottom-up" (fun
    | .bottomUp tree => some tree
    | _ => none) messages
  let (consumed, messages) ← expect "consumed chart" (fun
    | .consumedChart chart => some chart
    | _ => none) messages
  let (allocations, messages) ← expect "allocations chart" (fun
    | .allocationsChart chart => some chart
    | _ => none) messages
  let (allocated, messages) ← expect "allocated chart" (fun
    | .allocatedChart chart => some chart
    | _ => none) messages
  let (topDown, messages) ← expect "top-down" (fun
    | .topDown tree => some tree
    | _ => none) messages
  let (_, messages) ← expect "flame graph" (fun
    | .flameGraph tree => some tree
    | _ => none) messages
  let _ ← expect "finished" (fun
    | .finished => some ()
    | _ => none) messages
  return { summary, bottomUp, topDown, charts := { consumed, allocations, allocated } }

/-- A run in the background, waited for: its outcome is delivered and collected. -/
def wait (outcome : Except RunFailure Profile) : Except RunFailure Profile :=
  collect (ofOutcome outcome)

end Delivery

end HeapProfile
