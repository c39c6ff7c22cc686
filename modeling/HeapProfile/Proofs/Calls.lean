import HeapProfile.Proofs.Running

/-!
# Calls — a recording under any sequence of events and closings

A run hands its events over one by one and closes the recording once.  A recording itself asks for no
such order: it can be closed early, closed twice, and be handed events behind its closing.
`Recording.after` is the state behind any sequence of such calls, and what holds of it for all
sequences holds of every run.

* **`ledger_after`** — the ledger is what the events entered, wherever the closings stand;
* **`recordingOf_eq_after`** — a run is the sequence of its events with one closing behind them.
-/

namespace HeapProfile

namespace Recording

/-- A call that a recording gets. -/
inductive Call
  | handle (event : Event)
  | finish
deriving DecidableEq

/-- The event that a call hands over, if it hands one over. -/
def Call.event? : Call → Option Event
  | .handle event => some event
  | .finish => none

/-- The recording after one call more. -/
def take (r : Recording) : Call → Recording
  | .handle event => r.handle event
  | .finish => r.finish

/-- A fresh recording after some calls. -/
def after (stopNames : List String) (calls : List Call) : Recording :=
  calls.foldl take (start stopNames)

/-- The events that some calls hand over. -/
def events (calls : List Call) : List Event := calls.filterMap Call.event?

theorem after_concat (stopNames : List String) (calls : List Call) (call : Call) :
    after stopNames (calls ++ [call]) = (after stopNames calls).take call := by
  rw [after, List.foldl_append]
  rfl

theorem events_concat (calls : List Call) (call : Call) :
    events (calls ++ [call]) = events calls ++ call.event?.toList := by
  rw [events, List.filterMap_append]
  cases call <;> rfl

theorem ledger_take (r : Recording) (call : Call) :
    (r.take call).ledger = call.event?.toList.foldl Ledger.enter r.ledger := by
  cases call with
  | handle event => exact ledger_handle r event
  | finish => exact (ledger_tables_finish r).1

/-- **The ledger is what the events entered.**  Samples and closings read it and do not write to it. -/
theorem ledger_after (stopNames : List String) (calls : List Call) :
    (after stopNames calls).ledger = (events calls).foldl Ledger.enter {} := by
  induction calls using List.reverseRecOn with
  | nil => rfl
  | append_singleton calls call ih =>
      rw [after_concat, ledger_take, ih, events_concat, List.foldl_append]

theorem foldl_take_handle (events : List Event) (r : Recording) :
    (events.map Call.handle).foldl take r = events.foldl handle r := by
  rw [List.foldl_map]
  rfl

end Recording

/-- **A run** hands over its events and closes the recording behind them. -/
theorem Run.recordingOf_eq_after (stopNames : List String) (events : List Event) :
    recordingOf stopNames events = Recording.after stopNames (events.map .handle ++ [.finish]) := by
  rw [Recording.after_concat, Recording.after, Recording.foldl_take_handle]
  rfl

end HeapProfile
