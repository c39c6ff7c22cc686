import HeapProfile.Run
import HeapProfile.Proofs.Accounting
import HeapProfile.Proofs.MergedTrie

/-!
# Running — what a finished run has done

A run is a fold over the events of its stream, a closing step and three stages.  Each event enters
the tables and the ledger on its own, and time marks and the closing step touch neither.

* **`ledger_foldl_handle`**, **`tables_foldl_handle`** — after some events stand the tables and the
  ledger that these events enter;
* **`read_ok`** — a run that read its stream has met no fault and has taken every event;
* **`run_ok`** — a run that yields a profile has merged, inverted and summed up that recording.
-/

namespace HeapProfile

namespace Event

/-- How many of some events intern a call-path node. -/
def nodeCount (events : List Event) : Nat := events.countP fun event => event.kind = .trace

end Event

namespace Tables

/-- Enters an event; only what interns concerns the tables. -/
def enter (t : Tables) : Event → Tables
  | .string value => t.pushString value
  | .ip ip => t.pushIp ip
  | .trace node => t.pushTrace node
  | _ => t

theorem size_traces_enter (t : Tables) (event : Event) :
    (t.enter event).traces.size = t.traces.size + Event.nodeCount [event] := by
  cases event with
  | trace node => exact Table.size_push t.traces node
  | _ => rfl

/-- Every node event adds one node, and no other event does. -/
theorem size_traces_enterAll (events : List Event) (t : Tables) :
    (events.foldl enter t).traces.size = t.traces.size + Event.nodeCount events := by
  induction events generalizing t with
  | nil => rfl
  | cons event rest ih =>
      have hsplit : Event.nodeCount (event :: rest)
          = Event.nodeCount [event] + Event.nodeCount rest := by
        rw [← List.singleton_append]
        exact List.countP_append
      rw [List.foldl_cons, ih, size_traces_enter, hsplit, Nat.add_assoc]

/-- A number from one to the size of the table refers to a node. -/
theorem trace?_ne_none {t : Tables} {i : TraceIndex} (hone : 1 ≤ i.raw.toNat)
    (hsize : i.raw.toNat ≤ t.traces.size) : t.trace? i ≠ none := by
  obtain ⟨node, hnode⟩ := Table.exists_get?_iff.2 ⟨hone, hsize⟩
  rw [trace?, hnode]
  exact Option.some_ne_none node

end Tables

namespace Recording

theorem ledger_boundary (r : Recording) (stamp : UInt64) (isLast : Bool) :
    (r.boundary stamp isLast).ledger = r.ledger := rfl

theorem tables_boundary (r : Recording) (stamp : UInt64) (isLast : Bool) :
    (r.boundary stamp isLast).tables = r.tables := rfl

theorem ledger_handle (r : Recording) (event : Event) :
    (r.handle event).ledger = r.ledger.enter event := by
  cases event with
  | timestamp stamp =>
      rw [handle]
      by_cases hstale : stamp ≤ r.lastStamp
      · rw [if_pos hstale]
        rfl
      · rw [if_neg hstale]
        exact ledger_boundary r stamp false
  | _ => rfl

theorem tables_handle (r : Recording) (event : Event) :
    (r.handle event).tables = r.tables.enter event := by
  cases event with
  | timestamp stamp =>
      rw [handle]
      by_cases hstale : stamp ≤ r.lastStamp
      · rw [if_pos hstale]
        rfl
      · rw [if_neg hstale]
        exact tables_boundary r stamp false
  | _ => rfl

/-- **The ledger of a recording** is what its events entered; samples between them read it and
    change nothing. -/
theorem ledger_foldl_handle (events : List Event) (r : Recording) :
    (events.foldl handle r).ledger = events.foldl Ledger.enter r.ledger := by
  induction events generalizing r with
  | nil => rfl
  | cons event rest ih => rw [List.foldl_cons, List.foldl_cons, ih, ledger_handle]

/-- **The tables of a recording** are what its events interned, in their order. -/
theorem tables_foldl_handle (events : List Event) (r : Recording) :
    (events.foldl handle r).tables = events.foldl Tables.enter r.tables := by
  induction events generalizing r with
  | nil => rfl
  | cons event rest ih => rw [List.foldl_cons, List.foldl_cons, ih, tables_handle]

/-- Closing a recording leaves its ledger and its tables alone. -/
theorem ledger_tables_finish (r : Recording) :
    r.finish.ledger = r.ledger ∧ r.finish.tables = r.tables := by
  rw [finish]
  split
  · exact ⟨rfl, rfl⟩
  · split <;> exact ⟨rfl, rfl⟩

end Recording

namespace Run

/-- The events that a stream yields, its faults left out. -/
def eventsOf (stream : List (Except StreamFault Event)) : List Event :=
  stream.filterMap Except.toOption

/-- The closed recording of some events. -/
def recordingOf (stopNames : List String) (events : List Event) : Recording :=
  (events.foldl Recording.handle (Recording.start stopNames)).finish

theorem ledger_recordingOf (stopNames : List String) (events : List Event) :
    (recordingOf stopNames events).ledger = events.foldl Ledger.enter {} := by
  rw [recordingOf, (Recording.ledger_tables_finish _).1, Recording.ledger_foldl_handle]
  rfl

theorem tables_recordingOf (stopNames : List String) (events : List Event) :
    (recordingOf stopNames events).tables = events.foldl Tables.enter {} := by
  rw [recordingOf, (Recording.ledger_tables_finish _).2, Recording.tables_foldl_handle]
  rfl

/-- **A run that read its stream** has met no fault and has taken every event.  It cannot have been
    cancelled either, as this would have been its outcome. -/
theorem read_ok {cancel : Cancellation} {r r' : Recording} {taken : Nat}
    {stream : List (Except StreamFault Event)} (h : (read cancel r taken stream).1 = .ok r') :
    stream = (eventsOf stream).map .ok ∧
      r' = ((eventsOf stream).foldl Recording.handle r).finish := by
  induction stream generalizing r taken with
  | nil =>
      cases h
      exact ⟨rfl, rfl⟩
  | cons head rest ih =>
      cases head with
      | error fault => exact nomatch h
      | ok event =>
          rw [read] at h
          by_cases hcancel : (taken + 1) % eventsPerCancelCheck = 0 ∧ cancel.isSetAfter (taken + 1)
          · rw [if_pos hcancel] at h
            exact nomatch h
          · rw [if_neg hcancel] at h
            obtain ⟨hrest, hr'⟩ := ih h
            exact ⟨congrArg (Except.ok event :: ·) hrest, hr'⟩

/-- What the stages of a profile yielded: the merged forest, the inverse of that, the charts and the
    summary. -/
theorem stages_ok {isSet : Bool} {stop : StringIndex → Bool} {recording : Recording} {p : Profile}
    (h : profile isSet stop recording = .ok p) :
    (BottomUp.merge recording.tables stop recording.ledger.records.toList recording.resolver).2
        = .ok p.bottomUp ∧
      p.bottomUp.invert = .ok p.topDown ∧ recording.series.charts? = some p.charts ∧
      p.summary = recording.summary := by
  rw [profile] at h
  obtain ⟨_, -, h⟩ := bind_eq_ok.1 h
  obtain ⟨bottomUp, hmerge, h⟩ := bind_eq_ok.1 h
  obtain ⟨_, -, h⟩ := bind_eq_ok.1 h
  obtain ⟨topDown, hinvert, h⟩ := bind_eq_ok.1 h
  obtain ⟨_, -, h⟩ := bind_eq_ok.1 h
  cases hcharts : recording.series.charts? with
  | none =>
      rw [hcharts] at h
      exact nomatch h
  | some charts =>
      rw [hcharts] at h
      obtain ⟨_, -, h⟩ := bind_eq_ok.1 h
      cases h
      exact ⟨mapError_eq_ok.1 hmerge, mapError_eq_ok.1 hinvert, rfl, rfl⟩

/-- The profile of a recording consists of its merged forest, the inverse of that, and its
    summary. -/
theorem profile_ok {isSet : Bool} {stop : StringIndex → Bool} {recording : Recording} {p : Profile}
    (h : profile isSet stop recording = .ok p) :
    (BottomUp.merge recording.tables stop recording.ledger.records.toList recording.resolver).2
        = .ok p.bottomUp ∧
      p.bottomUp.invert = .ok p.topDown ∧ p.summary = recording.summary := by
  obtain ⟨hmerge, hinvert, -, hsummary⟩ := stages_ok h
  exact ⟨hmerge, hinvert, hsummary⟩

theorem exists_profile_of_isSome {outcome : Except RunFailure Profile}
    (h : outcome.toOption.isSome = true) : ∃ p, outcome = .ok p := by
  cases outcome with
  | error _ => exact Bool.noConfusion h
  | ok p => exact ⟨p, rfl⟩

/-- A run that yields a profile yields that of its recording, with call paths that end at the stop
    names unless another boundary is given. -/
theorem profile_of_run {stopNames : List String} {boundary : Option (StringIndex → Bool)}
    {cancel : Cancellation} {stream : List (Except StreamFault Event)} {p : Profile}
    (h : (run stopNames boundary cancel stream).1 = .ok p) :
    ∃ isSet, profile isSet (boundary.getD (recordingOf stopNames (eventsOf stream)).stops.isStop)
      (recordingOf stopNames (eventsOf stream)) = .ok p := by
  rw [run] at h
  cases hread : read cancel (Recording.start stopNames) 0 stream with
  | mk outcome taken =>
      rw [hread] at h
      cases outcome with
      | error failure => exact nomatch h
      | ok recording =>
          have hrecording := (read_ok (congrArg Prod.fst hread)).2
          rw [recordingOf, ← hrecording]
          exact ⟨_, h⟩

/-- **A run that yields a profile** has recorded all events of its stream, and the profile is that
    of the recording. -/
theorem run_ok {stopNames : List String} {boundary : Option (StringIndex → Bool)}
    {cancel : Cancellation} {stream : List (Except StreamFault Event)} {p : Profile}
    (h : (run stopNames boundary cancel stream).1 = .ok p) :
    ∃ isSet stop, profile isSet stop (recordingOf stopNames (eventsOf stream)) = .ok p := by
  obtain ⟨isSet, hprofile⟩ := profile_of_run h
  exact ⟨isSet, _, hprofile⟩

end Run

end HeapProfile
