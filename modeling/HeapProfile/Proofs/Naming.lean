import HeapProfile.Proofs.Interleaving
import HeapProfile.Proofs.Samples

/-!
# Naming — under which names a recording can list its functions

A record is listed under the function of its call-path node.  Before the node, its address or the
name of its function are interned the record has the empty name, and from then on one that no later
event changes.  So the names that a recording can ever list are known from its events alone:
`Event.functionNames` has the empty name and one name for every node.

* **`functionNames_enter`** — a name once known stays known, while the tables grow;
* **`numbered_after`** — the labels of every chart are the total and names of this list;
* **`totalLabel_not_mem`** — none of them is `total`, unless a string of the trace is;
* **`exists_row_after`** — as long as the names are fewer than the label numbers and none of them is
  `total`, every row behind the origin has the grand total of its state under number zero;
* **`chart_of_run`** — the charts of a run are those of its recording, closed behind its events.

Without the bound the labels run over, and one function more than there are numbers is entered in the
place of the total (`Series.assign_of_full`).  A trace keeps the bound unless it interns as many
call-path nodes as there are numbers, less one (`card_functionNames_le`).
-/

namespace HeapProfile

namespace Table

variable {kind : Interned} {α : Type}

/-- What is interned stays under its number. -/
theorem get?_push_of_some {t : Table kind α} {i : Index kind} {entry : α} (h : t.get? i = some entry)
    (new : α) : (t.push new).get? i = some entry := by
  have hsize := (exists_get?_iff.1 ⟨entry, h⟩).2
  rw [get?_push_of_lt t new i hsize, h]

/-- What stands at an index stands in the table. -/
theorem mem_of_get? {t : Table kind α} {i : Index kind} {entry : α} (h : t.get? i = some entry) :
    entry ∈ t.entries := by
  rw [get?] at h
  split at h
  · cases h
  · exact Array.mem_of_getElem? h

end Table

namespace Tables

/-- What the function of a call-path node is called; the name is empty as long as its address is not
    known. -/
def nodeName (t : Tables) (node : TraceNode) : String := ((t.ip? node.ip).map t.ipName).getD ""

/-- The names that functions of records can have: one for every node, and the empty name. -/
def functionNames (t : Tables) : List String := "" :: t.traces.entries.toList.map t.nodeName

variable {t : Tables}

/-- The function of a record is called like its node, if it has one. -/
theorem functionName_mem {resolver : Resolver} (h : resolver.strings = t.strings.entries)
    (r : Record) : r.functionName t resolver ∈ t.functionNames := by
  rw [Record.functionName, Resolver.functionName_of_strings h, Record.site?]
  cases hnode : t.trace? r.trace with
  | none => exact List.mem_cons_self
  | some node =>
      refine List.mem_cons_of_mem _ (List.mem_map.2 ⟨node, ?_, rfl⟩)
      exact Array.mem_toList_iff.2 (Table.mem_of_get? hnode)

/-! ## Names while the tables grow -/

/-- A string that was interned stays where it is: tables only grow at their ends. -/
theorem string_enter {i : StringIndex} {value : String} (h : t.strings.get? i = some value)
    (event : Event) : (t.enter event).strings.get? i = some value := by
  cases event with
  | string new => exact Table.get?_push_of_some h new
  | _ => exact h

/-- An address that was interned stays where it is. -/
theorem ip?_enter {i : IpIndex} {ip : Ip} (h : t.ip? i = some ip) (event : Event) :
    (t.enter event).ip? i = some ip := by
  cases event with
  | ip new => exact Table.get?_push_of_some h new
  | _ => exact h

/-- The name of an address is the same after every event, unless it was empty before.  It is empty while
    the string of its function is not interned. -/
theorem ipName_enter (event : Event) (ip : Ip) :
    t.ipName ip = "" ∨ (t.enter event).ipName ip = t.ipName ip := by
  rw [ipName, ipName]
  by_cases hnone : ip.function.isNone
  · rw [if_pos hnone, if_pos hnone]
    exact Or.inr rfl
  · rw [if_neg hnone, if_neg hnone, string, string]
    cases hstring : t.strings.get? ip.function with
    | none => exact Or.inl rfl
    | some value =>
        rw [string_enter hstring event]
        exact Or.inr rfl

/-- **A name once known does not change.**  Before that it is empty, for a node whose address or string
    is still missing. -/
theorem nodeName_enter (event : Event) (node : TraceNode) :
    t.nodeName node = "" ∨ (t.enter event).nodeName node = t.nodeName node := by
  rw [nodeName, nodeName]
  cases hip : t.ip? node.ip with
  | none => exact Or.inl rfl
  | some ip =>
      rw [ip?_enter hip event]
      exact ipName_enter event ip

/-- **A name once known stays known**, while the tables grow.  A new node adds its own name, and a new
    address or string may name older nodes. -/
theorem functionNames_enter (t : Tables) (event : Event) :
    t.functionNames ⊆ (t.enter event).functionNames := by
  intro name hname
  rcases List.mem_cons.1 hname with rfl | hname
  · exact List.mem_cons_self
  · obtain ⟨node, hnode, rfl⟩ := List.mem_map.1 hname
    rcases nodeName_enter (t := t) event node with hempty | hsame
    · rw [hempty]
      exact List.mem_cons_self
    · refine List.mem_cons_of_mem _ (List.mem_map.2 ⟨node, ?_, hsame⟩)
      rw [Array.mem_toList_iff] at hnode ⊢
      cases event with
      | trace new => exact Array.mem_push_of_mem new hnode
      | _ => exact hnode

/-- Over a run of events the known names become more and never fewer. -/
theorem functionNames_enterAll (events : List Event) (t : Tables) :
    t.functionNames ⊆ (events.foldl enter t).functionNames := by
  induction events generalizing t with
  | nil => exact List.Subset.refl _
  | cons event rest ih => exact List.Subset.trans (functionNames_enter t event) (ih _)

/-- Strings get into the tables by string events alone. -/
theorem mem_strings_enterAll {events : List Event} {s : String}
    (h : s ∈ (events.foldl enter t).strings.entries) :
    s ∈ t.strings.entries ∨ .string s ∈ events := by
  induction events generalizing t with
  | nil => exact Or.inl h
  | cons event rest ih =>
      rcases ih h with hold | hrest
      · cases event with
        | string value =>
            rcases Array.mem_push.1 hold with hold | rfl
            · exact Or.inl hold
            · exact Or.inr List.mem_cons_self
        | _ => exact Or.inl hold
      · exact Or.inr (List.mem_cons_of_mem _ hrest)

end Tables

/-- The label of an address without a function is its hexadecimal text. -/
theorem toList_addressLabel (address : UInt64) :
    (addressLabel address).toList = '0' :: 'x' :: Nat.toDigits 16 address.toNat := by
  have hzero : "0x".toList = ['0', 'x'] := by decide
  rw [addressLabel, String.toList_append, hzero, String.toList_ofList]
  rfl

/-- The label of an address is never that of the total: it begins with a zero. -/
theorem addressLabel_ne_totalLabel (address : UInt64) : addressLabel address ≠ totalLabel := by
  intro h
  have hlist := congrArg String.toList h
  have htotal : totalLabel.toList = ['t', 'o', 't', 'a', 'l'] := by decide
  -- an address begins with a zero
  rw [toList_addressLabel, htotal] at hlist
  exact absurd (List.cons.inj hlist).1 (by decide)

/-- None of the names is `total`, unless an interned string is.  The others are empty or hexadecimal,
    and an empty name is not `total` either. -/
theorem Tables.totalLabel_not_mem {t : Tables} (h : totalLabel ∉ t.strings.entries) :
    totalLabel ∉ t.functionNames := by
  have hstring : ∀ i, t.string i ≠ totalLabel := by
    intro i heq
    rw [string] at heq
    cases hvalue : t.strings.get? i with
    | none =>
        rw [hvalue] at heq
        exact absurd heq (by decide)
    | some value =>
        rw [hvalue] at heq
        obtain rfl : value = totalLabel := heq
        exact h (Table.mem_of_get? hvalue)
  intro hmem
  rcases List.mem_cons.1 hmem with hempty | hmem
  · exact absurd hempty (by decide)
  · obtain ⟨node, -, hname⟩ := List.mem_map.1 hmem
    rw [nodeName] at hname
    cases hip : t.ip? node.ip with
    | none =>
        rw [hip] at hname
        replace hname : "" = totalLabel := hname
        exact absurd hname (by decide)
    | some ip =>
        rw [hip] at hname
        replace hname : t.ipName ip = totalLabel := hname
        rw [ipName] at hname
        split at hname
        · exact addressLabel_ne_totalLabel _ hname
        · exact hstring _ hname

namespace Event

/-- The names that some events give their functions, and the empty name. -/
def functionNames (events : List Event) : List String :=
  (events.foldl Tables.enter {}).functionNames

/-- **No function is called like the total**, unless a string of the trace is.  All that is needed for
    it is that strings come from string events. -/
theorem totalLabel_not_mem_functionNames {events : List Event} (h : .string totalLabel ∉ events) :
    totalLabel ∉ functionNames events := by
  refine Tables.totalLabel_not_mem fun hstring => ?_
  rcases Tables.mem_strings_enterAll hstring with hnone | hevent
  · exact nomatch Array.mem_toList_iff.2 hnone
  · exact h hevent

/-- There are no more of these names than call-path nodes, and the empty one.  So only a trace with as
    many nodes as there are numbers can run out of labels. -/
theorem card_functionNames_le (events : List Event) :
    (functionNames events).toFinset.card ≤ nodeCount events + 1 := by
  have hsize := Tables.size_traces_enterAll events {}
  have hempty : ({} : Tables).traces.size = 0 := rfl
  rw [hempty, Nat.zero_add] at hsize
  refine (List.toFinset_card_le _).trans (Nat.le_of_eq ?_)
  rw [functionNames, Tables.functionNames, List.length_cons, List.length_map, Array.length_toList,
    ← hsize]
  rfl

end Event

/-! ## The labels of a recording -/

namespace Recording

/-- A call brings its event into the tables, and the closing brings none. -/
theorem tables_take (r : Recording) (call : Call) :
    (r.take call).tables = call.event?.toList.foldl Tables.enter r.tables := by
  cases call with
  | handle event => exact tables_handle r event
  | finish => exact (ledger_tables_finish r).2

/-- **The tables are what the events interned.** -/
theorem tables_after (stopNames : List String) (calls : List Call) :
    (after stopNames calls).tables = (events calls).foldl Tables.enter {} := by
  induction calls using List.reverseRecOn with
  | nil => rfl
  | append_singleton calls call ih =>
      rw [after_concat, tables_take, ih, events_concat, List.foldl_append]

/-- The names that a recording knows are those of its events, whatever calls brought them. -/
theorem functionNames_after (stopNames : List String) (calls : List Call) :
    (after stopNames calls).tables.functionNames = Event.functionNames (events calls) := by
  rw [tables_after, Event.functionNames]

/-- A recording knows no fewer names than it did at any time before. -/
theorem functionNames_prefix {before calls : List Call} (h : before <+: calls) :
    Event.functionNames (events before) ⊆ Event.functionNames (events calls) := by
  obtain ⟨rest, rfl⟩ := h
  rw [Event.functionNames, Event.functionNames, events, events, List.filterMap_append,
    List.foldl_append]
  exact Tables.functionNames_enterAll _ _

/-- The functions that a recording can list have names that its events gave them. -/
theorem fst_mem_functionNames (stopNames : List String) (calls : List Call) {m : Metric}
    {e : String × UInt64} (h : e ∈ (after stopNames calls).ranked m) :
    e.1 ∈ Event.functionNames (events calls) := by
  obtain ⟨cost, hcost, -⟩ := Series.exists_of_mem_listed h
  obtain ⟨r, -, hname⟩ := exists_record_of_mem hcost
  rw [← functionNames_after stopNames, ← hname]
  exact Tables.functionName_mem (strings_sync_after stopNames calls) r

/-- **The labels of every chart** are the total and names that the events gave.  By induction on the
    calls, as a sample lists only functions of records, and these are named by the tables. -/
theorem numbered_after (stopNames : List String) (calls : List Call) (m : Metric) :
    ((after stopNames calls).series.series m).Numbered (Event.functionNames (events calls)) := by
  induction calls using List.reverseRecOn with
  | nil => cases m <;> exact Series.numbered_start _ _
  | append_singleton calls call ih =>
      have hcharted := charted_after stopNames calls
      have hmore := functionNames_prefix (List.prefix_append calls [call])
      have hbefore := ih.mono hmore
      rw [after_concat, series_take hcharted]
      cases (after stopNames calls).sampleTime? call with
      | none => exact hbefore.congr rfl rfl
      | some time =>
          refine (hbefore.sample ((after stopNames calls).nodup_listed _) ?_ time _).congr rfl rfl
          intro e he
          rw [hcharted.metric m] at he
          exact hmore (fst_mem_functionNames stopNames calls he)

/-! ## Rows and grand totals -/

/-- Every sample is taken in the state behind some first calls. -/
theorem exists_prefix_of_mem_sampled {stopNames : List String} {calls : List Call}
    {sample : UInt64 × Recording} (h : sample ∈ (start stopNames).sampled calls) :
    ∃ before, before <+: calls ∧ sample.2 = after stopNames before := by
  induction calls using List.reverseRecOn with
  | nil => exact nomatch h
  | append_singleton calls call ih =>
      rw [sampled_concat, List.mem_append] at h
      rcases h with hold | hnew
      · obtain ⟨before, hbefore, hsample⟩ := ih hold
        exact ⟨before, hbefore.trans (List.prefix_append _ _), hsample⟩
      · obtain ⟨time, -, rfl⟩ := List.mem_map.1 hnew
        exact ⟨calls, List.prefix_append _ _, rfl⟩

variable {stopNames : List String} {calls : List Call}

/-- Number zero is never taken from the grand total, if no string is `total` and the names are fewer
    than the numbers. -/
theorem reported_eq_total (hnames : .string totalLabel ∉ events calls)
    (hfew : (Event.functionNames (events calls)).toFinset.card < UInt32.size) {before : List Call}
    (hbefore : before <+: calls) (m : Metric) :
    reported ((after stopNames calls).series.series m).labels m (after stopNames before)
      = m.total (after stopNames before).chartTotals := by
  have hnumbered := numbered_after stopNames calls m
  refine (Series.getD_lastUnder_eq_iff hnumbered.total (hnumbered.size_le.trans hfew)
    ((after stopNames before).nodup_listed m) _).2 ?_
  intro value hvalue
  have hmem := functionNames_prefix hbefore (fst_mem_functionNames stopNames before hvalue)
  exact absurd hmem (Event.totalLabel_not_mem_functionNames hnames)

/-- **The rows behind the origin report the grand totals** of the states they were taken in, under
    number zero. -/
theorem rows_report (stopNames : List String) (hnames : .string totalLabel ∉ events calls)
    (hfew : (Event.functionNames (events calls)).toFinset.card < UInt32.size) (m : Metric) :
    ∃ rows, ((after stopNames calls).series.series m).rows.toList = {} :: rows ∧
      List.Forall₂ (fun row sample => row.timeStamp = sample.1 ∧
          row.values.get? totalLabelId = some (m.total sample.2.chartTotals))
        rows ((start stopNames).sampled calls) := by
  obtain ⟨rows, hrows, hreports⟩ := rows_after stopNames calls m (Series.Keeps.refl _)
  have htotals : ∀ sample ∈ (start stopNames).sampled calls,
      reported ((after stopNames calls).series.series m).labels m sample.2
        = m.total sample.2.chartTotals := by
    intro sample hsample
    obtain ⟨before, hbefore, heq⟩ := exists_prefix_of_mem_sampled hsample
    rw [heq]
    exact reported_eq_total hnames hfew hbefore m
  refine ⟨rows, hrows, List.Forall₂.flip ?_⟩
  refine ((List.forall₂_and_left _ _).2 ⟨htotals, hreports.flip⟩).imp ?_
  rintro sample row ⟨htotal, hreport⟩
  exact ⟨hreport.time, by rw [hreport.value, htotal]⟩

/-- The grand totals of the rows behind the origin, in their order. -/
theorem totals_report (stopNames : List String) (hnames : .string totalLabel ∉ events calls)
    (hfew : (Event.functionNames (events calls)).toFinset.card < UInt32.size) (m : Metric) :
    ∃ rows, ((after stopNames calls).series.series m).rows.toList = {} :: rows ∧
      rows.map (fun row => row.values.get? totalLabelId)
        = ((start stopNames).sampled calls).map fun sample => some (m.total sample.2.chartTotals) := by
  obtain ⟨rows, hrows, hreports⟩ := rows_report stopNames hnames hfew m
  refine ⟨rows, hrows, ?_⟩
  rw [← List.forall₂_eq_eq_eq, List.forall₂_map_left_iff, List.forall₂_map_right_iff]
  exact hreports.imp fun _ _ hreport => hreport.2

/-- **The row of a sample** stands behind as many others as samples were taken before, and the
    origin. -/
theorem exists_row_after (hnames : .string totalLabel ∉ events calls)
    (hfew : (Event.functionNames (events calls)).toFinset.card < UInt32.size)
    {before rest : List Call} {call : Call} (hcalls : calls = before ++ call :: rest) {time : UInt64}
    (htime : (after stopNames before).sampleTime? call = some time) (m : Metric) :
    ∃ row, ((after stopNames calls).series.series m).rows[
        ((start stopNames).sampled before).length + 1]? = some row ∧
      row.timeStamp = time ∧
      row.values.get? totalLabelId = some (m.total (after stopNames before).chartTotals) := by
  obtain ⟨rows, hrows, hreports⟩ := rows_report stopNames hnames hfew m
  -- the samples before this one and the rows before its row are as many
  have hsampled : (start stopNames).sampled calls = (start stopNames).sampled before
      ++ (time, after stopNames before) :: ((after stopNames before).take call).sampled rest := by
    have hfirst : ((after stopNames before).sampleTime? call).toList = [time] := by
      rw [htime]
      rfl
    rw [hcalls, sampled_append]
    show _ ++ (((after stopNames before).sampleTime? call).toList.map _ ++ _) = _
    rw [hfirst]
    rfl
  rw [hsampled] at hreports
  have hdrop := List.forall₂_drop_append _ _ _ hreports
  cases hrest : rows.drop ((start stopNames).sampled before).length with
  | nil =>
      rw [hrest] at hdrop
      exact nomatch hdrop
  | cons row later =>
      rw [hrest] at hdrop
      obtain ⟨hrow, -⟩ := List.forall₂_cons.1 hdrop
      refine ⟨row, ?_, hrow⟩
      rw [← Array.getElem?_toList, hrows, List.getElem?_cons_succ, ← List.head?_drop, hrest]
      rfl

/-! ## The charts of a run -/

/-- No event closes a recording. -/
theorem finished_handle (r : Recording) (event : Event) : (r.handle event).finished = r.finished := by
  cases event with
  | timestamp stamp =>
      rw [handle]
      split
      · rfl
      · rfl
  | _ => rfl

/-- No number of events closes a recording either. -/
theorem finished_foldl_handle (events : List Event) (r : Recording) :
    (events.foldl handle r).finished = r.finished := by
  induction events generalizing r with
  | nil => rfl
  | cons event rest ih => rw [List.foldl_cons, ih, finished_handle]

end Recording

namespace Run

/-- The calls that a recording gets in a run. -/
def callsOf (stream : List (Except StreamFault Event)) : List Recording.Call :=
  (eventsOf stream).map .handle ++ [.finish]

/-- Calls that handle events have these events. -/
theorem events_map_handle (events : List Event) :
    Recording.events (events.map .handle) = events := by
  rw [Recording.events, List.filterMap_map]
  exact List.filterMap_some

/-- The calls that a run makes on a stream have the events that the stream brings before its first
    fault. -/
theorem events_callsOf (stream : List (Except StreamFault Event)) :
    Recording.events (callsOf stream) = eventsOf stream := by
  rw [callsOf, Recording.events_concat, events_map_handle]
  exact List.append_nil _

variable {stopNames : List String} {boundary : Option (StringIndex → Bool)} {cancel : Cancellation}
  {stream : List (Except StreamFault Event)} {p : Profile}

/-- The recording of a run before it is closed. -/
def openRecordingOf (stopNames : List String) (stream : List (Except StreamFault Event)) :
    Recording :=
  Recording.after stopNames ((eventsOf stream).map .handle)

/-- The calls of a run lead to its recording, closed at its end. -/
theorem after_callsOf :
    Recording.after stopNames (callsOf stream) = (openRecordingOf stopNames stream).finish := by
  rw [callsOf, Recording.after_concat]
  rfl

/-- The recording of a run is the open one behind all events, closed. -/
theorem recordingOf_eq_finish :
    recordingOf stopNames (eventsOf stream) = (openRecordingOf stopNames stream).finish := by
  rw [recordingOf_eq_after]
  exact after_callsOf

/-- Behind all events the recording is still open. -/
theorem finished_openRecordingOf : (openRecordingOf stopNames stream).finished = false := by
  rw [openRecordingOf, Recording.after, Recording.foldl_take_handle]
  exact Recording.finished_foldl_handle _ _

/-- Where a tick is left behind the last time mark, closing a run takes a last sample. -/
theorem sampleTime?_finish (hlast : (openRecordingOf stopNames stream).lastStamp < UInt64.largest) :
    (openRecordingOf stopNames stream).sampleTime? .finish
      = some ((openRecordingOf stopNames stream).lastStamp + 1) := by
  rw [Recording.sampleTime?, if_neg]
  rintro (hclosed | heq)
  · rw [finished_openRecordingOf] at hclosed
    exact Bool.false_ne_true hclosed
  · rw [heq] at hlast
    exact UInt64.lt_irrefl _ hlast

/-- A run takes the samples that its events take, and one more by closing, unless the last tick is used
    up already. -/
theorem sampled_callsOf (hlast : (openRecordingOf stopNames stream).lastStamp < UInt64.largest) :
    (Recording.start stopNames).sampled (callsOf stream)
      = (Recording.start stopNames).sampled ((eventsOf stream).map .handle)
        ++ [((openRecordingOf stopNames stream).lastStamp + 1, openRecordingOf stopNames stream)] := by
  rw [callsOf, Recording.sampled_concat]
  show _ ++ ((openRecordingOf stopNames stream).sampleTime? .finish).toList.map _ = _
  rw [sampleTime?_finish hlast]
  rfl

/-- **The charts of a run** are those of its recording, closed behind its events; what the run does
    afterwards with trees and files does not touch them. -/
theorem chart_of_run (h : (run stopNames boundary cancel stream).1 = .ok p) (m : Metric) :
    ((Recording.after stopNames (callsOf stream)).series.series m).frozen = true ∧
      p.charts.chart m = ((Recording.after stopNames (callsOf stream)).series.series m).chart := by
  obtain ⟨_, _, hprofile⟩ := run_ok h
  obtain ⟨-, -, hcharts, -⟩ := stages_ok hprofile
  rw [recordingOf_eq_after] at hcharts
  exact SeriesSet.chart_of_charts? hcharts m

end Run

end HeapProfile
