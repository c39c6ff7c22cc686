import HeapProfile.Proofs.Locating
import HeapProfile.Proofs.Peaks

/-!
# Interleaving — what of a recording depends on the order of its events

Every event goes to one place: strings, addresses and nodes each to their own table, allocations and
frees to the record of their call path.  So what stands in such a place depends on the events that
go there, in their order, and not on what arrived between them (`view_foldl`).

`Rearranged` says of two lists of events that they differ in nothing but that: time marks and names
of the program apart, one is the other with its sequences interleaved in another way.

* **`tables_stops_rearranged`** — the tables and the stop names are the same;
* **`records_rearranged`** — the records are the same, in an order of their own: `recordOf?` looks
  one of them up, and `recordOf?_enter` is all that an entry does to it;
* **`strings_sync_after`** — the resolver of a recording knows the first strings of the tables,
  however many those are, so behind `sync` it knows the strings of the tables.
-/

namespace HeapProfile

namespace Event

/-- An event enters something into the record of a call path. -/
def concerns (path : TraceIndex) : Event → Bool
  | .alloc index _ => index == path
  | .free index _ => index == path
  | _ => false

/-- Two lists of events with the same strings, addresses and nodes, and for every call path with the
    same allocations and frees; each of these sequences has its own order, and any interleaving. -/
structure Rearranged (events events' : List Event) : Prop where
  strings : (events.filter fun e => e.kind = .string) = events'.filter fun e => e.kind = .string
  ips : (events.filter fun e => e.kind = .ip) = events'.filter fun e => e.kind = .ip
  traces : (events.filter fun e => e.kind = .trace) = events'.filter fun e => e.kind = .trace
  entries : ∀ path, events.filter (concerns path) = events'.filter (concerns path)

section View

variable {σ π : Type} (step : σ → Event → σ) (view : σ → π) (inv : σ → Prop)
  {next : π → Event → π} {p : Event → Bool}

/-- **A view that only some events change** is what these events make of it.  So two runs with the same
    events of these kinds, in the same order, agree in the view. -/
theorem view_foldl (hinv : ∀ s e, inv s → inv (step s e))
    (hview : ∀ s e, inv s → view (step s e) = if p e then next (view s) e else view s)
    (events : List Event) {s : σ} (hs : inv s) :
    view (events.foldl step s) = (events.filter p).foldl next (view s) := by
  induction events generalizing s with
  | nil => rfl
  | cons e rest ih =>
      rw [List.foldl_cons, ih (hinv s e hs), hview s e hs, List.filter_cons]
      cases p e <;> rfl

theorem view_eq_of_filter_eq (hinv : ∀ s e, inv s → inv (step s e))
    (hview : ∀ s e, inv s → view (step s e) = if p e then next (view s) e else view s)
    {events events' : List Event} (h : events.filter p = events'.filter p) {s : σ} (hs : inv s) :
    view (events.foldl step s) = view (events'.foldl step s) := by
  rw [view_foldl step view inv hinv hview events hs, view_foldl step view inv hinv hview events' hs,
    h]

end View

end Event

/-! ## Records -/

/-- What an entry does to the record of its call path, if there is one. -/
def Record.enter? (record? : Option Record) : Event → Option Record
  | .alloc trace size => some ((record?.getD { trace }).alloc size)
  | .free _ size => record?.map fun r => r.free size
  | _ => record?

namespace Ledger

variable {l : Ledger}

/-- The record of a call path. -/
def recordOf? (l : Ledger) (path : TraceIndex) : Option Record :=
  l.records.toList.find? fun r => r.trace == path

theorem distinct_enterAll (h : l.Distinct) (events : List Event) :
    (events.foldl enter l).Distinct := by
  induction events generalizing l with
  | nil => exact h
  | cons event rest ih => exact ih (distinct_enter h event)

/-- Among distinct records the one of a path is found wherever it stands, since no record in front of it
    has the same path. -/
theorem find?_middle {before after : List Record} {r : Record}
    (h : ((before ++ r :: after).map Record.trace).Nodup) (path : TraceIndex) :
    (before ++ r :: after).find? (fun r => r.trace == path)
      = if r.trace = path then some r else (before ++ after).find? fun r => r.trace == path := by
  rw [List.map_append, List.nodup_append] at h
  rw [List.find?_append, List.find?_cons]
  by_cases hpath : r.trace = path
  · have hbefore : before.find? (fun r => r.trace == path) = none := by
      refine List.find?_eq_none.2 fun q hq hfound => ?_
      rw [beq_iff_eq, ← hpath] at hfound
      exact h.2.2 q.trace (List.mem_map_of_mem hq) r.trace (by simp) hfound
    rw [if_pos hpath, hbefore, beq_iff_eq.2 hpath]
    rfl
  · rw [if_neg hpath, beq_false_of_ne hpath, List.find?_append]

theorem mem_records_iff (h : l.Distinct) {r : Record} :
    r ∈ l.records.toList ↔ l.recordOf? r.trace = some r := by
  constructor
  · intro hr
    obtain ⟨before, after, hsplit⟩ := List.append_of_mem hr
    rw [Distinct, hsplit] at h
    rw [recordOf?, hsplit, find?_middle h, if_pos rfl]
  · intro hr
    exact List.mem_of_find?_eq_some hr

/-- Where one record is replaced, the others are found as before. -/
theorem recordOf?_replaced {l' : Ledger} {before after : List Record} {r r' : Record}
    (h : l.Distinct) (h' : l'.Distinct) (hsplit : l.records.toList = before ++ r :: after)
    (hsplit' : l'.records.toList = before ++ r' :: after) (htrace : r'.trace = r.trace) :
    l.recordOf? r.trace = some r ∧
      ∀ path, l'.recordOf? path = if r.trace = path then some r' else l.recordOf? path := by
  rw [Distinct, hsplit] at h
  rw [Distinct, hsplit'] at h'
  refine ⟨by rw [recordOf?, hsplit, find?_middle h, if_pos rfl], fun path => ?_⟩
  rw [recordOf?, recordOf?, hsplit, hsplit', find?_middle h, find?_middle h', htrace]
  by_cases hpath : r.trace = path
  · rw [if_pos hpath, if_pos hpath]
  · rw [if_neg hpath, if_neg hpath, if_neg hpath]

theorem recordOf?_of_fresh {trace : TraceIndex} (h : ∀ r ∈ l.records.toList, r.trace ≠ trace) :
    l.recordOf? trace = none :=
  List.find?_eq_none.2 fun r hr hfound => h r hr (beq_iff_eq.1 hfound)

/-- An allocation changes the record of its own call path, which is a new one where there was none, and
    finds the records of all other paths as they were. -/
theorem recordOf?_alloc (h : l.Distinct) (trace path : TraceIndex) (size : UInt64) :
    (l.alloc trace size).recordOf? path
      = if trace = path then some (((l.recordOf? trace).getD { trace }).alloc size)
        else l.recordOf? path := by
  have hafter : (l.alloc trace size).Distinct := distinct_enter h (.alloc trace size)
  rcases alloc_cases l trace size with ⟨before, r, after, hsplit, rfl, halloc⟩ | ⟨hfresh, halloc⟩
  · obtain ⟨hr, hall⟩ := recordOf?_replaced h hafter hsplit halloc rfl
    rw [hall, hr]
    rfl
  · rw [recordOf?_of_fresh hfresh, recordOf?, halloc, List.find?_append, List.find?_singleton]
    by_cases hpath : trace = path
    · subst hpath
      have hnone := recordOf?_of_fresh hfresh
      rw [recordOf?] at hnone
      rw [if_pos rfl, hnone, Option.none_or]
      exact if_pos (beq_self_eq_true trace)
    · rw [if_neg hpath]
      have hother : (({ trace : Record }.alloc size).trace == path) = false := beq_false_of_ne hpath
      rw [hother, if_neg Bool.false_ne_true, Option.or_none]
      rfl

theorem recordOf?_free (h : l.Distinct) (trace path : TraceIndex) (size : UInt64) :
    (l.free trace size).recordOf? path
      = if trace = path then (l.recordOf? trace).map fun r => r.free size else l.recordOf? path := by
  have hafter : (l.free trace size).Distinct := distinct_enter h (.free trace size)
  rcases free_cases l trace size with ⟨before, r, after, hsplit, rfl, hfree, -⟩ | ⟨hfresh, hfree⟩
  · obtain ⟨hr, hall⟩ := recordOf?_replaced h hafter hsplit hfree rfl
    rw [hall, hr]
    rfl
  · rw [hfree, recordOf?_of_fresh hfresh]
    by_cases hpath : trace = path
    · rw [if_pos hpath, ← hpath, recordOf?_of_fresh hfresh]
      rfl
    · rw [if_neg hpath]

/-- **All that an entry does to the record of a path.**  An event on another path does nothing to it,
    and an event on this path does what it would do to this record alone. -/
theorem recordOf?_enter (h : l.Distinct) (path : TraceIndex) (event : Event) :
    (l.enter event).recordOf? path
      = if event.concerns path then Record.enter? (l.recordOf? path) event
        else l.recordOf? path := by
  cases event with
  | alloc trace size =>
      rw [enter, recordOf?_alloc h, Event.concerns, Record.enter?]
      by_cases hpath : trace = path
      · rw [if_pos hpath, if_pos (beq_iff_eq.2 hpath), hpath]
      · rw [if_neg hpath, if_neg (mt beq_iff_eq.1 hpath)]
  | free trace size =>
      rw [enter, recordOf?_free h, Event.concerns, Record.enter?]
      by_cases hpath : trace = path
      · rw [if_pos hpath, if_pos (beq_iff_eq.2 hpath), hpath]
      · rw [if_neg hpath, if_neg (mt beq_iff_eq.1 hpath)]
  | _ => rfl

/-- **Rearranged events leave the same records**, in an order of their own.  Each path sees its own
    events in their order, and its record depends on nothing else. -/
theorem records_rearranged {events events' : List Event} (h : Event.Rearranged events events')
    (hdistinct : l.Distinct) :
    (events.foldl enter l).records.toList.Perm (events'.foldl enter l).records.toList := by
  have hleft := distinct_enterAll hdistinct events
  have hright := distinct_enterAll hdistinct events'
  have hsame : ∀ path, (events.foldl enter l).recordOf? path
      = (events'.foldl enter l).recordOf? path := fun path =>
    Event.view_eq_of_filter_eq enter (recordOf? · path) Distinct
      (fun _ event hl => distinct_enter hl event)
      (fun _ event hl => recordOf?_enter hl path event) (h.entries path) hdistinct
  refine (List.perm_ext_iff_of_nodup hleft.of_map hright.of_map).2 fun r => ?_
  rw [mem_records_iff hleft, mem_records_iff hright, hsame]

end Ledger

/-! ## Tables and stop names -/

namespace Recording

/-- What a string event does to the strings of the tables and to the stop names. -/
def observe (state : Table .string String × StopNames) : Event → Table .string String × StopNames
  | .string value =>
    let strings := state.1.push value
    (strings, state.2.observe strings.newest ((strings.get? strings.newest).getD ""))
  | _ => state

theorem strings_stops_handle (r : Recording) (event : Event) :
    ((r.handle event).tables.strings, (r.handle event).stops)
      = if event.kind = .string then observe (r.tables.strings, r.stops) event
        else (r.tables.strings, r.stops) := by
  cases event with
  | timestamp stamp =>
      rw [handle]
      by_cases hstale : stamp ≤ r.lastStamp
      · rw [if_pos hstale]
        rfl
      · rw [if_neg hstale]
        rfl
  | _ => rfl

theorem ips_handle (r : Recording) (event : Event) :
    (r.handle event).tables.ips
      = if event.kind = .ip then (({ ips := r.tables.ips } : Tables).enter event).ips
        else r.tables.ips := by
  rw [tables_handle]
  cases event <;> rfl

theorem traces_handle (r : Recording) (event : Event) :
    (r.handle event).tables.traces
      = if event.kind = .trace then (({ traces := r.tables.traces } : Tables).enter event).traces
        else r.tables.traces := by
  rw [tables_handle]
  cases event <;> rfl

/-- A view of a recording that one kind of events alone changes is the same after rearranged events. -/
theorem view_eq_of_kind {π : Type} (view : Recording → π) (next : π → Event → π) {kind : EventKind}
    (hview : ∀ r event, view (handle r event)
      = if event.kind = kind then next (view r) event else view r)
    {events events' : List Event}
    (h : (events.filter fun e => e.kind = kind) = events'.filter fun e => e.kind = kind)
    (r : Recording) : view (events.foldl handle r) = view (events'.foldl handle r) := by
  have hkind : ∀ r event, True → view (handle r event)
      = if decide (event.kind = kind) then next (view r) event else view r := by
    intro r event _
    rw [hview]
    simp only [decide_eq_true_eq]
  exact Event.view_eq_of_filter_eq handle view (fun _ => True) (fun _ _ _ => trivial) hkind h trivial

/-- **Rearranged events leave the same tables and the same stop names.**  Each table is told by the
    events of its own kind, and these come in the same order. -/
theorem tables_stops_rearranged {events events' : List Event} (h : Event.Rearranged events events')
    (r : Recording) :
    (events.foldl handle r).tables = (events'.foldl handle r).tables ∧
      (events.foldl handle r).stops = (events'.foldl handle r).stops := by
  have hboth := view_eq_of_kind (fun r => (r.tables.strings, r.stops)) observe strings_stops_handle
    h.strings r
  have hips := view_eq_of_kind (fun r => r.tables.ips)
    (fun ips event => (({ ips } : Tables).enter event).ips) ips_handle h.ips r
  have htraces := view_eq_of_kind (fun r => r.tables.traces)
    (fun traces event => (({ traces } : Tables).enter event).traces) traces_handle h.traces r
  obtain ⟨hstrings, hstops⟩ := Prod.mk.inj hboth
  refine ⟨?_, hstops⟩
  generalize (events.foldl handle r).tables = t, (events'.foldl handle r).tables = t' at *
  cases t
  cases t'
  simp_all

/-! ## The strings of the resolver -/

theorem strings_boundary (r : Recording) (stamp : UInt64) (isLast : Bool) :
    (r.boundary stamp isLast).resolver.strings
      = (r.resolver.sync r.tables.strings.entries).strings := by
  show (SeriesSet.boundary _ _ _ _ _ _ _).2.strings = _
  rw [SeriesSet.boundary]
  split
  · rfl
  · exact Resolver.strings_foldl_note _ _

theorem knowsFirst_boundary {r : Recording} (h : r.resolver.KnowsFirst r.tables) (stamp : UInt64)
    (isLast : Bool) : (r.boundary stamp isLast).resolver.KnowsFirst (r.boundary stamp isLast).tables := by
  rw [Resolver.KnowsFirst, strings_boundary, tables_boundary, Resolver.strings_sync h]

/-- The tables may get ahead of the resolver, but it never has a string that they do not have.  It
    copies strings at samples, and tables grow at their ends. -/
theorem knowsFirst_take {r : Recording} (h : r.resolver.KnowsFirst r.tables) (call : Call) :
    (r.take call).resolver.KnowsFirst (r.take call).tables := by
  cases call with
  | handle event =>
      rw [take]
      cases event with
      | string value =>
          -- the tables get one string more, and the resolver none
          refine h.trans ?_
          show _ <+: (r.tables.strings.entries.push value).toList
          rw [Array.toList_push]
          exact List.prefix_append _ _
      | timestamp stamp =>
          rw [handle]
          by_cases hstale : stamp ≤ r.lastStamp
          · rw [if_pos hstale]
            exact h
          · rw [if_neg hstale]
            exact knowsFirst_boundary h stamp false
      | _ => exact h
  | finish =>
      rw [take, finish]
      split
      · exact h
      · split
        · exact h
        · exact knowsFirst_boundary h _ true

/-- **Behind `sync` the resolver of a recording knows the strings of the tables.** -/
theorem strings_sync_after (stopNames : List String) (calls : List Call) :
    let r := after stopNames calls
    (r.resolver.sync r.tables.strings.entries).strings = r.tables.strings.entries := by
  refine Resolver.strings_sync ?_
  show (after stopNames calls).resolver.KnowsFirst (after stopNames calls).tables
  induction calls using List.reverseRecOn with
  | nil => exact List.prefix_refl _
  | append_singleton calls call ih =>
      rw [after_concat]
      exact knowsFirst_take ih call

end Recording

end HeapProfile
