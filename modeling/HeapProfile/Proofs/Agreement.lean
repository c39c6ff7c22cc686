import HeapProfile.Proofs.Grouping
import HeapProfile.Proofs.MergedTrie
import HeapProfile.Proofs.Naming

/-!
# Agreement — the charts and the trees at the end of a run

The records of a run are grouped twice.  While the trace is read the charts group them by the name of
the function that allocated, and rank the groups; when it has been read the forest groups them by the
whole location, with its roots at the allocation sites.  A function has one group in the charts and,
where it allocates in several places, several roots in the forest.

* **`IsTrieOf.toNat_siteCost`** — the roots of a function together cost what was charged to paths that
  begin in it;
* **`toNat_siteCost_merge`** — in a merged forest these are the records that the charts group under
  its name, as long as the allocation site of every record is known;
* **`charts_agree_with_roots`** — so the last row of a chart has for every function that it lists what
  the roots of this function cost, and no other function costs more than a listed one.

An allocation site that is not known has no address, and the two groupings call it differently: the
charts by the empty name, the forest by the number zero.
-/

namespace HeapProfile

/-- Every allocation is on a call path whose node and whose address some event interns, before or
    behind it. -/
def Event.SitesKnown (events : List Event) : Prop :=
  ∀ trace size, .alloc trace size ∈ events → ∃ node ip,
    (events.foldl Tables.enter {}).trace? trace = some node ∧
      (events.foldl Tables.enter {}).ip? node.ip = some ip

/-! ## The roots of a function -/

/-- Whether a charge begins in a function. -/
def Charge.BeginsIn (function : String) (e : Charge) : Prop :=
  e.1.head?.map Location.function = some function

instance (function : String) : DecidablePred (Charge.BeginsIn function) := fun e =>
  inferInstanceAs (Decidable (e.1.head?.map Location.function = some function))

namespace CostTree

/-- What the roots with allocation sites in a function cost together. -/
def siteCost (t : CostTree) (function : String) : Cost :=
  t.costOf (t.roots.filter fun id => (t.locationAt id).function = function)

variable {t : CostTree} {charges : List Charge}

/-- **The roots of a function cost what was charged to paths that begin in it.**  Several roots may have
    one function, at different lines, and their paths are counted apart. -/
theorem IsTrieOf.toNat_siteCost (htrie : t.IsTrieOf charges) (hs : t.Shaped) (function : String)
    (f : CostField) :
    ((t.siteCost function).get f).toNat
      = min (Cost.amount f ((charges.filter (Charge.BeginsIn function)).map Prod.snd)) wordMax := by
  have hroot : ∀ {c}, c ∈ t.roots.filter (fun id => (t.locationAt id).function = function) →
      c ∈ t.siblings none ∧ (t.locationAt c).function = function := by
    intro c hc
    obtain ⟨hmem, hfunction⟩ := List.mem_filter.1 hc
    exact ⟨hmem, of_decide_eq_true hfunction⟩
  have hcosts : ∀ c ∈ t.roots.filter (fun id => (t.locationAt id).function = function),
      ((t.row c).cost.get f).toNat
        = min (Cost.amount f (Charge.through [t.locationAt c] charges)) wordMax :=
    fun c hc => htrie.cost (.down .top (hroot hc).1) f
  rw [siteCost, toNat_costOf, List.map_congr_left hcosts, clamp_sum_clamp]
  congr 1
  refine sum_amount_filter ((hs.nodup_siblings none).filter _) f
    (fun c (e : Charge) => [t.locationAt c] <+: e.1) (Charge.BeginsIn function) ?_ ?_
  · intro e he hbegins
    rw [Charge.BeginsIn, Option.map_eq_some_iff] at hbegins
    obtain ⟨location, hhead, hfunction⟩ := hbegins
    obtain ⟨rest, hpath⟩ := List.head?_eq_some_iff.1 hhead
    have hprefix : [location] <+: e.1 := ⟨rest, hpath.symm⟩
    -- the first location of the charge has a row, and that row is a root
    obtain ⟨id, hid⟩ := (htrie.rowAt_iff [location] (by simp)).2 ⟨e, he, hprefix⟩
    obtain ⟨parent, c, hup, hc, rfl, -⟩ := leads_concat.1 (show t.Leads ([] ++ [location]) _ from hid)
    obtain rfl := hup.row_unique hs .top
    refine ⟨c, List.mem_filter.2 ⟨hc, decide_eq_true hfunction⟩, hprefix, ?_⟩
    intro c' hc' hother
    have hsame := List.prefix_of_prefix_length_le hother hprefix (Nat.le_refl 1)
    exact hs.sibling_unique (hroot hc').1 hc (List.singleton_inj.1 (hsame.eq_of_length rfl))
  · rintro e - c hc ⟨rest, hpath⟩
    rw [Charge.BeginsIn, ← hpath, ← (hroot hc).2]
    rfl

end CostTree

/-! ## The records of a function -/

/-- A walk from a node of the table meets that node first. -/
theorem Tables.Walks.head?_eq {tables : Tables} {stop : StringIndex → Bool} {index : TraceIndex}
    {frames : List Ip} (h : tables.Walks stop index frames) {node : TraceNode}
    (hnode : tables.trace? index = some node) : frames.head? = some (tables.frameIp node) := by
  cases h with
  | outside hnone =>
      rw [hnone] at hnode
      exact nomatch hnode
  | stopped hnode' _ =>
      rw [hnode', Option.some.injEq] at hnode
      rw [hnode, List.head?_cons]
  | onward hnode' _ _ =>
      rw [hnode', Option.some.injEq] at hnode
      rw [hnode, List.head?_cons]

/-- Only what the resolver calls the addresses matters to the groups. -/
theorem costByFunction_congr {tables : Tables} {resolver resolver' : Resolver}
    (h : resolver.functionName = resolver'.functionName) (records : List Record) :
    costByFunction tables resolver records = costByFunction tables resolver' records := by
  have hname : ∀ record : Record,
      record.functionName tables resolver = record.functionName tables resolver' := by
    intro record
    rw [Record.functionName, Record.functionName, h]
  rw [costByFunction, costByFunction]
  simp only [hname]

namespace BottomUp

variable {tables : Tables} {stop : StringIndex → Bool} {records : List Record}
  {resolver : Resolver} {t : CostTree}

/-- A record whose allocation site is known is charged to a path that begins in its function. -/
theorem beginsIn_charge_iff (h : (merge tables stop records resolver).2 = .ok t) {record : Record}
    (hrecord : record ∈ records) {ip : Ip} (hsite : record.site? tables = some ip)
    (function : String) :
    Charge.BeginsIn function (walkedPath tables stop resolver record, record.cost) ↔
      record.functionName tables (resolver.sync tables.strings.entries) = function := by
  obtain ⟨node, hnode, hip⟩ := Option.bind_eq_some_iff.1 hsite
  have hframe : tables.frameIp node = ip := by
    rw [Tables.frameIp, hip]
    rfl
  have hhead := (walks_of_merge h hrecord).head?_eq hnode
  rw [Charge.BeginsIn, walkedPath, Resolver.locatePath, List.head?_map, hhead, hframe,
    Record.functionName, hsite]
  exact Option.some_inj

/-- **The roots of a function cost what the charts group under its name.**  Both add up the same
    records, and saturating sums do not depend on how they are grouped. -/
theorem toNat_siteCost_merge (h : (merge tables stop records resolver).2 = .ok t)
    (hsites : ∀ record ∈ records, record.site? tables ≠ none) (function : String) (m : Metric) :
    (t.siteCost function).get m.field = m.value ((FunctionCost.of? (costByFunction tables
      (resolver.sync tables.strings.entries) records) function).getD {}) := by
  obtain ⟨hs, -, htrie⟩ := TreeBuilder.trie_of_finish (charges_of_merge h).2
  have hcharges : ((charges tables stop resolver records).filter (Charge.BeginsIn function)).map
      Prod.snd = (recordsOf tables (resolver.sync tables.strings.entries) records function).map
        Record.cost := by
    rw [charges, List.filter_map, List.map_map, recordsOf]
    refine congrArg (List.map Record.cost) (List.filter_congr ?_)
    intro record hrecord
    obtain ⟨ip, hsite⟩ := Option.ne_none_iff_exists'.1 (hsites record hrecord)
    exact decide_eq_decide.2 (beginsIn_charge_iff h hrecord hsite function)
  refine UInt64.toNat.inj ?_
  rw [htrie.toNat_siteCost hs, hcharges, toNat_value_costByFunction]

end BottomUp

namespace Run

variable {stopNames : List String} {boundary : Option (StringIndex → Bool)} {cancel : Cancellation}
  {stream : List (Except StreamFault Event)} {p : Profile}

/-- Where all allocation sites are known, those of the records are. -/
theorem site_ne_none_of_known (hsites : Event.SitesKnown (eventsOf stream)) {record : Record}
    (hrecord : record ∈ (openRecordingOf stopNames stream).ledger.records.toList) :
    record.site? (openRecordingOf stopNames stream).tables ≠ none := by
  rw [openRecordingOf, Recording.ledger_after, events_map_handle] at hrecord
  rw [openRecordingOf, Recording.tables_after, events_map_handle]
  rcases Ledger.alloc_of_mem_enterAll hrecord with ⟨size, halloc⟩ | ⟨_, hnone, -⟩
  · obtain ⟨node, ip, hnode, hip⟩ := hsites _ size halloc
    rw [Record.site?, hnode]
    show Tables.ip? _ node.ip ≠ none
    rw [hip]
    exact Option.some_ne_none _
  · exact absurd hnone List.not_mem_nil

/-- **The roots of a function cost what the last sample grouped under its name.**  No event comes
    between the last sample and the forests, so both see the same records. -/
theorem siteCost_of_run (h : (run stopNames boundary cancel stream).1 = .ok p)
    (hsites : Event.SitesKnown (eventsOf stream)) (function : String) (m : Metric) :
    (p.bottomUp.siteCost function).get m.field
      = m.value ((FunctionCost.of? (openRecordingOf stopNames stream).functions function).getD {}) := by
  obtain ⟨_, _, hprofile⟩ := run_ok h
  obtain ⟨hmerge, -, -⟩ := profile_ok hprofile
  have htables := (Recording.ledger_tables_finish (openRecordingOf stopNames stream)).2
  -- closing changes the resolver, but not what it calls the addresses
  have hnames : ((openRecordingOf stopNames stream).finish.resolver.sync
        (openRecordingOf stopNames stream).tables.strings.entries).functionName
      = ((openRecordingOf stopNames stream).resolver.sync
        (openRecordingOf stopNames stream).tables.strings.entries).functionName := by
    have hopen := Recording.strings_sync_after stopNames ((eventsOf stream).map .handle)
    have hclosed := Recording.strings_sync_after stopNames (callsOf stream)
    rw [after_callsOf] at hclosed
    dsimp only at hclosed
    rw [htables] at hclosed
    exact (Resolver.functionName_of_strings hclosed).trans (Resolver.functionName_of_strings hopen).symm
  rw [recordingOf_eq_finish, (Recording.ledger_tables_finish _).1, htables] at hmerge
  rw [BottomUp.toNat_siteCost_merge hmerge fun _ => site_ne_none_of_known hsites,
    costByFunction_congr hnames]
  rfl

/-- **The last row of a chart** lists the functions of the last sample.  It is added by the closing,
    provided that a tick is left for it. -/
theorem exists_last_row (h : (run stopNames boundary cancel stream).1 = .ok p)
    (hnames : .string totalLabel ∉ eventsOf stream)
    (hlast : (openRecordingOf stopNames stream).lastStamp < UInt64.largest)
    (hfew : (Event.functionNames (eventsOf stream)).toFinset.card < UInt32.size) (m : Metric) :
    ∃ row, (p.charts.chart m).rows.getLast? = some row ∧
      ((p.charts.chart m).listed row).Perm
        (((openRecordingOf stopNames stream).ranked m).map fun e => (some e.1, e.2)) := by
  obtain ⟨hfrozen, hchart⟩ := chart_of_run h m
  have hcharted := Recording.charted_after stopNames ((eventsOf stream).map .handle)
  have hnumbered := Recording.numbered_after stopNames (callsOf stream) m
  have hsize := hnumbered.size_le.trans (events_callsOf stream ▸ hfew)
  have hseries : (Recording.after stopNames (callsOf stream)).series.series m
      = (((openRecordingOf stopNames stream).series.series m).sample
          ((openRecordingOf stopNames stream).lastStamp + 1)
          (m.total (openRecordingOf stopNames stream).chartTotals)
          (openRecordingOf stopNames stream).functions).freeze := by
    have htake := Recording.series_take hcharted .finish m
    rw [← openRecordingOf, sampleTime?_finish hlast, Recording.take, ← after_callsOf,
      ← (Recording.charted_after stopNames (callsOf stream)).frozen m, hfrozen] at htake
    exact htake
  rw [hseries] at hchart hnumbered hsize
  have hmetric : ((openRecordingOf stopNames stream).series.series m).metric = m := hcharted.metric m
  have hnone : ∀ e ∈ Series.listed ((openRecordingOf stopNames stream).series.series m).metric
      (openRecordingOf stopNames stream).functions, e.1 ≠ totalLabel := by
    intro e he heq
    rw [hmetric] at he
    have hname := Recording.fst_mem_functionNames stopNames ((eventsOf stream).map .handle) he
    rw [events_map_handle, heq] at hname
    exact Event.totalLabel_not_mem_functionNames hnames hname
  obtain ⟨row, hrows, hlisted⟩ := Series.perm_listed (hnumbered.congr rfl rfl) hsize
    (Series.nodup_listed _ _ _ _) hnone
  rw [hmetric] at hlisted
  refine ⟨row, ?_, ?_⟩
  · rw [hchart]
    show (Series.sample _ _ _ _).rows.toList.getLast? = some row
    rw [hrows, Array.toList_push, List.getLast?_concat]
  · rw [hchart]
    exact hlisted

/-- **Charts and trees agree at the end of a run.**  In a run that yields a profile, whose allocation
    sites are all known, whose strings are not `total` and name fewer functions than there are
    numbers, and that has a tick left behind its last time mark, the last row of every chart has for
    each function that it lists the sum over the roots of this function, cut off at the largest word.
    The roots of any other function cost no more than a listed one, and nothing where the row has room
    for more functions. -/
theorem charts_agree_with_roots (h : (run stopNames boundary cancel stream).1 = .ok p)
    (hsites : Event.SitesKnown (eventsOf stream)) (hnames : .string totalLabel ∉ eventsOf stream)
    (hlast : (openRecordingOf stopNames stream).lastStamp < UInt64.largest)
    (hfew : (Event.functionNames (eventsOf stream)).toFinset.card < UInt32.size) (m : Metric) :
    let chart := p.charts.chart m
    ∃ row, chart.rows.getLast? = some row ∧
      (∀ e ∈ chart.listed row, ∃ f, e.1 = some f ∧ e.2 = (p.bottomUp.siteCost f).get m.field) ∧
      ∀ f, some f ∉ (chart.listed row).map Prod.fst →
        ((chart.listed row).length < maxChartEntries → (p.bottomUp.siteCost f).get m.field = 0) ∧
          ∀ e ∈ chart.listed row, (p.bottomUp.siteCost f).get m.field ≤ e.2 := by
  intro chart
  obtain ⟨row, hrow, hlisted⟩ := exists_last_row h hnames hlast hfew m
  have hincreasing : (openRecordingOf stopNames stream).functions.Pairwise
      fun a b => compare a.1 b.1 = .lt := increasing_costByFunction _ _ _
  obtain ⟨unlisted, hsplit, hroom, hbelow⟩ :=
    Series.exists_unlisted m (openRecordingOf stopNames stream).functions
  have hlength : (chart.listed row).length
      = (Series.listed m (openRecordingOf stopNames stream).functions).length := by
    rw [hlisted.length_eq, List.length_map]
    rfl
  refine ⟨row, hrow, ?_, ?_⟩
  · intro e he
    obtain ⟨e', he', rfl⟩ := List.mem_map.1 (hlisted.mem_iff.1 he)
    obtain ⟨cost, hcost, hvalue⟩ := Series.exists_of_mem_listed he'
    refine ⟨e'.1, rfl, ?_⟩
    rw [siteCost_of_run h hsites, FunctionCost.of?_of_mem hincreasing hcost]
    exact hvalue
  · intro f hf
    rw [siteCost_of_run h hsites]
    cases hcost : FunctionCost.of? (openRecordingOf stopNames stream).functions f with
    | none =>
        refine ⟨fun _ => FunctionCost.value_empty m, fun e _ => ?_⟩
        show m.value {} ≤ e.2
        rw [FunctionCost.value_empty]
        exact UInt64.zero_le
    | some cost =>
        -- the function has a group, and it is not among the listed ones
        have hmem := Series.mem_rankedValues m _ (FunctionCost.mem_of_of? hcost)
        rw [hsplit, List.mem_append] at hmem
        have hlater := hmem.resolve_left fun hin => hf (List.mem_map.2
          ⟨(some f, m.value cost), hlisted.mem_iff.2 (List.mem_map.2 ⟨_, hin, rfl⟩), rfl⟩)
        refine ⟨fun hshort => hroom (hlength ▸ hshort) _ hlater, ?_⟩
        intro e he
        obtain ⟨e', he', rfl⟩ := List.mem_map.1 (hlisted.mem_iff.1 he)
        exact hbelow _ hlater e' he'

/-- One function at two places, one that is known by its address alone and one whose name is not
    known; a sum that is cut off, and a function whose bytes are all freed. -/
def meetingStream : List (Except StreamFault Event) :=
  [.string "work", .string "work.c", .ip { address := 16, function := ⟨1⟩ },
    .ip { address := 32, function := ⟨1⟩, file := ⟨2⟩, line := 7 }, .ip { address := 48 },
    .ip { address := 64, function := ⟨9⟩ }, .trace { ip := ⟨1⟩ }, .trace { ip := ⟨2⟩ },
    .trace { ip := ⟨3⟩, parent := ⟨1⟩ }, .alloc ⟨4⟩ 1, .trace { ip := ⟨4⟩ }, .alloc ⟨1⟩ 10,
    .timestamp 4, .alloc ⟨2⟩ UInt64.largest, .alloc ⟨3⟩ 5, .free ⟨3⟩ 5].map .ok

theorem charts_agree_with_roots_sample :
    ∃ p, (run [] none none meetingStream).1 = .ok p ∧ Event.SitesKnown (eventsOf meetingStream) ∧
      .string totalLabel ∉ eventsOf meetingStream ∧
      (openRecordingOf [] meetingStream).lastStamp < UInt64.largest ∧
      (Event.functionNames (eventsOf meetingStream)).toFinset.card < UInt32.size ∧
      ∃ row, p.charts.consumed.rows.getLast? = some row ∧
        ∀ e ∈ p.charts.consumed.listed row, ∃ f, e.1 = some f ∧
          e.2 = (p.bottomUp.siteCost f).leaked := by
  obtain ⟨p, hp⟩ : ∃ p, (run [] none none meetingStream).1 = .ok p :=
    exists_profile_of_isSome (by decide +kernel)
  have hsites : Event.SitesKnown (eventsOf meetingStream) := by
    intro trace size hmem
    simp only [eventsOf, meetingStream, List.map_cons, List.map_nil, List.filterMap_cons,
      Except.toOption, List.filterMap_nil, List.mem_cons, reduceCtorEq, Event.alloc.injEq,
      List.not_mem_nil, false_or, or_false] at hmem
    rcases hmem with ⟨rfl, -⟩ | ⟨rfl, -⟩ | ⟨rfl, -⟩ | ⟨rfl, -⟩ <;> exact ⟨_, _, rfl, rfl⟩
  have hnames : .string totalLabel ∉ eventsOf meetingStream := by decide
  have hlast : (openRecordingOf [] meetingStream).lastStamp < UInt64.largest := by
    have hstamp : (openRecordingOf [] meetingStream).lastStamp = 4 := by cbv
    rw [hstamp]
    decide
  have hfew : (Event.functionNames (eventsOf meetingStream)).toFinset.card < UInt32.size :=
    Nat.lt_of_le_of_lt (Event.card_functionNames_le _) (by decide)
  obtain ⟨row, hrow, hvalues, -⟩ :=
    charts_agree_with_roots hp hsites hnames hlast hfew .consumed
  exact ⟨p, hp, hsites, hnames, hlast, hfew, row, hrow, hvalues⟩

end Run

end HeapProfile
