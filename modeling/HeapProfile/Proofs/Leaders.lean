import HeapProfile.Proofs.Grouping
import HeapProfile.Proofs.Naming

/-!
# Leaders — which functions the row of a boundary has

A boundary sorts its functions anew for every metric, takes the first few, stops at the first zero and
gives out numbers on the way.  What comes out can be said without any of this.  By a metric every name
has an amount, the sum over the records of that name.  The names with a positive amount have one order,
larger amounts first and equal amounts by name, and a row has beside the total the first ten of them.

* **`ranks_rankedValues`** — sorting the groups and leaving out those of the value zero yields exactly
  the names with a positive amount in this order (`Boundary.Ranks`), which determines the list;
* **`exists_leaders`** — the row that a boundary adds has the grand total and the first of them, each
  under the number of its label, and nothing else.
-/

namespace HeapProfile

/-- The name of the function that a record belongs to, by the tables alone: that of its allocation site,
    or the empty name as long as the site is not known. -/
def Record.siteName (tables : Tables) (record : Record) : String :=
  ((record.site? tables).map tables.ipName).getD ""

theorem Record.functionName_eq {tables : Tables} {resolver : Resolver}
    (h : resolver.strings = tables.strings.entries) :
    Record.functionName tables resolver = Record.siteName tables := by
  funext record
  rw [functionName, siteName, Resolver.functionName_of_strings h]

namespace SeriesSet

namespace Boundary

/-- What a boundary counts for a name: the sum over the records of that name, cut off at the largest
    word. -/
def amount (b : Boundary) (m : Metric) (name : String) : Nat :=
  min (Cost.amount m.field
    ((b.records.filter fun record => record.siteName b.tables = name).map Record.cost)) wordMax

/-- The names with a positive amount, each once and with this amount: larger amounts first and equal
    amounts by name. -/
structure Ranks (b : Boundary) (m : Metric) (functions : List (String × UInt64)) : Prop where
  mem_iff : ∀ name value,
    (name, value) ∈ functions ↔ 0 < value ∧ value.toNat = b.amount m name
  ordered : functions.Pairwise fun a b => b.2 < a.2 ∨ a.2 = b.2 ∧ a.1 < b.1

variable {b : Boundary}

/-- The value of a group is the amount of its name. -/
theorem toNat_value_of? (h : b.resolver.strings = b.tables.strings.entries) (m : Metric)
    (name : String) :
    (m.value ((FunctionCost.of? (costByFunction b.tables b.resolver b.records) name).getD {})).toNat
      = b.amount m name := by
  rw [toNat_value_costByFunction, recordsOf, Record.functionName_eq h, amount]

/-- A name has a positive amount if and only if its group has the value.  Names without records have no
    group, and their amount is zero. -/
theorem mem_rankedValues_iff (h : b.resolver.strings = b.tables.strings.entries) (m : Metric)
    {name : String} {value : UInt64} (hvalue : 0 < value) :
    (name, value) ∈ Series.rankedValues m (costByFunction b.tables b.resolver b.records)
      ↔ value.toNat = b.amount m name := by
  have hincreasing := increasing_costByFunction b.tables b.resolver b.records
  rw [← toNat_value_of? h]
  constructor
  · intro hmem
    obtain ⟨entry, hentry, heq⟩ := List.mem_map.1 hmem
    obtain ⟨rfl, rfl⟩ := Prod.mk.inj heq
    rw [FunctionCost.of?_of_mem hincreasing (List.mem_mergeSort.1 hentry)]
    rfl
  · intro hamount
    obtain rfl := UInt64.toNat.inj hamount
    cases hgroup : FunctionCost.of? (costByFunction b.tables b.resolver b.records) name with
    | none =>
        -- without a group the name would have no amount
        rw [hgroup, Option.getD_none, FunctionCost.value_empty] at hvalue
        exact absurd hvalue (UInt64.lt_irrefl 0)
    | some cost => exact Series.mem_rankedValues m _ (FunctionCost.mem_of_of? hgroup)

/-- **Sorted by ranks and without the zeros** the groups are the names with a positive amount in their
    order. -/
theorem ranks_rankedValues (h : b.resolver.strings = b.tables.strings.entries) (m : Metric) :
    b.Ranks m ((Series.rankedValues m (costByFunction b.tables b.resolver b.records)).filter
      fun e => e.2 != 0) where
  mem_iff name value := by
    rw [List.mem_filter, bne_iff_ne, ← UInt64.pos_iff_ne_zero, and_comm]
    exact and_congr_right fun hvalue => mem_rankedValues_iff h m hvalue
  ordered := by
    have hnames : (Series.rankedValues m (costByFunction b.tables b.resolver b.records)).Pairwise
        fun a b => a.1 ≠ b.1 := by
      rw [Series.rankedValues, List.pairwise_map, ← List.pairwise_map (f := Prod.fst)]
      exact ((List.mergeSort_perm _ _).map Prod.fst).nodup_iff.2
        (nodup_costByFunction b.tables b.resolver b.records)
    refine ((Series.pairwise_rankedValues m _).and hnames |>.sublist List.filter_sublist).imp ?_
    rintro a b ⟨hlt | ⟨hsame, hle⟩, hne⟩
    · exact Or.inl hlt
    · exact Or.inr ⟨hsame, lt_of_le_of_ne hle hne⟩

end Boundary

/-- **The row of a boundary has the leaders.**  Let a boundary come to a set of series that are not
    frozen, with a resolver that knows the strings of the tables; let no record belong to a function
    called like the total, and let there be numbers for all labels.  Then every series gets one row with
    the grand total.  Beside it this has the first of the functions with a positive amount, larger
    amounts first and equal amounts by name, each under the number of its label, and nothing else. -/
theorem exists_leaders (calls : List Call) (b : Boundary) (m : Metric)
    (hopen : (after calls).isFrozen = false)
    (hsync : b.resolver.strings = b.tables.strings.entries)
    (htotal : ∀ record ∈ b.records, record.siteName b.tables ≠ totalLabel)
    (hsize : ((after (calls ++ [.boundary b])).series m).labels.size ≤ UInt32.size) :
    let s' := (after (calls ++ [.boundary b])).series m
    ∃ row functions, s'.rows = ((after calls).series m).rows.push row ∧ row.timeStamp = b.stamp ∧
      row.values.get? totalLabelId = some (m.total b.totals) ∧ b.Ranks m functions ∧
      (row.others.map fun e => (some e.1, e.2)).Perm
        ((functions.take maxChartEntries).map fun e => (s'.labelId? e.1, e.2)) := by
  intro s'
  have hnumbered := numbered_after calls
  have hseries : s' = { b.sample ((after calls).series m) with frozen := b.isLast } := by
    show (after (calls ++ [.boundary b])).series m = _
    rw [after_concat, series_take_boundary hnumbered hopen]
  have hnone : ∀ e ∈ b.listed ((after calls).series m).metric, e.1 ≠ totalLabel := by
    intro e he heq
    obtain ⟨record, hrecord, hname⟩ := List.mem_map.1 (Boundary.fst_mem_names he)
    rw [Record.functionName_eq hsync, heq] at hname
    exact htotal record hrecord hname
  have hroom : (b.sample ((after calls).series m)).labels.size ≤ UInt32.size := by
    rw [show (after (calls ++ [.boundary b])).series m = _ from hseries] at hsize
    exact hsize
  obtain ⟨row, hrows, htime, hzero, hperm⟩ := Series.perm_others_sample
    (numbered_sample_after calls b m) hroom (b.nodup_listed _) hnone
  have hlisted : b.listed ((after calls).series m).metric = _ :=
    (congrArg b.listed (hnumbered.metric m)).trans (Series.listed_eq m _)
  rw [hnumbered.metric m] at hzero
  refine ⟨row, _, ?_, htime, hzero, Boundary.ranks_rankedValues hsync m, ?_⟩
  · rw [hseries]
    exact hrows
  · rw [hseries, ← hlisted]
    exact hperm

/-- Tables of twelve functions, each with one address and one node, a node whose address is not known and
    an address whose function is not named. -/
def crowdedTables : Tables where
  strings := ⟨#["a", "b", "c", "d", "e", "f", "g", "h", "i", "j", "k", "l"]⟩
  ips := ⟨⟨({ address := 96 } : Ip) :: (List.range 12).map fun i =>
    { address := 32, function := ⟨UInt32.ofNat (i + 1)⟩ }⟩⟩
  traces := ⟨⟨({ ip := ⟨99⟩ } : TraceNode) :: (List.range 13).map fun i =>
    { ip := ⟨UInt32.ofNat (i + 1)⟩ }⟩⟩

/-- A boundary at which more functions than a row has room for hold the same amount.  One function holds
    more in two records, two records belong to no known function, and one function holds nothing. -/
def crowdedBoundary : Boundary where
  stamp := 7
  records := { trace := ⟨14⟩, leaked := 4 } :: { trace := ⟨80⟩, leaked := 1 } ::
    { trace := ⟨13⟩, allocated := 3 } ::
    (List.range 14).map fun i => { trace := ⟨UInt32.ofNat (i + 1)⟩, leaked := if i = 12 then 0 else 5 }
  tables := crowdedTables
  resolver := ({} : Resolver).sync crowdedTables.strings.entries
  totals := { consumed := 75, allocated := 3 }

theorem exists_leaders_sample :
    let calls := [Call.boundary { crowdedBoundary with stamp := 3 }]
    (after calls).isFrozen = false ∧
      crowdedBoundary.resolver.strings = crowdedBoundary.tables.strings.entries ∧
      (∀ record ∈ crowdedBoundary.records, record.siteName crowdedBoundary.tables ≠ totalLabel) ∧
      ((after (calls ++ [.boundary crowdedBoundary])).series .consumed).labels.size ≤ UInt32.size ∧
      ∃ row functions, ((after (calls ++ [.boundary crowdedBoundary])).series .consumed).rows
          = ((after calls).series .consumed).rows.push row ∧ row.timeStamp = 7 ∧
        row.values.get? totalLabelId = some 75 ∧ crowdedBoundary.Ranks .consumed functions ∧
        (row.others.map fun e => (some e.1, e.2)).Perm ((functions.take maxChartEntries).map fun e =>
          (((after (calls ++ [.boundary crowdedBoundary])).series .consumed).labelId? e.1, e.2)) := by
  intro calls
  have hopen : (after calls).isFrozen = false :=
    congrArg Series.frozen (series_take_boundary (numbered_after []) rfl _ .consumed)
  have hsync : crowdedBoundary.resolver.strings = crowdedBoundary.tables.strings.entries := by decide
  have htotal : ∀ record ∈ crowdedBoundary.records,
      record.siteName crowdedBoundary.tables ≠ totalLabel := by decide
  have hsize : ((after (calls ++ [.boundary crowdedBoundary])).series .consumed).labels.size
      ≤ UInt32.size := by
    refine size_labels_le (Nat.lt_of_le_of_lt (List.toFinset_card_le _) ?_) _
    have hlength : ((calls ++ [Call.boundary crowdedBoundary]).flatMap Call.names).length = 34 := by rfl
    rw [hlength]
    decide
  exact ⟨hopen, hsync, htotal, hsize,
    exists_leaders calls crowdedBoundary .consumed hopen hsync htotal hsize⟩

end SeriesSet

end HeapProfile
