import Std.Data.HashMap.Lemmas
import HeapProfile.Proofs.Numbering
import HeapProfile.Proofs.Ranking

/-!
# Label maps — numbers found by name, and labels listed when they are frozen

While a series grows it needs the number of a name, and only behind the freezing the name of a number.  So
its labels may as well be kept in a map from names to numbers: a name that is not in the map gets the size of
the map, and freezing turns the map round, putting every name at the place of its number into a list of as
many empty places.  `Registry` does that, with the rows filled in one loop that stops at the first zero, and
the ranks sorted again from the order of the metric before.  `Series` has the list of labels from the start.

The map has the numbers of the list at any time, whatever their number; turning it round needs them to be
different and to fit into the list, which they do as long as there are no more labels than numbers.

* **`Lists.enter`** — entering a function into the map and into the list gives it the same number;
* **`Mirrors.pushRow`** — so the rows are the same;
* **`exists_placed`** — different numbers that have places are put there, whatever their order;
* **`Mirrors.freeze?`** — so freezing finds a place for every name, and lists the labels of the series;
* **`exists_after?`** — all this together, for three series and any sequence of boundaries and freezings.
-/

namespace HeapProfile

/-- A series that keeps its labels in a map from names to numbers, until it is frozen. -/
structure Registry where
  metric : Metric
  /-- The samples so far, the first one an empty sample at the origin. -/
  rows : Array ChartRow := #[{}]
  /-- The label texts in order of their numbers; there are none before the freezing. -/
  labels : Array String := #[]
  /-- The number of every name. -/
  numbers : Std.HashMap String UInt32 := ({} : Std.HashMap String UInt32).insert totalLabel totalLabelId
  frozen : Bool := false

namespace Registry

/-- Enters one function into a row, under the number of its name; a new name gets the size of the map. -/
def enter (state : Std.HashMap String UInt32 × LabelValues) (function : String) (value : UInt64) :
    Std.HashMap String UInt32 × LabelValues :=
  let next := UInt32.ofNat state.1.size
  let numbers := state.1.insertIfNew function next
  (numbers, state.2.insert (numbers.getD function next) value)

/-- Enters ranked functions one by one, up to the first that has nothing to report. -/
def enterRanked (metric : Metric) : List (String × FunctionCost) →
    Std.HashMap String UInt32 × LabelValues → Std.HashMap String UInt32 × LabelValues
  | [], state => state
  | entry :: rest, state =>
    if metric.value entry.2 = 0 then state
    else enterRanked metric rest (enter state entry.1 (metric.value entry.2))

/-- The registry with the row of one boundary more. -/
def pushRow (r : Registry) (stamp total : UInt64) (ranked : List (String × FunctionCost)) : Registry :=
  let (numbers, values) := enterRanked r.metric (ranked.take maxChartEntries)
    (r.numbers, LabelValues.empty.insert totalLabelId total)
  { r with numbers, rows := r.rows.push { timeStamp := stamp, values } }

/-- Puts a name at the place of its number, if there is such a place. -/
def place? (labels : Array String) (entry : String × UInt32) : Option (Array String) :=
  if h : entry.2.toNat < labels.size then some (labels.set entry.2.toNat entry.1 h) else none

/-- The registry with its labels listed, if all of them find a place. -/
def freeze? (r : Registry) : Option Registry := do
  let labels ← r.numbers.toList.foldlM place? (Array.replicate r.numbers.size "")
  return { r with labels, frozen := true }

/-- The registry behind a boundary that may be the last one. -/
def close? (r : Registry) (isLast : Bool) : Option Registry := if isLast then r.freeze? else some r

/-- The finished chart, if the registry is frozen. -/
def chart? (r : Registry) : Option Chart :=
  if r.frozen then some { rows := r.rows.toList, labels := r.labels.toList } else none

/-! ## Entering functions -/

/-- A map has the numbers of a list of labels. -/
structure Lists (numbers : Std.HashMap String UInt32) (labels : Array String) : Prop where
  number : ∀ name, numbers[name]? = Series.numberIn labels name
  size : numbers.size = labels.size

namespace Lists

variable {numbers : Std.HashMap String UInt32} {labels : Array String}

/-- A name is in the map if and only if it is a label. -/
theorem mem_iff (h : Lists numbers labels) {name : String} : name ∈ numbers ↔ name ∈ labels := by
  rw [Std.HashMap.mem_iff_isSome_getElem?, h.number, ← not_iff_not, Option.not_isSome_iff_eq_none,
    Series.numberIn_eq_none_iff]

/-- **The size of the map is the next position in the list**, so a name that is entered into both gets the
    same number, or keeps the one it has. -/
theorem enter (h : Lists numbers labels) (function : String) (value : UInt64) (values : LabelValues) :
    Lists (Registry.enter (numbers, values) function value).1
        (Series.enter (labels, values) (function, value)).1 ∧
      (Registry.enter (numbers, values) function value).2
        = (Series.enter (labels, values) (function, value)).2 := by
  show Lists (numbers.insertIfNew function (UInt32.ofNat numbers.size)) (Series.assign labels function).2 ∧
    values.insert ((numbers.insertIfNew function (UInt32.ofNat numbers.size)).getD function _) value
      = values.insert (Series.assign labels function).1 value
  have hassigned := Series.numberIn_assign labels function
  by_cases hmem : function ∈ labels
  · have hin : function ∈ numbers := h.mem_iff.2 hmem
    have hsame (name : String) :
        (numbers.insertIfNew function (UInt32.ofNat numbers.size))[name]? = numbers[name]? := by
      rw [Std.HashMap.getElem?_insertIfNew, if_neg fun hnew => hnew.2 hin]
    rw [Series.assign_of_mem hmem] at hassigned ⊢
    refine ⟨⟨fun name => (hsame name).trans (h.number name), ?_⟩, ?_⟩
    · rw [Std.HashMap.size_insertIfNew, if_pos hin, h.size]
    · rw [Std.HashMap.getD_eq_getD_getElem?, hsame, h.number, hassigned]
      rfl
  · have hout : function ∉ numbers := mt h.mem_iff.1 hmem
    rw [Series.assign_of_not_mem hmem] at hassigned ⊢
    have hkeeps : Series.Keeps labels (labels.push function) :=
      Series.keeps_of_prefix ⟨[function], Array.toList_push.symm⟩
    refine ⟨⟨fun name => ?_, ?_⟩, ?_⟩
    · rw [Std.HashMap.getElem?_insertIfNew, h.size]
      by_cases hname : function = name
      · rw [if_pos ⟨beq_iff_eq.2 hname, hout⟩, ← hname, hassigned]
      · rw [if_neg fun hnew => hname (beq_iff_eq.1 hnew.1), h.number]
        cases hnumber : Series.numberIn labels name with
        | some id => exact (hkeeps name id hnumber).symm
        | none =>
            refine (Series.numberIn_eq_none_iff.2 fun hpush => ?_).symm
            rcases Array.mem_push.1 hpush with hold | hnew
            · exact Series.numberIn_eq_none_iff.1 hnumber hold
            · exact hname hnew.symm
    · rw [Std.HashMap.size_insertIfNew, if_neg hout, h.size, Array.size_push]
    · rw [Std.HashMap.getD_insertIfNew, if_pos ⟨beq_self_eq_true _, hout⟩, h.size]

/-- Entering functions up to the first zero is entering those in front of it. -/
theorem enterRanked (h : Lists numbers labels) (metric : Metric) (ranked : List (String × FunctionCost))
    (values : LabelValues) :
    Lists (Registry.enterRanked metric ranked (numbers, values)).1
        (((ranked.map fun e => (e.1, metric.value e.2)).takeWhile fun e => e.2 != 0).foldl Series.enter
          (labels, values)).1 ∧
      (Registry.enterRanked metric ranked (numbers, values)).2
        = (((ranked.map fun e => (e.1, metric.value e.2)).takeWhile fun e => e.2 != 0).foldl Series.enter
          (labels, values)).2 := by
  induction ranked generalizing numbers labels values with
  | nil => exact ⟨h, rfl⟩
  | cons entry rest ih =>
      rw [Registry.enterRanked, List.map_cons, List.takeWhile_cons]
      by_cases hzero : metric.value entry.2 = 0
      · rw [if_pos hzero, if_neg (by simp [hzero])]
        exact ⟨h, rfl⟩
      · rw [if_neg hzero, if_pos (by simpa using hzero), List.foldl_cons]
        obtain ⟨hlists, hvalues⟩ := h.enter entry.1 (metric.value entry.2) values
        have hentered : Registry.enter (numbers, values) entry.1 (metric.value entry.2)
            = (_, (Series.enter (labels, values) (entry.1, metric.value entry.2)).2) :=
          Prod.ext rfl hvalues
        rw [hentered]
        exact ih hlists _

end Lists

/-! ## Putting names at their places -/

/-- **Different numbers that have places are put there**, in whatever order they come, and nothing else is
    written. -/
theorem exists_placed {entries : List (String × UInt32)} {labels : Array String}
    (hdifferent : entries.Pairwise fun a b => a.2 ≠ b.2)
    (hplaces : ∀ e ∈ entries, e.2.toNat < labels.size) :
    ∃ placed, entries.foldlM place? labels = some placed ∧ placed.size = labels.size ∧
      (∀ e ∈ entries, placed[e.2.toNat]? = some e.1) ∧
      ∀ i, (∀ e ∈ entries, e.2.toNat ≠ i) → placed[i]? = labels[i]? := by
  induction entries generalizing labels with
  | nil => exact ⟨labels, rfl, rfl, fun _ he => absurd he List.not_mem_nil, fun _ _ => rfl⟩
  | cons entry rest ih =>
      obtain ⟨hhead, hrest⟩ := List.pairwise_cons.1 hdifferent
      have hplace := hplaces entry List.mem_cons_self
      have hroom : ∀ e ∈ rest, e.2.toNat < (labels.set entry.2.toNat entry.1 hplace).size := by
        intro e he
        rw [Array.size_set]
        exact hplaces e (List.mem_cons_of_mem _ he)
      obtain ⟨placed, hfold, hsize, hput, hleft⟩ := ih hrest hroom
      refine ⟨placed, ?_, hsize.trans (Array.size_set hplace), ?_, ?_⟩
      · rw [List.foldlM_cons, place?, dif_pos hplace]
        exact hfold
      · intro e he
        rcases List.mem_cons.1 he with rfl | he
        · -- none of the others has this number, so it is still there
          rw [hleft _ fun other hother heq => hhead other hother (UInt32.toNat.inj heq).symm,
            Array.getElem?_set_self]
        · exact hput e he
      · intro i hi
        rw [hleft i fun e he => hi e (List.mem_cons_of_mem _ he),
          Array.getElem?_set_ne _ (hi entry List.mem_cons_self)]

/-- **Turning the map round gives the list**, as long as there are no more labels than numbers.
    A map comes in no order, so the proof is by the numbers that were placed and not by the
    order of placing. -/
theorem Lists.exists_placed {numbers : Std.HashMap String UInt32} {labels : Array String}
    (h : Lists numbers labels) (hnodup : labels.toList.Nodup) (hsize : labels.size ≤ UInt32.size) :
    numbers.toList.foldlM place? (Array.replicate numbers.size "") = some labels := by
  have hnumber {e : String × UInt32} (he : e ∈ numbers.toList) : labels[e.2.toNat]? = some e.1 := by
    have hget := Std.HashMap.mem_toList_iff_getElem?_eq_some.1 he
    rw [h.number] at hget
    exact (Series.numberIn_eq_some_iff hnodup hsize).1 hget
  have hdifferent : numbers.toList.Pairwise fun a b => a.2 ≠ b.2 := by
    refine Std.HashMap.distinct_keys_toList.imp_of_mem fun {a b} ha hb hkeys hsame => ?_
    have hname : some a.1 = some b.1 := by rw [← hnumber ha, ← hnumber hb, hsame]
    rw [Option.some.inj hname, beq_self_eq_true] at hkeys
    exact Bool.noConfusion hkeys
  have hroom : ∀ e ∈ numbers.toList, e.2.toNat < (Array.replicate numbers.size "").size := by
    intro e he
    rw [Array.size_replicate, h.size]
    exact (Array.getElem?_eq_some_iff.1 (hnumber he)).1
  obtain ⟨placed, hfold, hplaced, hput, -⟩ := Registry.exists_placed hdifferent hroom
  rw [Array.size_replicate, h.size] at hplaced
  rw [hfold, Option.some.injEq]
  refine Array.ext hplaced fun i hi hi' => ?_
  -- every place has its name, since every position of the list is the number of its label
  have hid : (UInt32.ofNat i).toNat = i := UInt32.toNat_ofNat_of_lt' (Nat.lt_of_lt_of_le hi' hsize)
  have hentry : (labels[i], UInt32.ofNat i) ∈ numbers.toList := by
    rw [Std.HashMap.mem_toList_iff_getElem?_eq_some, h.number, Series.numberIn_eq_some_iff hnodup hsize, hid]
    exact Array.getElem?_eq_getElem hi'
  have hthere := hput _ hentry
  rw [hid, Array.getElem?_eq_getElem hi, Option.some.injEq] at hthere
  exact hthere

/-! ## One series -/

/-- A registry stands for a series: it has the same rows, the numbers of its labels, and the labels
    themselves once they are frozen. -/
structure Mirrors (r : Registry) (s : Series) : Prop where
  metric : r.metric = s.metric
  rows : r.rows = s.rows
  lists : Lists r.numbers s.labels
  labels : r.labels = if s.frozen then s.labels else #[]
  frozen : r.frozen = s.frozen

namespace Mirrors

variable {r : Registry} {s : Series}

/-- A new registry stands for a new series. -/
theorem start (m : Metric) : Mirrors { metric := m } { metric := m } where
  metric := rfl
  rows := rfl
  lists := {
    number name := by
      rw [Std.HashMap.getElem?_insert]
      by_cases hname : totalLabel = name
      · rw [if_pos (beq_iff_eq.2 hname), ← hname, Series.numberIn_total rfl]
      · rw [if_neg (mt beq_iff_eq.1 hname), Std.HashMap.getElem?_empty]
        refine (Series.numberIn_eq_none_iff.2 fun hmem => ?_).symm
        exact hname (List.mem_singleton.1 (Array.mem_toList_iff.2 hmem)).symm
    size := by
      rw [Std.HashMap.size_insert, if_neg Std.HashMap.not_mem_empty]
      rfl }
  labels := rfl
  frozen := rfl

/-- **A boundary adds the same row to both**, if the functions are ranked by the metric of the series.
    The program ranks them before and hands them over in that order. -/
theorem pushRow (h : Mirrors r s) (hopen : s.frozen = false) (stamp total : UInt64)
    (functions : List (String × FunctionCost)) :
    Mirrors (r.pushRow stamp total (functions.mergeSort s.metric.ranksBefore))
      (s.sample stamp total functions) := by
  obtain ⟨hlists, hvalues⟩ := h.lists.enterRanked s.metric
    ((functions.mergeSort s.metric.ranksBefore).take maxChartEntries)
    (LabelValues.empty.insert totalLabelId total)
  rw [Registry.pushRow, h.metric]
  constructor
  case metric => rfl
  case rows =>
    show r.rows.push _ = s.rows.push _
    rw [h.rows, hvalues]
    rfl
  case lists => exact hlists
  case labels =>
    have hnone := h.labels
    rw [hopen] at hnone
    show r.labels = if s.frozen then _ else _
    rw [hopen, hnone]
    rfl
  case frozen => exact h.frozen

/-- **Freezing lists the labels of the series**, and every label finds its place: numbers are smaller
    than their count, and no two labels have the same one. -/
theorem freeze? (h : Mirrors r s) (hnodup : s.labels.toList.Nodup) (hsize : s.labels.size ≤ UInt32.size) :
    ∃ r', r.freeze? = some r' ∧ Mirrors r' s.freeze := by
  refine ⟨{ r with labels := s.labels, frozen := true }, ?_, h.metric, h.rows, h.lists, rfl, rfl⟩
  rw [Registry.freeze?, h.lists.exists_placed hnodup hsize]
  rfl

/-- A boundary closes both if it is the last one. -/
theorem close? (h : Mirrors r s) (hopen : s.frozen = false) (hnodup : s.labels.toList.Nodup)
    (hsize : s.labels.size ≤ UInt32.size) (isLast : Bool) :
    ∃ r', r.close? isLast = some r' ∧ Mirrors r' { s with frozen := isLast } := by
  cases isLast with
  | true => exact h.freeze? hnodup hsize
  | false =>
      refine ⟨r, rfl, ?_⟩
      rw [← hopen]
      exact h

/-- Both have the same chart, or none. -/
theorem chart? (h : Mirrors r s) : r.chart? = s.chart? := by
  rw [Registry.chart?, Series.chart?, h.frozen]
  cases hfrozen : s.frozen with
  | false => rfl
  | true =>
      have hlabels := h.labels
      rw [hfrozen, if_pos rfl] at hlabels
      rw [if_pos rfl, if_pos rfl, Series.chart, h.rows, hlabels, if_pos hfrozen]

end Mirrors

end Registry

/-! ## Three series -/

/-- The three registries of a run. -/
structure RegistrySet where
  consumed : Registry := { metric := .consumed }
  allocated : Registry := { metric := .allocated }
  allocations : Registry := { metric := .allocations }

namespace RegistrySet

open SeriesSet (Boundary Call)

/-- The registry of a metric. -/
def registry (c : RegistrySet) : Metric → Registry
  | .consumed => c.consumed
  | .allocated => c.allocated
  | .allocations => c.allocations

/-- Does something to each registry, as long as it can be done. -/
def assemble? (f : Metric → Option Registry) : Option RegistrySet := do
  let consumed ← f .consumed
  let allocated ← f .allocated
  let allocations ← f .allocations
  return { consumed, allocated, allocations }

/-- The functions of a boundary ranked for one metric after the other, each time from the order that they had
    before. -/
def ranked (b : Boundary) (m : Metric) : List (String × FunctionCost) :=
  let byName := costByFunction b.tables b.resolver b.records
  let byConsumed := byName.mergeSort Metric.consumed.ranksBefore
  let byAllocated := byConsumed.mergeSort Metric.allocated.ranksBefore
  match m with
  | .consumed => byConsumed
  | .allocated => byAllocated
  | .allocations => byAllocated.mergeSort Metric.allocations.ranksBefore

/-- Adds the row of a boundary to all three registries, unless they are frozen; the last one freezes them. -/
def boundary? (c : RegistrySet) (b : Boundary) : Option RegistrySet :=
  if c.consumed.frozen then some c
  else assemble? fun m =>
    ((c.registry m).pushRow b.stamp (m.total b.totals) (ranked b m)).close? b.isLast

/-- Lists the labels of every registry that is not frozen, without a row. -/
def freeze? (c : RegistrySet) : Option RegistrySet :=
  assemble? fun m => (c.registry m).close? (!(c.registry m).frozen)

/-- The set after one call more. -/
def take? (c : RegistrySet) : Call → Option RegistrySet
  | .boundary b => c.boundary? b
  | .freeze => c.freeze?

/-- A fresh set after some calls. -/
def after? (calls : List Call) : Option RegistrySet := calls.foldlM take? {}

/-- The three finished charts, if the registries are frozen. -/
def charts? (c : RegistrySet) : Option ChartSet := do
  let consumed ← c.consumed.chart?
  let allocations ← c.allocations.chart?
  let allocated ← c.allocated.chart?
  return { consumed, allocations, allocated }

/-- Three registries stand for three series. -/
def Mirrors (c : RegistrySet) (d : SeriesSet) : Prop := ∀ m, (c.registry m).Mirrors (d.series m)

variable {c : RegistrySet} {d : SeriesSet} {names : List String}

/-- **Ranking from the order of another metric** is ranking by the metric alone.  The program sorts one
    array three times; names break all ties, so nothing of the earlier orders is left. -/
theorem ranked_eq (b : Boundary) (m : Metric) :
    ranked b m = (costByFunction b.tables b.resolver b.records).mergeSort m.ranksBefore := by
  have hagain (m : Metric) {functions : List (String × FunctionCost)}
      (hperm : functions.Perm (costByFunction b.tables b.resolver b.records)) :
      functions.mergeSort m.ranksBefore
        = (costByFunction b.tables b.resolver b.records).mergeSort m.ranksBefore :=
    mergeSort_rankOrder_of_perm (fun e : String × FunctionCost => m.value e.2) Prod.fst hperm
      ((hperm.map Prod.fst).nodup_iff.2 (nodup_costByFunction _ _ _))
  cases m with
  | consumed => rfl
  | allocated => exact hagain .allocated (List.mergeSort_perm _ _)
  | allocations =>
      exact hagain .allocations ((List.mergeSort_perm _ _).trans (List.mergeSort_perm _ _))

/-- What is done to each registry is done to all three. -/
theorem exists_assembled {f : Metric → Option Registry}
    (h : ∀ m, ∃ r, f m = some r ∧ r.Mirrors (d.series m)) :
    ∃ c, assemble? f = some c ∧ c.Mirrors d := by
  obtain ⟨consumed, hconsumed, hmirrors⟩ := h .consumed
  obtain ⟨allocated, hallocated, hmirrors'⟩ := h .allocated
  obtain ⟨allocations, hallocations, hmirrors''⟩ := h .allocations
  refine ⟨{ consumed, allocated, allocations }, ?_, fun m => ?_⟩
  · rw [assemble?, hconsumed, hallocated, hallocations]
    rfl
  · cases m with
    | consumed => exact hmirrors
    | allocated => exact hmirrors'
    | allocations => exact hmirrors''

/-- **A boundary leaves three registries that stand for the series behind it.**  All three rank and add
    their rows; the last boundary freezes them besides. -/
theorem Mirrors.boundary? (h : c.Mirrors d) (hd : d.Numbered names) (b : Boundary)
    (hafter : (d.take (.boundary b)).Numbered (names ++ b.names))
    (hsize : ∀ m, ((d.take (.boundary b)).series m).labels.size ≤ UInt32.size) :
    ∃ c', c.boundary? b = some c' ∧ c'.Mirrors (d.take (.boundary b)) := by
  have hfrozen : c.consumed.frozen = d.isFrozen := (h .consumed).frozen
  rw [RegistrySet.boundary?, hfrozen]
  cases hopen : d.isFrozen with
  | true =>
      have hall : ∀ m, (d.series m).frozen = true := fun m => (hd.frozen m).trans hopen
      rw [SeriesSet.take_of_frozen hall, if_pos rfl]
      exact ⟨c, rfl, h⟩
  | false =>
      have hall : ∀ m, (d.series m).frozen = false := fun m => (hd.frozen m).trans hopen
      rw [if_neg Bool.false_ne_true]
      refine exists_assembled fun m => ?_
      have hpush := (h m).pushRow (hall m) b.stamp (m.total b.totals)
        (costByFunction b.tables b.resolver b.records)
      rw [hd.metric m, ← ranked_eq] at hpush
      -- freezing leaves the labels of the sample as they are
      have hnodup := (hafter.labels m).nodup
      have hfits := hsize m
      rw [SeriesSet.series_take_boundary hd hopen b, Boundary.sample, hd.metric m] at hnodup hfits ⊢
      exact hpush.close? (hall m) hnodup hfits b.isLast

/-- **Freezing leaves three registries that stand for the frozen series.** -/
theorem Mirrors.freeze? (h : c.Mirrors d) (hd : d.Numbered names)
    (hsize : ∀ m, (d.series m).labels.size ≤ UInt32.size) :
    ∃ c', c.freeze? = some c' ∧ c'.Mirrors (d.take .freeze) := by
  refine exists_assembled fun m => ?_
  rw [(h m).frozen, SeriesSet.series_take_freeze]
  cases hfrozen : (d.series m).frozen with
  | false => exact (h m).freeze? (hd.labels m).nodup (hsize m)
  | true =>
      refine ⟨c.registry m, rfl, ?_⟩
      rw [← hfrozen]
      exact h m

/-- Both sets have the same charts, or none. -/
theorem Mirrors.charts? (h : c.Mirrors d) : c.charts? = d.charts? := by
  have hconsumed : c.consumed.chart? = _ := (h .consumed).chart?
  have hallocations : c.allocations.chart? = _ := (h .allocations).chart?
  have hallocated : c.allocated.chart? = _ := (h .allocated).chart?
  rw [RegistrySet.charts?, hconsumed, hallocations, hallocated]
  rfl

/-- **Labels kept by name and turned round when they are frozen are the labels of the series**, after any
    boundaries and freezings that speak of fewer names than there are numbers: freezing never finds a number
    without a place, the numbers and rows are the same at any time, and so are the charts. -/
theorem exists_after? (calls : List Call)
    (hnames : (calls.flatMap Call.names).toFinset.card < UInt32.size) :
    ∃ c, after? calls = some c ∧ c.Mirrors (SeriesSet.after calls) ∧
      c.charts? = (SeriesSet.after calls).charts? := by
  have hmirrors : ∃ c, after? calls = some c ∧ c.Mirrors (SeriesSet.after calls) := by
    induction calls using List.reverseRecOn with
    | nil => exact ⟨{}, rfl, fun m => by cases m <;> exact Registry.Mirrors.start _⟩
    | append_singleton calls call ih =>
        have hfewer : (calls.flatMap Call.names).toFinset.card < UInt32.size := by
          refine Nat.lt_of_le_of_lt (Finset.card_le_card fun name hname => ?_) hnames
          rw [List.flatMap_append, List.toFinset_append]
          exact Finset.mem_union_left _ hname
        obtain ⟨c, hc, hmirrors⟩ := ih hfewer
        have hnumbered := SeriesSet.numbered_after calls
        have hafter := SeriesSet.numbered_after (calls ++ [call])
        have hsize := SeriesSet.size_labels_le hnames
        rw [SeriesSet.after_concat] at hafter hsize ⊢
        rw [List.flatMap_append, List.flatMap_singleton] at hafter
        rw [after?, List.foldlM_append, ← after?, hc]
        show ∃ c', (c.take? call >>= pure) = some c' ∧ _
        rw [bind_pure]
        cases call with
        | boundary b => exact hmirrors.boundary? hnumbered b hafter hsize
        | freeze => exact hmirrors.freeze? hnumbered (SeriesSet.size_labels_le hfewer)
  obtain ⟨c, hc, hmirrors⟩ := hmirrors
  exact ⟨c, hc, hmirrors, hmirrors.charts?⟩

end RegistrySet

end HeapProfile
