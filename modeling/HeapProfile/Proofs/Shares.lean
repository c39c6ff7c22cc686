import HeapProfile.Proofs.Grouping
import HeapProfile.Proofs.Naming
import HeapProfile.Proofs.Peaks

/-!
# Shares — the functions of a row and the grand total

A row has a grand total, which the recording counts over all call paths while events arrive, and the
values of some functions, which a sample adds up from the records.  Both count the same bytes and calls:
the ledger is balanced, so the totals are the sums over the records; grouping moves the records about;
and the ranking leaves out functions from the end.

Nothing may be cut off in between.  Bytes fit into a word if all allocated bytes do.  Calls are counted
apart from them, and an allocation may be of no bytes at all, so they are asked to fit on their own.

* **`sum_value_costByFunction`** — the values of all groups add up to what the records hold;
* **`sum_ranked`** — the functions that a sample lists have no more than that, and all of it as long as
  there is room for more of them;
* **`pairwise_total_sampled`** — the grand totals of allocated bytes and of calls never decrease;
* **`exists_rows_after`** — every row has the grand total of its sample and the functions listed then;
* **`rows_within_totals`** — so in every chart of a run the functions of a row are within its grand
  total.
-/

namespace HeapProfile

namespace Event

/-- How many of some events are allocations. -/
def allocationCount (events : List Event) : Nat := events.countP fun event => event.kind = .alloc

end Event

/-- The exact number that a metric counts over some events. -/
def Metric.counted (m : Metric) (events : List Event) : Nat :=
  match m with
  | .consumed | .allocated => Event.allocatedBytes events
  | .allocations => Event.allocationCount events

theorem Metric.counted_append (m : Metric) (events more : List Event) :
    m.counted (events ++ more) = m.counted events + m.counted more := by
  cases m with
  | allocations => exact List.countP_append
  | _ =>
      show (List.map _ (events ++ more)).sum = _
      rw [List.map_append, List.sum_append]
      rfl

/-! ## What the records hold -/

namespace Ledger

variable {l : Ledger}

/-- An allocation adds no more to what the records hold than it counts, and a free adds nothing.  A
    record that is cut off adds even less. -/
theorem held_enter_le (l : Ledger) (m : Metric) (event : Event) :
    (l.enter event).held m.field ≤ l.held m.field + m.counted [event] := by
  cases event with
  | alloc trace size =>
      obtain ⟨r, hr⟩ := held_alloc l trace size
      obtain ⟨-, hsum⟩ := hr m.field
      have hrecord : ((r.alloc size).cost.get m.field).toNat
          ≤ (r.cost.get m.field).toNat + m.counted [.alloc trace size] := by
        cases m with
        | allocations =>
            exact (toNat_satAdd_eq_clamp r.allocations 1).trans_le (Nat.min_le_left _ _)
        | allocated => exact (toNat_satAdd_eq_clamp r.allocated size).trans_le (Nat.min_le_left _ _)
        | consumed => exact (toNat_satAdd_eq_clamp r.leaked size).trans_le (Nat.min_le_left _ _)
      show (l.alloc trace size).held m.field ≤ _
      omega
  | free trace size =>
      obtain ⟨released, -, hleaked, hkept⟩ := held_free l trace size
      have hgiven : (l.free trace size).held m.field ≤ l.held m.field := by
        cases m with
        | consumed => exact (Nat.le_add_right _ _).trans_eq hleaked
        | allocations => exact (hkept .allocations (by decide)).le
        | allocated => exact (hkept .allocated (by decide)).le
      exact Nat.le_add_right_of_le hgiven
  | _ => exact Nat.le_add_right _ _

theorem held_enterAll_le (events : List Event) (l : Ledger) (m : Metric) :
    (events.foldl enter l).held m.field ≤ l.held m.field + m.counted events := by
  induction events generalizing l with
  | nil => exact Nat.le_add_right _ _
  | cons event rest ih =>
      have hfirst := held_enter_le l m event
      have hrest := ih (l.enter event)
      rw [List.foldl_cons, ← List.singleton_append, Metric.counted_append]
      omega

/-- The totals of allocated bytes and of calls never decrease. -/
theorem totals_le_enter (l : Ledger) (event : Event) :
    l.totals.totalAllocated ≤ (l.enter event).totals.totalAllocated ∧
      l.totals.totalAllocations ≤ (l.enter event).totals.totalAllocations := by
  have hgrows : ∀ a b : UInt64, a ≤ a.satAdd b := by
    intro a b
    have hword := toNat_le_wordMax a
    rw [UInt64.le_iff_toNat_le, toNat_satAdd_eq_clamp]
    omega
  cases event with
  | alloc trace size => exact ⟨hgrows _ _, hgrows _ _⟩
  | free trace size =>
      obtain ⟨released, htotals, -⟩ := held_free l trace size
      rw [enter, htotals]
      exact ⟨UInt64.le_refl _, UInt64.le_refl _⟩
  | _ => exact ⟨UInt64.le_refl _, UInt64.le_refl _⟩

end Ledger

/-! ## What the groups have -/

/-- A record more adds its cost to the values of the groups, as long as nothing is cut off.  The
    induction is on the groups, one of which gets the record. -/
theorem FunctionCost.sum_value_addTo (m : Metric) (function : String) (record : Record)
    (functions : List (String × FunctionCost))
    (hfits : (functions.map fun e => (m.value e.2).toNat).sum + (record.cost.get m.field).toNat
      ≤ wordMax) :
    ((addTo function record functions).map fun e => (m.value e.2).toNat).sum
      = (functions.map fun e => (m.value e.2).toNat).sum + (record.cost.get m.field).toNat := by
  have hadd : ∀ cost : FunctionCost, (m.value (cost.addRecord record)).toNat
      = min ((m.value cost).toNat + (record.cost.get m.field).toNat) wordMax := by
    intro cost
    rw [value_addRecord, toNat_satAdd_eq_clamp]
  have hnew : (m.value (({} : FunctionCost).addRecord record)).toNat
      = (record.cost.get m.field).toNat := by
    rw [hadd, value_empty, UInt64.toNat_zero, Nat.zero_add]
    exact Nat.min_eq_left (toNat_le_wordMax _)
  induction functions with
  | nil => rw [addTo, List.map_singleton, List.sum_singleton, hnew, List.map_nil, List.sum_nil,
      Nat.zero_add]
  | cons entry rest ih =>
      rw [List.map_cons, List.sum_cons] at hfits ⊢
      rw [addTo]
      cases compare function entry.1 with
      | lt =>
          simp only [List.map_cons, List.sum_cons, hnew]
          omega
      | eq =>
          simp only [List.map_cons, List.sum_cons, hadd]
          omega
      | gt =>
          simp only [List.map_cons, List.sum_cons, ih (by omega)]
          omega

/-- **The values of all groups** add up to what their records hold, as long as that fits into a
    word. -/
theorem sum_value_costByFunction (tables : Tables) (resolver : Resolver) (m : Metric)
    (records : List Record) (hfits : Cost.amount m.field (records.map Record.cost) ≤ wordMax) :
    ((costByFunction tables resolver records).map fun e => (m.value e.2).toNat).sum
      = Cost.amount m.field (records.map Record.cost) := by
  induction records using List.reverseRecOn with
  | nil => rfl
  | append_singleton records record ih =>
      rw [List.map_append, Cost.amount_append, List.map_singleton, Cost.amount_cons, Cost.amount_nil,
        Nat.add_zero] at hfits ⊢
      have hbefore := ih (by omega)
      rw [costByFunction_concat, FunctionCost.sum_value_addTo m _ record _ (by rw [hbefore]; exact hfits), hbefore]

/-- The functions that a sample lists have no more than all groups, and all of it as long as there is
    room in the list. -/
theorem Series.sum_listed (m : Metric) (functions : List (String × FunctionCost)) :
    ((listed m functions).map fun e => e.2.toNat).sum
        ≤ (functions.map fun e => (m.value e.2).toNat).sum ∧
      ((listed m functions).length < maxChartEntries →
        ((listed m functions).map fun e => e.2.toNat).sum
          = (functions.map fun e => (m.value e.2).toNat).sum) := by
  obtain ⟨unlisted, hsplit, hroom, -⟩ := exists_unlisted m functions
  have hall : (functions.map fun e => (m.value e.2).toNat).sum
      = ((listed m functions).map fun e => e.2.toNat).sum + (unlisted.map fun e => e.2.toNat).sum := by
    rw [← List.sum_append, ← List.map_append, ← hsplit, rankedValues, List.map_map]
    exact ((List.mergeSort_perm functions m.ranksBefore).map _).sum_eq.symm
  rw [hall]
  refine ⟨Nat.le_add_right _ _, fun hshort => ?_⟩
  have hzero : (unlisted.map fun e => e.2.toNat).sum = 0 := by
    refine List.sum_eq_zero fun n hn => ?_
    obtain ⟨e, he, rfl⟩ := List.mem_map.1 hn
    rw [hroom hshort e he]
    rfl
  rw [hzero, Nat.add_zero]

/-! ## What a sample reports -/

/-- The values of a row beside the total, added up exactly. -/
def ChartRow.shared (row : ChartRow) : Nat := (row.others.map fun e => e.2.toNat).sum

namespace Recording

/-- The functions of a sample have no more than the records hold, and all of it as long as there is
    room for more functions. -/
theorem sum_ranked {r : Recording} {m : Metric} (hfits : r.ledger.held m.field ≤ wordMax) :
    ((r.ranked m).map fun e => e.2.toNat).sum ≤ r.ledger.held m.field ∧
      ((r.ranked m).length < maxChartEntries →
        ((r.ranked m).map fun e => e.2.toNat).sum = r.ledger.held m.field) := by
  have hgroups : (r.functions.map fun e => (m.value e.2).toNat).sum = r.ledger.held m.field :=
    sum_value_costByFunction _ _ m _ hfits
  rw [← hgroups]
  exact Series.sum_listed m r.functions

/-- **The grand total** of a balanced ledger is what the records hold; that of the outstanding bytes
    may be larger, since they were more at some time before. -/
theorem held_le_total {r : Recording} {bytes : Nat} (h : r.ledger.Balanced bytes)
    (hbytes : bytes ≤ wordMax) (m : Metric) (hfits : r.ledger.held m.field ≤ wordMax) :
    r.ledger.held m.field ≤ (m.total r.chartTotals).toNat ∧
      (m ≠ .consumed → r.ledger.held m.field = (m.total r.chartTotals).toNat) := by
  cases m with
  | consumed =>
      refine ⟨?_, fun hne => absurd rfl hne⟩
      show r.ledger.held .leaked ≤ (max r.intervalPeak r.ledger.totals.leaked).toNat
      rw [← (h.leaked hbytes).1, toNat_max]
      exact Nat.le_max_right _ _
  | allocated =>
      have htotal := h.allocated.trans (Nat.min_eq_left hfits)
      exact ⟨htotal.symm.le, fun _ => htotal.symm⟩
  | allocations =>
      have htotal := h.allocations.trans (Nat.min_eq_left hfits)
      exact ⟨htotal.symm.le, fun _ => htotal.symm⟩

/-- No call makes the grand totals of allocated bytes and of calls smaller. -/
theorem total_le_take (r : Recording) (call : Call) {m : Metric} (hm : m ≠ .consumed) :
    m.total r.chartTotals ≤ m.total (r.take call).chartTotals := by
  have hledger := ledger_take r call
  have hgrows : r.ledger.totals.totalAllocated ≤ (r.take call).ledger.totals.totalAllocated ∧
      r.ledger.totals.totalAllocations ≤ (r.take call).ledger.totals.totalAllocations := by
    rw [hledger]
    cases call with
    | handle event => exact Ledger.totals_le_enter r.ledger event
    | finish => exact ⟨UInt64.le_refl _, UInt64.le_refl _⟩
  cases m with
  | consumed => exact absurd rfl hm
  | allocated => exact hgrows.1
  | allocations => exact hgrows.2

/-- **The grand totals never decrease** from sample to sample, nor behind the last one.  The bytes
    outstanding are left out: these fall with every free. -/
theorem pairwise_total_sampled (stopNames : List String) (calls : List Call) {m : Metric}
    (hm : m ≠ .consumed) :
    ((start stopNames).sampled calls).Pairwise (fun a b =>
        m.total a.2.chartTotals ≤ m.total b.2.chartTotals) ∧
      ∀ sample ∈ (start stopNames).sampled calls,
        m.total sample.2.chartTotals ≤ m.total (after stopNames calls).chartTotals := by
  induction calls using List.reverseRecOn with
  | nil => exact ⟨List.Pairwise.nil, fun _ h => nomatch h⟩
  | append_singleton calls call ih =>
      obtain ⟨hordered, hbefore⟩ := ih
      have hgrows := total_le_take (after stopNames calls) call hm
      have hnew : ∀ sample ∈ ((after stopNames calls).sampleTime? call).toList.map
          fun time => (time, after stopNames calls), sample.2 = after stopNames calls := by
        intro sample hsample
        obtain ⟨time, -, rfl⟩ := List.mem_map.1 hsample
        rfl
      rw [sampled_concat, after_concat]
      refine ⟨List.pairwise_append.2 ⟨hordered, ?_, fun a ha b hb => ?_⟩, fun sample hsample => ?_⟩
      · -- a call takes one sample at most
        cases (calls.foldl take (start stopNames)).sampleTime? call with
        | none => exact List.Pairwise.nil
        | some time => exact List.pairwise_singleton _ _
      · rw [hnew b hb]
        exact hbefore a ha
      · rcases List.mem_append.1 hsample with hold | hsample
        · exact UInt64.le_trans (hbefore sample hold) hgrows
        · rw [hnew sample hsample]
          exact hgrows

/-! ## What the rows have -/

/-- What a row has of its sample: the grand total, and beside it the values of the functions listed
    then. -/
structure Shows (m : Metric) (row : ChartRow) (sample : UInt64 × Recording) : Prop where
  total : row.values.get? totalLabelId = some (m.total sample.2.chartTotals)
  others : (row.others.map Prod.snd).Perm ((sample.2.ranked m).map Prod.snd)

/-- The row of a sample shows it. -/
theorem shows_sample (stopNames : List String) (calls : List Call)
    (hnames : .string totalLabel ∉ events calls) (m : Metric) (time : UInt64)
    (hsize : (((after stopNames calls).series.series m).sample time
      (m.total (after stopNames calls).chartTotals) (after stopNames calls).functions).labels.size
        ≤ UInt32.size) :
    ∃ row, (((after stopNames calls).series.series m).sample time
        (m.total (after stopNames calls).chartTotals) (after stopNames calls).functions).rows
          = ((after stopNames calls).series.series m).rows.push row ∧
      Shows m row (time, after stopNames calls) := by
  have hmetric := (charted_after stopNames calls).metric m
  have hlisted : ∀ e ∈ Series.listed ((after stopNames calls).series.series m).metric
      (after stopNames calls).functions, e.1 ∈ Event.functionNames (events calls) := by
    rw [hmetric]
    exact fun e he => fst_mem_functionNames stopNames calls he
  have hnodup := (after stopNames calls).nodup_listed ((after stopNames calls).series.series m).metric
  have hnumbered := (numbered_after stopNames calls m).sample hnodup hlisted time
    (m.total (after stopNames calls).chartTotals)
  obtain ⟨row, hrows, -, htotal, hperm⟩ := Series.perm_others_sample hnumbered hsize hnodup
    fun e he heq => Event.totalLabel_not_mem_functionNames hnames (heq ▸ hlisted e he)
  have hvalues := hperm.map Prod.snd
  rw [List.map_map, List.map_map, hmetric] at hvalues
  exact ⟨row, hrows, htotal, hvalues⟩

/-- **The rows behind the origin show the samples**, as long as no string is `total` and there are
    numbers for all labels. -/
theorem exists_rows_after (stopNames : List String) (calls : List Call)
    (hnames : .string totalLabel ∉ events calls) (m : Metric)
    (hsize : ((after stopNames calls).series.series m).labels.size ≤ UInt32.size) :
    ∃ rows, ((after stopNames calls).series.series m).rows.toList = {} :: rows ∧
      List.Forall₂ (Shows m) rows ((start stopNames).sampled calls) := by
  have hearlier : ∀ calls call, .string totalLabel ∉ events (calls ++ [call]) →
      .string totalLabel ∉ events calls := by
    intro calls call hnames hmem
    rw [events_concat] at hnames
    exact hnames (List.mem_append_left _ hmem)
  refine forall₂_rows (P := fun calls => .string totalLabel ∉ events calls ∧
    ((after stopNames calls).series.series m).labels.size ≤ UInt32.size) ?_ ?_ ⟨hnames, hsize⟩
  · rintro calls call ⟨hnames, hsize⟩
    have hfewer := (labels_take (charted_after stopNames calls) call m).length_le
    rw [after_concat] at hsize
    exact ⟨hearlier calls call hnames, hfewer.trans hsize⟩
  · rintro calls call time ⟨hnames, hsize⟩ htime
    rw [series_concat htime] at hsize ⊢
    exact shows_sample stopNames calls (hearlier calls call hnames) m time hsize

/-- **The functions of a row are within its grand total**, as long as what its metric counts fits into a
    word. -/
theorem shared_le_total {stopNames : List String} {calls : List Call} {m : Metric}
    (hbytes : Event.allocatedBytes (events calls) ≤ wordMax) (hcounted : m.counted (events calls) ≤ wordMax)
    {row : ChartRow} {sample : UInt64 × Recording} (hsample : sample ∈ (start stopNames).sampled calls)
    (hshows : Shows m row sample) :
    row.shared ≤ (m.total sample.2.chartTotals).toNat ∧ (m ≠ .consumed →
      row.others.length < maxChartEntries → row.shared = (m.total sample.2.chartTotals).toNat) := by
  obtain ⟨before, ⟨rest, rfl⟩, hstate⟩ := exists_prefix_of_mem_sampled hsample
  -- what fits at the end fits at any time before
  have hearlier : ∀ m : Metric, m.counted (events (before ++ rest)) ≤ wordMax →
      m.counted (events before) ≤ wordMax := by
    intro m hfits
    rw [events, List.filterMap_append, Metric.counted_append] at hfits
    exact (Nat.le_add_right _ _).trans hfits
  have hheld : sample.2.ledger.held m.field ≤ wordMax := by
    rw [hstate, ledger_after]
    refine (Ledger.held_enterAll_le (events before) {} m).trans ?_
    exact (Nat.zero_add _).trans_le (hearlier m hcounted)
  have hbalanced : sample.2.ledger.Balanced (Event.allocatedBytes (events before)) :=
    hstate ▸ (accounted_after stopNames before).toBalanced
  obtain ⟨hle, heq⟩ := held_le_total hbalanced (hearlier .allocated hbytes) m hheld
  obtain ⟨hsum, hfull⟩ := sum_ranked hheld
  have hshared : row.shared = ((sample.2.ranked m).map fun e => e.2.toNat).sum := by
    have hperm := (hshows.others.map UInt64.toNat).sum_eq
    rwa [List.map_map, List.map_map] at hperm
  have hlength : row.others.length = (sample.2.ranked m).length := by
    simpa using hshows.others.length_eq
  rw [hshared, hlength]
  exact ⟨hsum.trans hle, fun hm hroom => (hfull hroom).trans (heq hm)⟩

end Recording

namespace Run

variable {stopNames : List String} {boundary : Option (StringIndex → Bool)} {cancel : Cancellation}
  {stream : List (Except StreamFault Event)} {p : Profile}

/-- A chart of a run has a label for every label of its series. -/
theorem length_labels (h : (run stopNames boundary cancel stream).1 = .ok p) (m : Metric) :
    (p.charts.chart m).labels.length
      = ((Recording.after stopNames (callsOf stream)).series.series m).labels.size := by
  obtain ⟨hfrozen, hchart⟩ := chart_of_run h m
  rw [hchart, Series.chart, hfrozen]
  rfl

/-- **The functions of a row are within its grand total.**  In a run that yields a profile, whose
    allocated bytes fit into a word together and whose strings are not `total`, every row behind the
    origin has a grand total, and the values beside it add up to no more.  In the charts of allocated
    bytes and of calls they add up to just that as long as there is room for more functions, and the
    grand totals never decrease.  There have to be numbers for all labels of the chart, and for calls a
    word has to be large enough to count them, since an allocation may be of no bytes at all. -/
theorem rows_within_totals (h : (run stopNames boundary cancel stream).1 = .ok p)
    (hbytes : Event.allocatedBytes (eventsOf stream) ≤ wordMax)
    (hnames : .string totalLabel ∉ eventsOf stream) (m : Metric)
    (hcalls : m = .allocations → Event.allocationCount (eventsOf stream) ≤ wordMax)
    (hsize : (p.charts.chart m).labels.length ≤ UInt32.size) :
    ∃ (rows : List ChartRow) (totals : List UInt64), (p.charts.chart m).rows = {} :: rows ∧
      rows.map (fun row => row.values.get? totalLabelId) = totals.map some ∧
      List.Forall₂ (fun row total => row.shared ≤ total.toNat ∧ (m ≠ .consumed →
        row.others.length < maxChartEntries → row.shared = total.toNat)) rows totals ∧
      (m ≠ .consumed → totals.Pairwise (· ≤ ·)) := by
  have hcounted : m.counted (eventsOf stream) ≤ wordMax := by
    cases m with
    | allocations => exact hcalls rfl
    | _ => exact hbytes
  rw [length_labels h] at hsize
  rw [← events_callsOf] at hbytes hnames hcounted
  obtain ⟨rows, hrows, hshows⟩ := Recording.exists_rows_after stopNames (callsOf stream) hnames m hsize
  refine ⟨rows, ((Recording.start stopNames).sampled (callsOf stream)).map
    fun sample => m.total sample.2.chartTotals, ?_, ?_, ?_, ?_⟩
  · rw [(chart_of_run h m).2]
    exact hrows
  · rw [List.map_map, ← List.forall₂_eq_eq_eq, List.forall₂_map_left_iff, List.forall₂_map_right_iff]
    exact hshows.imp fun _ _ hshow => hshow.total
  · rw [List.forall₂_map_right_iff]
    have hmembers : List.Forall₂ (fun sample row =>
        sample ∈ (Recording.start stopNames).sampled (callsOf stream) ∧ Recording.Shows m row sample)
        ((Recording.start stopNames).sampled (callsOf stream)) rows :=
      (List.forall₂_and_left _ _).2 ⟨fun _ hsample => hsample, hshows.flip⟩
    refine List.Forall₂.flip (hmembers.imp ?_)
    rintro sample row ⟨hsample, hshow⟩
    exact Recording.shared_le_total hbytes hcounted hsample hshow
  · intro hm
    rw [List.pairwise_map]
    exact (Recording.pairwise_total_sampled stopNames (callsOf stream) hm).1

/-- More functions than a row has room for, an allocation of no bytes, one on a call path that is not
    known, a free of more than is held and one on no path, and two time marks. -/
def manySites : List (Except StreamFault Event) :=
  (["a", "b", "c", "d", "e", "f", "g", "h", "i", "j", "k", "l"].map Event.string ++
    (List.range 12).flatMap (fun i =>
      [Event.ip { address := 16, function := ⟨UInt32.ofNat (i + 1)⟩ },
        Event.trace { ip := ⟨UInt32.ofNat (i + 1)⟩ }]) ++
    [Event.alloc ⟨1⟩ 30, Event.alloc ⟨77⟩ 4, Event.alloc ⟨2⟩ 0, Event.timestamp 4,
      Event.free ⟨1⟩ 40, Event.free ⟨9⟩ 1] ++
    (List.range 12).map (fun i => Event.alloc ⟨UInt32.ofNat (i + 1)⟩ 5) ++
    [Event.timestamp 8]).map .ok

theorem rows_within_totals_sample :
    ∃ p, (run [] none none manySites).1 = .ok p ∧
      Event.allocatedBytes (eventsOf manySites) ≤ wordMax ∧ .string totalLabel ∉ eventsOf manySites ∧
      Event.allocationCount (eventsOf manySites) ≤ wordMax ∧
      ∀ m, (p.charts.chart m).labels.length ≤ UInt32.size ∧
        ∃ (rows : List ChartRow) (totals : List UInt64), (p.charts.chart m).rows = {} :: rows ∧
          rows.map (fun row => row.values.get? totalLabelId) = totals.map some ∧
          List.Forall₂ (fun row total => row.shared ≤ total.toNat ∧ (m ≠ .consumed →
            row.others.length < maxChartEntries → row.shared = total.toNat)) rows totals ∧
          (m ≠ .consumed → totals.Pairwise (· ≤ ·)) := by
  obtain ⟨p, hp⟩ : ∃ p, (run [] none none manySites).1 = .ok p :=
    exists_profile_of_isSome (by decide +kernel)
  have hbytes : Event.allocatedBytes (eventsOf manySites) ≤ wordMax := by decide
  have hnames : .string totalLabel ∉ eventsOf manySites := by decide
  have hcalls : Event.allocationCount (eventsOf manySites) ≤ wordMax := by decide
  have hfew : (Event.functionNames (eventsOf manySites)).toFinset.card < UInt32.size :=
    Nat.lt_of_le_of_lt (Event.card_functionNames_le _) (by decide)
  refine ⟨p, hp, hbytes, hnames, hcalls, fun m => ?_⟩
  have hsize : (p.charts.chart m).labels.length ≤ UInt32.size := by
    rw [length_labels hp]
    rw [← events_callsOf] at hfew
    exact (Recording.numbered_after [] (callsOf manySites) m).size_le.trans hfew
  exact ⟨hsize, rows_within_totals hp hbytes hnames m (fun _ => hcalls) hsize⟩

end Run

end HeapProfile
