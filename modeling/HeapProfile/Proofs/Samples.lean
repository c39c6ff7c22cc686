import HeapProfile.Proofs.Calls
import HeapProfile.Proofs.Numbering

/-!
# Samples — what every row of a chart reports as the grand total

A recording takes a sample at every time mark later than all before it, and one when it is closed.
`sampled` lists the samples of any sequence of calls beside the states they were taken in, and the
rows of every chart behind the origin are those samples, one for one: what a single sample has of its
state all rows have of theirs (`forall₂_rows`), above all the grand total (`rows_report_totals`).

Under number zero a row has the grand total of its state, unless the sample lists a function that is
called `total`: the label of the total is a name like any other to the table of labels, so such a
function is entered under number zero as well, and behind the total.  `total_row_overwritten` is a
recording in which this happens.  As long as labels can be told apart by their numbers, no other
name does it.
-/

namespace HeapProfile

namespace Recording

/-- The grand totals that a sample reports. -/
def chartTotals (r : Recording) : ChartTotals where
  consumed := max r.intervalPeak r.ledger.totals.leaked
  allocated := r.ledger.totals.totalAllocated
  allocations := r.ledger.totals.totalAllocations

/-- The functions that a sample is about. -/
def functions (r : Recording) : List (String × FunctionCost) :=
  costByFunction r.tables (r.resolver.sync r.tables.strings.entries) r.ledger.records.toList

/-- The functions that a sample lists, in the order of their ranks. -/
def ranked (r : Recording) (m : Metric) : List (String × UInt64) := Series.listed m r.functions

/-- The time of the sample that a call takes, if it takes one. -/
def sampleTime? (r : Recording) : Call → Option UInt64
  | .handle (.timestamp stamp) => if r.finished ∨ stamp ≤ r.lastStamp then none else some stamp
  | .handle _ => none
  | .finish =>
    if r.finished ∨ r.lastStamp = UInt64.largest then none else some (r.lastStamp + 1)

/-- The times of the samples that some calls take, and the states that they are taken in. -/
def sampled (r : Recording) : List Call → List (UInt64 × Recording)
  | [] => []
  | call :: rest =>
    ((r.sampleTime? call).toList.map fun time => (time, r)) ++ (r.take call).sampled rest

theorem sampled_append (r : Recording) (calls more : List Call) :
    r.sampled (calls ++ more) = r.sampled calls ++ (calls.foldl take r).sampled more := by
  induction calls generalizing r with
  | nil => rfl
  | cons call rest ih =>
      rw [List.cons_append, sampled, sampled, ih, List.append_assoc]
      rfl

theorem sampled_concat (r : Recording) (calls : List Call) (call : Call) :
    r.sampled (calls ++ [call]) = r.sampled calls ++
      ((calls.foldl take r).sampleTime? call).toList.map fun time => (time, calls.foldl take r) := by
  rw [sampled_append, sampled, sampled, List.append_nil]

/-- The charts of a recording: each series measures its metric, all are frozen once the recording is
    closed, and number zero is the label of the total. -/
structure Charted (r : Recording) : Prop where
  metric : ∀ m, (r.series.series m).metric = m
  frozen : ∀ m, (r.series.series m).frozen = r.finished
  total : ∀ m, (r.series.series m).labels[0]? = some totalLabel

theorem charted_start (stopNames : List String) : Charted (start stopNames) where
  metric m := by cases m <;> rfl
  frozen m := by cases m <;> rfl
  total m := by cases m <;> rfl

/-- A sample is taken in all series alike. -/
theorem series_boundary {r : Recording} (h : Charted r) (hopen : r.finished = false) (stamp : UInt64)
    (isLast : Bool) (m : Metric) :
    (r.boundary stamp isLast).series.series m
      = { (r.series.series m).sample stamp (m.total r.chartTotals) r.functions with
          frozen := isLast } := by
  exact SeriesSet.series_boundary h.metric (fun m => (h.frozen m).trans hopen) stamp isLast _ _ _ _ m

/-- A closed recording takes no sample. -/
theorem series_boundary_closed {r : Recording} (h : Charted r) (hclosed : r.finished = true)
    (stamp : UInt64) (isLast : Bool) : (r.boundary stamp isLast).series = r.series := by
  have hfrozen : r.series.isFrozen = true := (h.frozen .consumed).trans hclosed
  show (SeriesSet.boundary _ _ _ _ _ _ _).1 = _
  rw [SeriesSet.boundary, hfrozen]
  rfl

/-- **What a call does to a series**: it takes the sample of the call, if there is one, and freezes
    the series if it closes the recording. -/
theorem series_take {r : Recording} (h : Charted r) (call : Call) (m : Metric) :
    (r.take call).series.series m
      = { (r.sampleTime? call).elim (r.series.series m) fun time =>
            (r.series.series m).sample time (m.total r.chartTotals) r.functions with
          frozen := (r.take call).finished } := by
  have hkept : { r.series.series m with frozen := r.finished } = r.series.series m := by
    rw [← h.frozen m]
  cases call with
  | handle event =>
      cases event with
      | timestamp stamp =>
          rw [take, handle, sampleTime?]
          by_cases hlate : stamp ≤ r.lastStamp
          · rw [if_pos hlate, if_pos (Or.inr hlate)]
            exact hkept.symm
          · rw [if_neg hlate]
            cases hfinished : r.finished with
            | false =>
                rw [if_neg (by simp [hlate]), series_boundary h hfinished]
                exact congrArg _ hfinished.symm
            | true =>
                rw [if_pos (Or.inl rfl), series_boundary_closed h hfinished]
                exact hkept.symm
      | _ => exact hkept.symm
  | finish =>
      rw [take, finish, sampleTime?]
      cases hfinished : r.finished with
      | true =>
          rw [if_pos rfl, if_pos (Or.inl rfl)]
          exact hkept.symm
      | false =>
          rw [if_neg Bool.false_ne_true]
          by_cases hlast : r.lastStamp = UInt64.largest
          · rw [if_pos hlast, if_pos (Or.inr hlast)]
            cases m <;> rfl
          · rw [if_neg hlast, if_neg (by simp [hlast])]
            exact series_boundary h hfinished _ true m

theorem charted_take {r : Recording} (h : Charted r) (call : Call) : Charted (r.take call) where
  metric m := by
    rw [series_take h]
    cases r.sampleTime? call with
    | none => exact h.metric m
    | some time => exact h.metric m
  frozen m := by rw [series_take h]
  total m := by
    rw [series_take h]
    cases r.sampleTime? call with
    | none => exact h.total m
    | some time => exact Series.getElem?_zero_foldl_enter _ (h.total m)

theorem charted_after (stopNames : List String) (calls : List Call) :
    Charted (after stopNames calls) := by
  induction calls using List.reverseRecOn with
  | nil => exact charted_start stopNames
  | append_singleton calls call ih =>
      rw [after_concat]
      exact charted_take ih call

/-- A recording lists no function twice. -/
theorem nodup_listed (r : Recording) (m : Metric) :
    ((Series.listed m r.functions).map Prod.fst).Nodup := Series.nodup_listed _ _ _ _

/-- A call adds labels behind those there are. -/
theorem labels_take {r : Recording} (h : Charted r) (call : Call) (m : Metric) :
    (r.series.series m).labels.toList <+: ((r.take call).series.series m).labels.toList := by
  rw [series_take h]
  cases r.sampleTime? call with
  | none => exact List.prefix_refl _
  | some time =>
      show _ <+: ((r.series.series m).sample time _ r.functions).labels.toList
      rw [Series.toList_labels_sample (r.nodup_listed _)]
      exact List.prefix_append _ _

variable {stopNames : List String} {calls : List Call} {m : Metric}

/-- Behind a call that takes a sample a series has this sample. -/
theorem series_concat {call : Call} {time : UInt64}
    (htime : (after stopNames calls).sampleTime? call = some time) :
    (after stopNames (calls ++ [call])).series.series m
      = { ((after stopNames calls).series.series m).sample time
            (m.total (after stopNames calls).chartTotals) (after stopNames calls).functions with
          frozen := (after stopNames (calls ++ [call])).finished } := by
  rw [after_concat, series_take (charted_after stopNames calls), htime]
  rfl

/-! ## Rows and samples -/

/-- **The rows behind the origin stand for the samples**, one for one: what holds of the row that a
    sample adds, by something that held all the time if it holds in the end, holds of all rows. -/
theorem forall₂_rows {P : List Call → Prop} {R : ChartRow → UInt64 × Recording → Prop}
    (hearlier : ∀ calls call, P (calls ++ [call]) → P calls)
    (hsample : ∀ calls call time, P (calls ++ [call]) →
      (after stopNames calls).sampleTime? call = some time →
      ∃ row, ((after stopNames (calls ++ [call])).series.series m).rows
          = ((after stopNames calls).series.series m).rows.push row ∧
        R row (time, after stopNames calls)) (h : P calls) :
    ∃ rows, ((after stopNames calls).series.series m).rows.toList = {} :: rows ∧
      List.Forall₂ R rows ((start stopNames).sampled calls) := by
  induction calls using List.reverseRecOn with
  | nil => exact ⟨[], by cases m <;> rfl, List.Forall₂.nil⟩
  | append_singleton calls call ih =>
      obtain ⟨rows, hrows, hshow⟩ := ih (hearlier calls call h)
      rw [sampled_concat]
      show ∃ rows, _ ∧ List.Forall₂ _ rows (_ ++
        (((after stopNames calls).sampleTime? call).toList.map
          fun time => (time, after stopNames calls)))
      cases htime : (after stopNames calls).sampleTime? call with
      | none =>
          refine ⟨rows, ?_, by simpa using hshow⟩
          rw [after_concat, series_take (charted_after stopNames calls), htime]
          exact hrows
      | some time =>
          obtain ⟨row, hpush, hrow⟩ := hsample calls call time h htime
          refine ⟨rows ++ [row], ?_, List.rel_append hshow (List.Forall₂.cons hrow List.Forall₂.nil)⟩
          rw [hpush, Array.toList_push, hrows]
          rfl

/-- The value that a sample ends up with under the number of the total: that of the last function
    listed that has this number among the labels, and the grand total where there is none. -/
def reported (labels : Array String) (m : Metric) (r : Recording) : UInt64 :=
  (Series.lastUnder labels totalLabelId (r.ranked m)).getD (m.total r.chartTotals)

/-- What a row of a chart has of the sample that it was made of: its time, and its value under the
    number of the total. -/
structure Reports (labels : Array String) (m : Metric) (row : ChartRow)
    (sample : UInt64 × Recording) : Prop where
  time : row.timeStamp = sample.1
  value : row.values.get? totalLabelId = some (reported labels m sample.2)

/-- The row that a sample adds reports it, by the labels of the series from then on.  Labels that are
    added later take no number away, hence the more general statement. -/
theorem reports_sample {r : Recording} (h : Charted r) (time : UInt64) (m : Metric)
    {labels : Array String}
    (hkeeps : Series.Keeps
      ((r.series.series m).sample time (m.total r.chartTotals) r.functions).labels labels) :
    ∃ row, ((r.series.series m).sample time (m.total r.chartTotals) r.functions).rows
        = (r.series.series m).rows.push row ∧ Reports labels m row (time, r) := by
  refine ⟨_, rfl, rfl, ?_⟩
  refine (Series.get?_foldl_enter _ _ hkeeps totalLabelId).trans ?_
  rw [LabelValues.get?_insert, if_pos rfl, h.metric m, reported, ranked]
  cases Series.lastUnder labels totalLabelId (Series.listed m r.functions) <;> rfl

/-- **The rows behind the origin are the samples**, by any labels that keep those of the series.  By
    induction on the calls: a call that takes a sample adds the row of that sample. -/
theorem rows_after (stopNames : List String) (calls : List Call) (m : Metric) {labels : Array String}
    (hkeeps : Series.Keeps ((after stopNames calls).series.series m).labels labels) :
    ∃ rows, ((after stopNames calls).series.series m).rows.toList = {} :: rows
      ∧ List.Forall₂ (Reports labels m) rows ((start stopNames).sampled calls) := by
  refine forall₂_rows (P := fun calls => Series.Keeps ((after stopNames calls).series.series m).labels
    labels) (fun calls call hkeeps => ?_) (fun calls call time hkeeps htime => ?_) hkeeps
  · -- the earlier rows were made by fewer labels, whose numbers are kept
    rw [after_concat] at hkeeps
    exact (Series.keeps_of_prefix (labels_take (charted_after stopNames calls) call m)).trans hkeeps
  · rw [series_concat htime] at hkeeps ⊢
    exact reports_sample (charted_after stopNames calls) time m hkeeps

/-- **What the rows of a chart report as the grand total.**  Behind the origin a chart has one row
    for every sample.  Under number zero the row has the grand total of the state it was taken in,
    unless a function has this number as well; and such a function is called `total`, as long as
    there are no more labels than numbers. -/
theorem rows_report_totals (stopNames : List String) (calls : List Call) (m : Metric) :
    let s := (after stopNames calls).series.series m
    ∃ rows, s.rows.toList = {} :: rows
      ∧ List.Forall₂ (Reports s.labels m) rows ((start stopNames).sampled calls)
      ∧ (s.labels.size ≤ UInt32.size → ∀ sample ∈ (start stopNames).sampled calls,
          (reported s.labels m sample.2 = m.total sample.2.chartTotals
            ↔ ∀ value, (totalLabel, value) ∈ sample.2.ranked m
                → value = m.total sample.2.chartTotals)) := by
  intro s
  obtain ⟨rows, hrows, hreports⟩ := rows_after stopNames calls m (Series.Keeps.refl s.labels)
  refine ⟨rows, hrows, hreports, fun hsize sample _ => ?_⟩
  exact Series.getD_lastUnder_eq_iff ((charted_after stopNames calls).total m) hsize
    (Series.nodup_listed m _ _ _) _

/-- A trace of two call sites, the first of them in a function called `total`. -/
def namesakeCalls : List Call :=
  [.handle (.string "total"), .handle (.string "other"),
    .handle (.ip { address := 16, function := ⟨1⟩ }),
    .handle (.ip { address := 32, function := ⟨2⟩ }),
    .handle (.trace { ip := ⟨1⟩ }), .handle (.trace { ip := ⟨2⟩ }),
    .handle (.alloc ⟨1⟩ 10), .handle (.alloc ⟨2⟩ 5), .finish]

theorem rows_report_totals_sample :
    let s := (after [] namesakeCalls).series.series .allocated
    s.labels.size ≤ UInt32.size
      ∧ ∃ rows, s.rows.toList = {} :: rows
        ∧ List.Forall₂ (Reports s.labels .allocated) rows ((start []).sampled namesakeCalls)
        ∧ ∀ sample ∈ (start []).sampled namesakeCalls,
          (reported s.labels .allocated sample.2 = sample.2.chartTotals.allocated
            ↔ ∀ value, (totalLabel, value) ∈ sample.2.ranked .allocated
                → value = sample.2.chartTotals.allocated) := by
  intro s
  have hsize : s.labels.size ≤ UInt32.size := by
    have htwo : s.labels.size = 2 := by cbv
    rw [htwo]
    decide
  obtain ⟨rows, hrows, hreports, htotals⟩ := rows_report_totals [] namesakeCalls .allocated
  exact ⟨hsize, rows, hrows, hreports, htotals hsize⟩

/-- **A function called `total` takes the place of the grand total** in all three charts. -/
theorem total_row_overwritten :
    ((start []).sampled namesakeCalls).map (fun sample => (sample.1, sample.2.chartTotals))
        = [(1, { consumed := 15, allocated := 15, allocations := 2 })]
      ∧ Metric.all.map (fun m => ((after [] namesakeCalls).series.series m).rows.toList.map
          fun row => (row.timeStamp, row.values.get? totalLabelId))
        = [[(0, none), (1, some 10)], [(0, none), (1, some 10)], [(0, none), (1, some 1)]] := by
  constructor <;> cbv

end Recording

end HeapProfile
