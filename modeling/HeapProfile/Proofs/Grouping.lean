import HeapProfile.Proofs.Accounting
import HeapProfile.Proofs.Numbering
import HeapProfile.Proofs.Ranking

/-!
# Grouping — what a sample counts for a function, and which functions it lists

A boundary groups its records by the name of the function that allocated, adds each record to its
group, ranks the groups and lists the first of them, as far as their value is not zero.

* **`toNat_value_costByFunction`** — a function has the sum over the records of its name, cut off at
  the largest word, in whatever order the records come;
* **`listed_eq`** — a sample lists the first functions by rank, those of the value zero left out;
* **`exists_unlisted`** — behind the functions that are listed come others of no larger value, and of
  the value zero as long as there is room in the list;
* **`perm_others_sample`** — a row has the total and the functions that its sample listed, under their
  numbers, and
* **`perm_listed`** — the chart says their names.
-/

namespace HeapProfile

/-- The field of a cost that a metric measures. -/
def Metric.field : Metric → CostField
  | .consumed => .leaked
  | .allocated => .allocated
  | .allocations => .allocations

/-! ## Groups -/

theorem ne_of_compare_lt {a b : String} (h : compare a b = .lt) : a ≠ b := by
  rintro rfl
  rw [Std.ReflOrd.compare_self] at h
  exact Ordering.noConfusion h

namespace FunctionCost

/-- What some functions cost together with their names, for one of the names. -/
def of? (functions : List (String × FunctionCost)) (name : String) : Option FunctionCost :=
  (functions.find? fun entry => entry.1 == name).map (·.2)

variable {functions : List (String × FunctionCost)} {name : String}

theorem of?_cons (entry : String × FunctionCost) (rest : List (String × FunctionCost))
    (name : String) :
    of? (entry :: rest) name = if entry.1 = name then some entry.2 else of? rest name := by
  rw [of?, List.find?_cons]
  by_cases h : entry.1 = name
  · rw [if_pos h, beq_iff_eq.2 h]
    rfl
  · rw [if_neg h, beq_false_of_ne h]
    rfl

theorem of?_eq_none (h : ∀ e ∈ functions, e.1 ≠ name) : of? functions name = none := by
  rw [of?, Option.map_eq_none_iff, List.find?_eq_none]
  exact fun e he hname => h e he (beq_iff_eq.1 hname)

theorem mem_of_of? {cost : FunctionCost} (h : of? functions name = some cost) :
    (name, cost) ∈ functions := by
  rw [of?, Option.map_eq_some_iff] at h
  obtain ⟨e, hfind, rfl⟩ := h
  have hname := List.find?_some hfind
  rw [beq_iff_eq] at hname
  rw [← hname]
  exact List.mem_of_find?_eq_some hfind

/-- Names in increasing order stand once. -/
theorem of?_of_mem (h : functions.Pairwise fun a b => compare a.1 b.1 = .lt)
    {e : String × FunctionCost} (he : e ∈ functions) : of? functions e.1 = some e.2 := by
  induction functions with
  | nil => exact nomatch he
  | cons entry rest ih =>
      obtain ⟨hhead, hrest⟩ := List.pairwise_cons.1 h
      rw [of?_cons]
      rcases List.mem_cons.1 he with rfl | he
      · exact if_pos rfl
      · rw [if_neg (ne_of_compare_lt (hhead e he))]
        exact ih hrest he

/-- A record more changes what its own function has, and nothing else.  The groups are kept in the order
    of their names, so the function is found or placed where it belongs. -/
theorem of?_addTo (function : String) (record : Record)
    (h : functions.Pairwise fun a b => compare a.1 b.1 = .lt) (name : String) :
    of? (addTo function record functions) name
      = if function = name then some (((of? functions function).getD {}).addRecord record)
        else of? functions name := by
  induction functions with
  | nil => exact of?_cons _ _ _
  | cons entry rest ih =>
      obtain ⟨hhead, hrest⟩ := List.pairwise_cons.1 h
      rw [addTo]
      cases hcompare : compare function entry.1 with
      | lt =>
          -- every function of the list comes behind the new one
          have hnone : of? (entry :: rest) function = none := by
            refine of?_eq_none ?_
            intro e he heq
            rcases List.mem_cons.1 he with rfl | he
            · exact ne_of_compare_lt hcompare heq.symm
            · exact ne_of_compare_lt (Std.TransCmp.lt_trans hcompare (hhead e he)) heq.symm
          rw [hnone]
          exact of?_cons _ _ _
      | eq =>
          obtain rfl : function = entry.1 := Std.LawfulEqOrd.eq_of_compare hcompare
          show of? ((entry.1, entry.2.addRecord record) :: rest) name = _
          rw [of?_cons, of?_cons, of?_cons, if_pos rfl]
          by_cases hname : entry.1 = name
          · rw [if_pos hname, if_pos hname]
            rfl
          · rw [if_neg hname, if_neg hname, if_neg hname]
      | gt =>
          have hne : entry.1 ≠ function :=
            ne_of_compare_lt (Std.OrientedCmp.gt_iff_lt.1 hcompare)
          show of? (entry :: addTo function record rest) name = _
          rw [of?_cons, of?_cons, of?_cons, if_neg hne, ih hrest]
          by_cases hname : entry.1 = name
          · have hother : function ≠ name := fun heq => hne (hname.trans heq.symm)
            rw [if_pos hname, if_neg hother, if_pos hname]
          · rw [if_neg hname, if_neg hname]

/-- Without a record a function costs nothing. -/
theorem value_empty (m : Metric) : m.value {} = 0 := by cases m <;> rfl

theorem value_addRecord (m : Metric) (cost : FunctionCost) (record : Record) :
    m.value (cost.addRecord record) = (m.value cost).satAdd (record.cost.get m.field) := by
  cases m <;> rfl

theorem toNat_value_foldl (m : Metric) (records : List Record) (cost : FunctionCost) :
    (m.value (records.foldl addRecord cost)).toNat
      = min ((m.value cost).toNat + Cost.amount m.field (records.map Record.cost)) wordMax := by
  have hfield : m.value (records.foldl addRecord cost)
      = (records.map fun record => record.cost.get m.field).foldl UInt64.satAdd (m.value cost) := by
    induction records generalizing cost with
    | nil => rfl
    | cons record rest ih =>
        rw [List.foldl_cons, ih, value_addRecord, List.map_cons, List.foldl_cons]
  rw [hfield, toNat_foldl_satAdd, Cost.amount, List.map_map, List.map_map]
  rfl

end FunctionCost

section Groups

variable (tables : Tables) (resolver : Resolver)

/-- The records with their allocation site in a function of some name. -/
def recordsOf (records : List Record) (name : String) : List Record :=
  records.filter fun record => record.functionName tables resolver = name

/-- **A group is made of the records of its name**, one after the other; without any there is no
    group. -/
theorem of?_costByFunction (records : List Record) (name : String) :
    FunctionCost.of? (costByFunction tables resolver records) name
      = if recordsOf tables resolver records name = [] then none
        else some ((recordsOf tables resolver records name).foldl FunctionCost.addRecord {}) := by
  induction records using List.reverseRecOn with
  | nil => rfl
  | append_singleton records record ih =>
      have hmine : recordsOf tables resolver (records ++ [record]) name
          = recordsOf tables resolver records name
            ++ if record.functionName tables resolver = name then [record] else [] := by
        rw [recordsOf, List.filter_append, recordsOf]
        by_cases hname : record.functionName tables resolver = name
        · simp [hname]
        · simp [hname]
      rw [costByFunction_concat, hmine, FunctionCost.of?_addTo _ _ (increasing_costByFunction _ _ _)]
      by_cases hname : record.functionName tables resolver = name
      · subst hname
        rw [if_pos rfl, if_pos rfl, if_neg (List.append_ne_nil_of_right_ne_nil _ (by simp)),
          List.foldl_append, ih]
        split
        · rename_i hnone
          rw [hnone]
          rfl
        · rfl
      · rw [if_neg hname, if_neg hname, List.append_nil, ih]

/-- **What a function costs** by a metric: the sum over the records of its name, cut off at the
    largest word.  A function without a record costs nothing. -/
theorem toNat_value_costByFunction (m : Metric) (records : List Record) (name : String) :
    (m.value ((FunctionCost.of? (costByFunction tables resolver records) name).getD {})).toNat
      = min (Cost.amount m.field ((recordsOf tables resolver records name).map Record.cost))
          wordMax := by
  have hfold := FunctionCost.toNat_value_foldl m (recordsOf tables resolver records name) {}
  rw [FunctionCost.value_empty, UInt64.toNat_zero, Nat.zero_add] at hfold
  rw [of?_costByFunction, ← hfold]
  split
  · rename_i hnone
    rw [hnone]
    rfl
  · rfl

end Groups

/-! ## Ranks -/

namespace Series

variable (m : Metric) (functions : List (String × FunctionCost))

/-- The functions by rank, with their values. -/
def rankedValues : List (String × UInt64) :=
  (functions.mergeSort m.ranksBefore).map fun entry => (entry.1, m.value entry.2)

theorem pairwise_rankedValues : (rankedValues m functions).Pairwise fun a b =>
    b.2 < a.2 ∨ a.2 = b.2 ∧ a.1 ≤ b.1 := by
  rw [rankedValues, List.pairwise_map]
  exact pairwise_mergeSort_rankOrder (fun e => m.value e.2) Prod.fst functions

theorem decreasing_rankedValues : (rankedValues m functions).Pairwise fun a b => b.2 ≤ a.2 := by
  refine (pairwise_rankedValues m functions).imp ?_
  rintro a b (hlt | ⟨hsame, -⟩)
  · exact UInt64.le_of_lt hlt
  · exact UInt64.le_of_eq hsame.symm

theorem mem_rankedValues {function : String × FunctionCost} (h : function ∈ functions) :
    (function.1, m.value function.2) ∈ rankedValues m functions :=
  List.mem_map.2 ⟨function, List.mem_mergeSort.2 h, rfl⟩

/-- **A sample lists the first of those functions by rank whose value is not zero.**  The program stops
    at the first zero among the ten it takes, and behind a zero there are only zeros. -/
theorem listed_eq :
    listed m functions
      = ((rankedValues m functions).filter fun e => e.2 != 0).take maxChartEntries := by
  rw [← take_filter_of_decreasing (decreasing_rankedValues m functions), listed, rankedValues,
    List.map_take]

/-- **Behind the functions that a sample lists** come the others by rank.  None of them has a larger
    value than one listed, and while there is room in the list they have the value zero. -/
theorem exists_unlisted :
    ∃ unlisted, rankedValues m functions = listed m functions ++ unlisted ∧
      ((listed m functions).length < maxChartEntries → ∀ e ∈ unlisted, e.2 = 0) ∧
      ∀ e ∈ unlisted, ∀ e' ∈ listed m functions, e.2 ≤ e'.2 := by
  have hdecreasing := decreasing_rankedValues m functions
  have hsplit : rankedValues m functions = listed m functions ++
      (((rankedValues m functions).filter fun e => e.2 != 0).drop maxChartEntries ++
        (rankedValues m functions).dropWhile fun e => e.2 != 0) := by
    rw [← List.append_assoc, listed_eq, List.take_append_drop,
      ← takeWhile_eq_filter_of_decreasing hdecreasing, List.takeWhile_append_dropWhile]
  refine ⟨_, hsplit, ?_, ?_⟩
  · intro hroom e he
    rw [listed_eq, List.length_take] at hroom
    -- with room in the list no function was left out but those behind the first zero
    rw [List.drop_eq_nil_of_le (by omega), List.nil_append] at he
    exact eq_zero_of_mem_dropWhile hdecreasing e he
  · intro e he e' he'
    rw [hsplit] at hdecreasing
    exact (List.pairwise_append.1 hdecreasing).2.2 e' he' e he

end Series

/-! ## Rows -/

/-- The value of a number is that of its entry.  The numbers increase, so there is no second entry. -/
theorem LabelValues.get?_eq_some_iff {values : LabelValues} {id : UInt32} {value : UInt64} :
    values.get? id = some value ↔ (id, value) ∈ values.entries := by
  refine ⟨mem_entries_of_get?, ?_⟩
  intro hmem
  cases hget : values.get? id with
  | none =>
      rw [get?, Option.map_eq_none_iff, List.find?_eq_none] at hget
      exact absurd (beq_self_eq_true id) (hget _ hmem)
  | some value' =>
      have hnodup : (values.entries.map Prod.fst).Nodup := by
        rw [List.Nodup, List.pairwise_map]
        exact values.increasing.imp fun hlt heq => UInt32.ne_of_lt hlt heq
      have hsame := List.inj_on_of_nodup_map hnodup hmem (mem_entries_of_get? hget) rfl
      rw [Prod.mk.injEq] at hsame
      rw [hsame.2]

/-- What a row has beside the total: values under the numbers of functions. -/
def ChartRow.others (row : ChartRow) : List (UInt32 × UInt64) :=
  row.values.entries.filter fun e => e.1 ≠ totalLabelId

/-- The functions that a row of a chart lists, by the labels of their numbers. -/
def Chart.listed (c : Chart) (row : ChartRow) : List (Option String × UInt64) :=
  row.others.map fun e => (c.label? e.1, e.2)

theorem ChartRow.mem_others {row : ChartRow} {id : UInt32} {value : UInt64} :
    (id, value) ∈ row.others ↔ id ≠ totalLabelId ∧ row.values.get? id = some value := by
  rw [others, List.mem_filter, decide_eq_true_iff, LabelValues.get?_eq_some_iff, and_comm]

theorem ChartRow.nodup_others (row : ChartRow) : row.others.Nodup :=
  (row.values.increasing.imp fun hlt heq => UInt32.ne_of_lt hlt (congrArg Prod.fst heq)).filter _

namespace Series

variable {s : Series} {names : List String} {functions : List (String × FunctionCost)}
  {time total : UInt64}

theorem mem_labels_sample (hnodup : ((listed s.metric functions).map Prod.fst).Nodup)
    (time total : UInt64) {e : String × UInt64} (he : e ∈ listed s.metric functions) :
    e.1 ∈ (s.sample time total functions).labels := by
  rw [← Array.mem_toList_iff, toList_labels_sample hnodup, List.mem_append, Array.mem_toList_iff]
  by_cases hold : e.1 ∈ s.labels
  · exact Or.inl hold
  · exact Or.inr (List.mem_filter.2 ⟨List.mem_map_of_mem he, decide_eq_true hold⟩)

/-- **A sample adds one row with the total and the functions that were listed**, each under its number,
    as long as none of them is called like the total and there are numbers for all labels. -/
theorem perm_others_sample (h : (s.sample time total functions).Numbered names)
    (hsize : (s.sample time total functions).labels.size ≤ UInt32.size)
    (hnodup : ((listed s.metric functions).map Prod.fst).Nodup)
    (htotal : ∀ e ∈ listed s.metric functions, e.1 ≠ totalLabel) :
    ∃ row, (s.sample time total functions).rows = s.rows.push row ∧ row.timeStamp = time ∧
      row.values.get? totalLabelId = some total ∧
      (row.others.map fun e => (some e.1, e.2)).Perm ((listed s.metric functions).map fun e =>
        ((s.sample time total functions).labelId? e.1, e.2)) := by
  obtain ⟨row, hrows, htime, hzero, hvalues⟩ := exists_row_sample h hsize hnodup
  have hunder := (getD_lastUnder_eq_iff h.total hsize hnodup total).2 fun _ hvalue =>
    absurd rfl (htotal _ hvalue)
  have hnumber : ∀ e ∈ listed s.metric functions, ∃ id, id ≠ totalLabelId ∧
      (s.sample time total functions).labelId? e.1 = some id := by
    intro e he
    have hmem := mem_labels_sample hnodup time total he
    cases hid : (s.sample time total functions).labelId? e.1 with
    | none => exact absurd hmem (numberIn_eq_none_iff.1 hid)
    | some id =>
        refine ⟨id, ?_, rfl⟩
        rintro rfl
        exact htotal e he (h.label_unique hsize hid (numberIn_total h.total))
  refine ⟨row, hrows, htime, by rw [hzero, hunder], (List.perm_ext_iff_of_nodup ?_ ?_).2 ?_⟩
  · refine row.nodup_others.map fun e e' heq => ?_
    rw [Prod.mk.injEq, Option.some.injEq] at heq
    exact Prod.ext heq.1 heq.2
  · -- functions of one number are one function, and none is listed twice
    refine List.Nodup.map_on (fun e he e' he' heq => ?_) hnodup.of_map
    obtain ⟨id, -, hid⟩ := hnumber e he
    rw [Prod.mk.injEq, hid] at heq
    exact List.inj_on_of_nodup_map hnodup he he' (h.label_unique hsize hid heq.1.symm)
  · rintro ⟨number, value⟩
    rw [List.mem_map, List.mem_map]
    constructor
    · rintro ⟨e, he, heq⟩
      obtain ⟨hid, hvalue⟩ := ChartRow.mem_others.1 he
      obtain ⟨f, hf, hlabel⟩ := (hvalues e.1 e.2 hid).1 hvalue
      exact ⟨(f, e.2), hf, by rw [hlabel, heq]⟩
    · rintro ⟨e, he, heq⟩
      obtain ⟨id, hid, hlabel⟩ := hnumber e he
      rw [hlabel] at heq
      exact ⟨(id, e.2), ChartRow.mem_others.2 ⟨hid, (hvalues id e.2 hid).2 ⟨e.1, he, hlabel⟩⟩, heq⟩

/-- **What a chart says about the row of a sample** are the functions that the sample listed, each under
    its own label and with its own value, in some order. -/
theorem perm_listed (h : (s.sample time total functions).Numbered names)
    (hsize : (s.sample time total functions).labels.size ≤ UInt32.size)
    (hnodup : ((listed s.metric functions).map Prod.fst).Nodup)
    (htotal : ∀ e ∈ listed s.metric functions, e.1 ≠ totalLabel) :
    ∃ row, (s.sample time total functions).rows = s.rows.push row ∧
      ((s.sample time total functions).freeze.chart.listed row).Perm
        ((listed s.metric functions).map fun e => (some e.1, e.2)) := by
  obtain ⟨row, hrows, -, -, hperm⟩ := perm_others_sample h hsize hnodup htotal
  have hlabel : ∀ id label, (s.sample time total functions).freeze.chart.label? id = some label ↔
      (s.sample time total functions).labelId? label = some id :=
    (SeriesSet.chart_of_frozen (s := (s.sample time total functions).freeze) (h.congr rfl rfl)
      hsize rfl).2
  -- reading the labels of the numbers takes the functions back to themselves
  have hread := hperm.map fun e =>
    (e.1.bind (s.sample time total functions).freeze.chart.label?, e.2)
  rw [List.map_map, List.map_map] at hread
  refine ⟨row, hrows, hread.trans (List.Perm.of_eq (List.map_congr_left fun e he => ?_))⟩
  have hmem := mem_labels_sample hnodup time total he
  cases hid : (s.sample time total functions).labelId? e.1 with
  | none => exact absurd hmem (numberIn_eq_none_iff.1 hid)
  | some id =>
      rw [Function.comp_apply, hid]
      exact Prod.ext ((hlabel id e.1).2 hid) rfl

end Series

end HeapProfile
