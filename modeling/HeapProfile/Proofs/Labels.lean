import Mathlib
import HeapProfile.Chart.Series

/-!
# Labels — the numbers under which a sample lists functions

A sample enters the grand total and then the functions of the highest ranks, each under the number of
its label, into one table of values.  Whatever has the same number ends up in the same place, and the
last one entered stays.

* **`Keeps`** — labels are only added behind others, so a label that has a number keeps it;
* **`get?_foldl_enter`** — under each number a sample has the value of the last function listed that
  has this number, and what stood there before where there is none;
* **`numberIn_eq_zero`** — as long as the labels can be told apart by their numbers, the number of the
  total belongs to the label `total` alone, and
* **`nodup_listed`** — a sample lists no function twice, since the functions are grouped by name.
-/

namespace HeapProfile

namespace LabelValues

/-- Of a number that is set the new value is found, and of every other one the old.  Along the entries
    there are three cases: the number stands in front of the head, at the head, or behind it. -/
theorem find?_insertEntry (id k : UInt32) (value : UInt64) (entries : List (UInt32 × UInt64)) :
    ((insertEntry id value entries).find? fun e => e.1 == k)
      = if k = id then some (id, value) else entries.find? fun e => e.1 == k := by
  induction entries with
  | nil =>
      by_cases hk : k = id
      · simp [insertEntry, hk]
      · simp [insertEntry, hk, Ne.symm hk]
  | cons entry rest ih =>
      rw [insertEntry]
      by_cases hlt : id < entry.1
      · rw [if_pos hlt]
        by_cases hk : k = id
        · simp [hk]
        · simp [hk, Ne.symm hk]
      · rw [if_neg hlt]
        by_cases heq : id = entry.1
        · rw [if_pos heq]
          by_cases hk : k = id
          · simp [hk]
          · have hentry : entry.1 ≠ k := fun h => hk (h.symm.trans heq.symm)
            simp [hk, Ne.symm hk, hentry]
        · rw [if_neg heq, List.find?_cons, ih]
          by_cases hk : k = id
          · have hentry : (entry.1 == k) = false :=
              beq_false_of_ne fun h => heq (hk.symm.trans h.symm)
            rw [hentry, if_pos hk, if_pos hk]
          · rw [if_neg hk, if_neg hk, List.find?_cons]

/-- **Setting a value** changes what one number has and no other.  All later statements about rows rest
    on this one and never look at how entries are kept. -/
theorem get?_insert (values : LabelValues) (id k : UInt32) (value : UInt64) :
    (values.insert id value).get? k = if k = id then some value else values.get? k := by
  rw [get?, insert, find?_insertEntry, get?]
  by_cases hk : k = id
  · rw [if_pos hk, if_pos hk]
    rfl
  · rw [if_neg hk, if_neg hk]

end LabelValues

namespace Series

/-- Whatever has a number among the first labels has the same number among the others. -/
def Keeps (labels labels' : Array String) : Prop :=
  ∀ label id, numberIn labels label = some id → numberIn labels' label = some id

theorem Keeps.refl (labels : Array String) : Keeps labels labels := fun _ _ h => h

theorem Keeps.trans {a b c : Array String} (hab : Keeps a b) (hbc : Keeps b c) : Keeps a c :=
  fun label id h => hbc label id (hab label id h)

/-- Labels that are added behind the others take no number away, since a label is found at its
    first position. -/
theorem keeps_of_prefix {labels labels' : Array String} (h : labels.toList <+: labels'.toList) :
    Keeps labels labels' := by
  obtain ⟨more, hmore⟩ := h
  have hlabels : labels' = labels ++ more.toArray := by
    rw [← Array.toList_inj, Array.toList_append, ← hmore]
  intro label id hid
  rw [numberIn, Option.map_eq_some_iff] at hid
  obtain ⟨i, hi, rfl⟩ := hid
  rw [hlabels, numberIn, Array.findIdx?_append, hi]
  rfl

/-- The number that is given out is the number of the label from then on. -/
theorem numberIn_assign (labels : Array String) (label : String) :
    numberIn (assign labels label).2 label = some (assign labels label).1 := by
  rw [assign]
  cases hfind : labels.findIdx? (· == label) with
  | some i =>
      show numberIn labels label = _
      rw [numberIn, hfind]
      rfl
  | none =>
      show numberIn (labels.push label) label = _
      rw [numberIn, Array.findIdx?_push, hfind]
      simp

theorem keeps_assign (labels : Array String) (label : String) :
    Keeps labels (assign labels label).2 := by
  rw [assign]
  cases labels.findIdx? (· == label) with
  | some _ => exact Keeps.refl labels
  | none => exact keeps_of_prefix ⟨[label], Array.toList_push.symm⟩

/-- The value of the last of some functions that has a number. -/
def lastUnder (labels : Array String) (id : UInt32) (functions : List (String × UInt64)) :
    Option UInt64 :=
  (functions.reverse.find? fun e => numberIn labels e.1 == some id).map Prod.snd

theorem lastUnder_concat (labels : Array String) (id : UInt32) (functions : List (String × UInt64))
    (e : String × UInt64) :
    lastUnder labels id (functions ++ [e])
      = if numberIn labels e.1 = some id then some e.2 else lastUnder labels id functions := by
  rw [lastUnder, List.reverse_append, List.reverse_singleton, List.singleton_append, List.find?_cons,
    lastUnder]
  by_cases h : numberIn labels e.1 = some id
  · rw [if_pos h, beq_iff_eq.2 h]
    rfl
  · rw [if_neg h, beq_false_of_ne h]

/-- **What a sample has under a number**: the value of the last function listed that has this number,
    or what stood there before. -/
theorem get?_foldl_enter (functions : List (String × UInt64)) (state : Array String × LabelValues)
    {labels : Array String} (hkeeps : Keeps (functions.foldl enter state).1 labels) (id : UInt32) :
    (functions.foldl enter state).2.get? id
      = (lastUnder labels id functions).or (state.2.get? id) := by
  induction functions using List.reverseRecOn generalizing labels with
  | nil => rfl
  | append_singleton functions e ih =>
      rw [List.foldl_append, List.foldl_cons, List.foldl_nil] at hkeeps ⊢
      have hnumber := hkeeps _ _ (numberIn_assign (functions.foldl enter state).1 e.1)
      have hbefore := ih ((keeps_assign (functions.foldl enter state).1 e.1).trans hkeeps)
      show (LabelValues.insert _ (assign _ e.1).1 e.2).get? id = _
      rw [LabelValues.get?_insert, hbefore, lastUnder_concat, hnumber]
      by_cases hid : id = (assign (functions.foldl enter state).1 e.1).1
      · rw [if_pos hid, if_pos (congrArg some hid.symm)]
        rfl
      · rw [if_neg hid, if_neg fun h => hid (Option.some.inj h).symm]

/-! ## The number of the total -/

theorem numberIn_total {labels : Array String} (h : labels[0]? = some totalLabel) :
    numberIn labels totalLabel = some totalLabelId := by
  obtain ⟨hlt, hzero⟩ := Array.getElem?_eq_some_iff.1 h
  have hfind : labels.findIdx? (· == totalLabel) = some 0 := by
    rw [Array.findIdx?_eq_some_iff_getElem]
    refine ⟨hlt, ?_, fun j hj => absurd hj (Nat.not_lt_zero j)⟩
    rw [hzero, beq_self_eq_true]
  rw [numberIn, hfind]
  rfl

/-- **The number of the total belongs to the label of the total**, and to no other as long as there
    are no more labels than numbers. -/
theorem numberIn_eq_zero {labels : Array String} (h : labels[0]? = some totalLabel)
    (hsize : labels.size ≤ UInt32.size) {label : String}
    (hnumber : numberIn labels label = some totalLabelId) : label = totalLabel := by
  rw [numberIn, Option.map_eq_some_iff] at hnumber
  obtain ⟨i, hi, hzero⟩ := hnumber
  obtain ⟨hlt, hlabel, -⟩ := Array.findIdx?_eq_some_iff_getElem.1 hi
  have hi0 : i = 0 := by
    have hnat := congrArg UInt32.toNat hzero
    rw [UInt32.toNat_ofNat_of_lt' (Nat.lt_of_lt_of_le hlt hsize)] at hnat
    exact hnat
  subst hi0
  rw [Array.getElem?_eq_getElem hlt, Option.some.injEq] at h
  rw [h, beq_iff_eq] at hlabel
  exact hlabel.symm

theorem getElem?_zero_assign {labels : Array String} (h : labels[0]? = some totalLabel)
    (label : String) : (assign labels label).2[0]? = some totalLabel := by
  rw [assign]
  cases labels.findIdx? (· == label) with
  | some _ => exact h
  | none =>
      show (labels.push label)[0]? = some totalLabel
      obtain ⟨hlt, -⟩ := Array.getElem?_eq_some_iff.1 h
      rw [Array.getElem?_push_lt hlt, ← Array.getElem?_eq_getElem hlt]
      exact h

theorem getElem?_zero_foldl_enter (functions : List (String × UInt64))
    {state : Array String × LabelValues} (h : state.1[0]? = some totalLabel) :
    (functions.foldl enter state).1[0]? = some totalLabel := by
  induction functions generalizing state with
  | nil => exact h
  | cons e rest ih => exact @ih (enter state e) (getElem?_zero_assign h e.1)

/-- Where labels can be told apart by their numbers, what stands under the number of the total is what
    the functions of that name say it is. -/
theorem getD_lastUnder_eq_iff {labels : Array String} (hzero : labels[0]? = some totalLabel)
    (hsize : labels.size ≤ UInt32.size) {functions : List (String × UInt64)}
    (hnodup : (functions.map Prod.fst).Nodup) (total : UInt64) :
    (lastUnder labels totalLabelId functions).getD total = total
      ↔ ∀ value, (totalLabel, value) ∈ functions → value = total := by
  have hnumber : ∀ label, numberIn labels label = some totalLabelId ↔ label = totalLabel :=
    fun label => ⟨numberIn_eq_zero hzero hsize, fun h => h ▸ numberIn_total hzero⟩
  rw [lastUnder]
  cases hfind : functions.reverse.find? fun e => numberIn labels e.1 == some totalLabelId with
  | none =>
      refine iff_of_true rfl fun value hvalue => ?_
      have hnone := List.find?_eq_none.1 hfind _ (List.mem_reverse.2 hvalue)
      rw [beq_iff_eq, hnumber] at hnone
      exact absurd rfl hnone
  | some e =>
      have hmem := List.mem_reverse.1 (List.mem_of_find?_eq_some hfind)
      have hfound := List.find?_some hfind
      rw [beq_iff_eq, hnumber] at hfound
      show e.2 = total ↔ _
      constructor
      · intro htotal value hvalue
        -- no function is listed twice, so this is the one that was found
        have heq : (totalLabel, value) = e := List.inj_on_of_nodup_map hnodup hvalue hmem hfound.symm
        rw [← htotal, ← heq]
      · intro hvalues
        exact hvalues e.2 (hfound ▸ hmem)

end Series

/-! ## Functions are grouped by name -/

namespace FunctionCost

/-- Adding a record gives a cost to no function but its own, besides those that had one. -/
theorem fst_mem_addTo {function : String} {record : Record} {e : String × FunctionCost}
    {functions : List (String × FunctionCost)} (h : e ∈ addTo function record functions) :
    e.1 = function ∨ ∃ e' ∈ functions, e'.1 = e.1 := by
  induction functions with
  | nil =>
      rw [addTo, List.mem_singleton] at h
      exact Or.inl (congrArg Prod.fst h)
  | cons entry rest ih =>
      rw [addTo] at h
      cases hcompare : compare function entry.1 with
      | lt =>
          rw [hcompare] at h
          rcases List.mem_cons.1 h with rfl | h
          · exact Or.inl rfl
          · exact Or.inr ⟨e, h, rfl⟩
      | eq =>
          rw [hcompare] at h
          rcases List.mem_cons.1 h with rfl | h
          · exact Or.inr ⟨entry, List.mem_cons_self, rfl⟩
          · exact Or.inr ⟨e, List.mem_cons_of_mem _ h, rfl⟩
      | gt =>
          rw [hcompare] at h
          rcases List.mem_cons.1 h with rfl | h
          · exact Or.inr ⟨e, List.mem_cons_self, rfl⟩
          · rcases ih h with heq | ⟨e', he', heq⟩
            · exact Or.inl heq
            · exact Or.inr ⟨e', List.mem_cons_of_mem _ he', heq⟩

/-- Adding a record keeps the functions increasing by name, as the cost of a new one goes in front of
    the first name that is greater. -/
theorem increasing_addTo (function : String) (record : Record)
    {functions : List (String × FunctionCost)}
    (h : functions.Pairwise fun a b => compare a.1 b.1 = .lt) :
    (addTo function record functions).Pairwise fun a b => compare a.1 b.1 = .lt := by
  induction functions with
  | nil => exact List.pairwise_singleton _ _
  | cons entry rest ih =>
      obtain ⟨hhead, hrest⟩ := List.pairwise_cons.1 h
      rw [addTo]
      cases hcompare : compare function entry.1 with
      | lt =>
          refine List.pairwise_cons.2 ⟨?_, h⟩
          intro e he
          rcases List.mem_cons.1 he with rfl | he
          · exact hcompare
          · exact Std.TransCmp.lt_trans hcompare (hhead e he)
      | eq => exact List.pairwise_cons.2 ⟨hhead, hrest⟩
      | gt =>
          refine List.pairwise_cons.2 ⟨?_, ih hrest⟩
          intro e he
          rcases fst_mem_addTo he with heq | ⟨e', he', heq⟩
          · rw [heq]
            exact Std.OrientedCmp.gt_iff_lt.1 hcompare
          · rw [← heq]
            exact hhead e' he'

end FunctionCost

/-- A record more is added to the group of its function. -/
theorem costByFunction_concat (tables : Tables) (resolver : Resolver) (records : List Record)
    (record : Record) :
    costByFunction tables resolver (records ++ [record])
      = FunctionCost.addTo (record.functionName tables resolver) record
          (costByFunction tables resolver records) := by
  rw [costByFunction, List.foldl_append]
  rfl

theorem increasing_costByFunction (tables : Tables) (resolver : Resolver) (records : List Record) :
    (costByFunction tables resolver records).Pairwise fun a b => compare a.1 b.1 = .lt := by
  induction records using List.reverseRecOn with
  | nil => exact List.Pairwise.nil
  | append_singleton records record ih =>
      rw [costByFunction_concat]
      exact FunctionCost.increasing_addTo _ record ih

theorem nodup_costByFunction (tables : Tables) (resolver : Resolver) (records : List Record) :
    ((costByFunction tables resolver records).map Prod.fst).Nodup := by
  rw [List.Nodup, List.pairwise_map]
  refine (increasing_costByFunction tables resolver records).imp ?_
  intro a b hlt heq
  rw [heq, Std.ReflOrd.compare_self] at hlt
  exact Ordering.noConfusion hlt

/-- **No function is listed twice.**  Records are grouped by function before they are ranked, and
    ranking and cutting off keep the groups apart. -/
theorem Series.nodup_listed (metric : Metric) (tables : Tables) (resolver : Resolver)
    (records : List Record) :
    ((listed metric (costByFunction tables resolver records)).map Prod.fst).Nodup := by
  have hsorted := ((List.mergeSort_perm (costByFunction tables resolver records)
    metric.ranksBefore).map Prod.fst).nodup_iff.2 (nodup_costByFunction tables resolver records)
  rw [listed]
  refine List.Nodup.sublist ((List.takeWhile_sublist _).map Prod.fst) ?_
  rw [List.map_map]
  exact hsorted.sublist ((List.take_sublist _ _).map Prod.fst)

end HeapProfile
