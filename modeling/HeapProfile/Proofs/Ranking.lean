import Mathlib

/-!
# Ranking — larger values first, equal values by name

The functions of a sample and the stacks of a folded file are listed in the same order: by a word that
they are weighed with, the largest first, and where these agree by their names.

* **`isLE_rankOrder`** — what it means that one of two things does not come behind the other;
* **`pairwise_mergeSort_rankOrder`** — a list that was sorted by ranks has them in this order;
* **`mergeSort_rankOrder_of_perm`** — it does not matter in which order the list was before;
* **`take_filter_of_decreasing`** — in a list of decreasing values it is the same to take the first few
  and stop at a zero, or to leave out the zeros and take the first few.
-/

namespace HeapProfile

section

variable {α : Type}

/-- The order of ranks: larger values first, equal values by name. -/
def rankOrder (value : α → UInt64) (name : α → String) (a b : α) : Ordering :=
  (compare (value b) (value a)).then (compare (name a) (name b))

variable (value : α → UInt64) (name : α → String)

instance : Std.TransCmp (rankOrder value name) := by
  have hvalues : Std.TransCmp (compareOn value) := inferInstance
  have hopposite : Std.TransCmp fun a b : α => compare (value b) (value a) := hvalues.opposite
  show Std.TransCmp (compareLex (fun a b => compare (value b) (value a)) (compareOn name))
  infer_instance

/-- One thing ranks before another, or the same, if it has the larger value, or the same value and no
    later name. -/
theorem isLE_rankOrder {a b : α} :
    (rankOrder value name a b).isLE = true ↔
      value b < value a ∨ value a = value b ∧ name a ≤ name b := by
  rw [rankOrder]
  cases hvalues : compare (value b) (value a) with
  | lt => exact iff_of_true rfl (Or.inl (Std.compare_eq_lt.1 hvalues))
  | eq =>
      have hsame := Std.compare_eq_iff_eq.1 hvalues
      have hle : (compare (name a) (name b)).isLE = true ↔ name a ≤ name b :=
        Ordering.isLE_iff_ne_gt.trans compare_le_iff_le
      rw [Ordering.eq_then, hle]
      refine ⟨fun hnames => Or.inr ⟨hsame.symm, hnames⟩, ?_⟩
      rintro (hlt | ⟨-, hnames⟩)
      · exact absurd hlt (hsame ▸ UInt64.lt_irrefl _)
      · exact hnames
  | gt =>
      have hlt : value a < value b := Std.compare_eq_gt.1 hvalues
      refine iff_of_false Bool.noConfusion ?_
      rintro (hgt | ⟨hsame, -⟩)
      · exact UInt64.lt_asymm hlt hgt
      · exact UInt64.ne_of_lt hlt hsame

/-- **What is sorted by ranks is in the order of ranks.**  The order is total and transitive, which is
    all that sorting needs. -/
theorem pairwise_mergeSort_rankOrder (items : List α) :
    (items.mergeSort fun a b => (rankOrder value name a b).isLE).Pairwise fun a b =>
      value b < value a ∨ value a = value b ∧ name a ≤ name b := by
  have hsorted : (items.mergeSort fun a b => (rankOrder value name a b).isLE).Pairwise fun a b =>
      (rankOrder value name a b).isLE = true := by
    refine List.pairwise_mergeSort ?_ ?_ items
    · exact fun a b c hab hbc => Std.TransCmp.isLE_trans hab hbc
    · intro a b
      have hswap : rankOrder value name b a = (rankOrder value name a b).swap :=
        Std.OrientedCmp.eq_swap
      rw [hswap]
      cases rankOrder value name a b <;> rfl
  exact hsorted.imp (isLE_rankOrder value name).1

/-- **The order in which ranked things came does not show**, as long as their names can tell them apart:
    two of them never have the same rank then. -/
theorem mergeSort_rankOrder_of_perm {items items' : List α} (hperm : items.Perm items')
    (hnames : (items.map name).Nodup) :
    (items.mergeSort fun a b => (rankOrder value name a b).isLE)
      = items'.mergeSort fun a b => (rankOrder value name a b).isLE := by
  refine List.Perm.eq_of_pairwise ?_ (pairwise_mergeSort_rankOrder value name items)
    (pairwise_mergeSort_rankOrder value name items')
    ((List.mergeSort_perm _ _).trans (hperm.trans (List.mergeSort_perm _ _).symm))
  intro a b ha hb hab hba
  have hsame : name a = name b := by
    rcases hab with hlt | ⟨hvalue, hle⟩
    · rcases hba with hgt | ⟨hvalue, -⟩
      · exact absurd hgt (UInt64.lt_asymm hlt)
      · exact absurd hlt (hvalue ▸ UInt64.lt_irrefl _)
    · rcases hba with hgt | ⟨-, hge⟩
      · exact absurd hgt (hvalue ▸ UInt64.lt_irrefl _)
      · exact le_antisymm hle hge
  exact List.inj_on_of_nodup_map hnames (List.mem_mergeSort.1 ha)
    (hperm.mem_iff.2 (List.mem_mergeSort.1 hb)) hsame

/-! ## The first few -/

variable {value}

/-- Behind the first zero of decreasing values there are zeros only. -/
theorem takeWhile_eq_filter_of_decreasing {items : List α}
    (h : items.Pairwise fun a b => value b ≤ value a) :
    (items.takeWhile fun a => value a != 0) = items.filter fun a => value a != 0 := by
  induction items with
  | nil => rfl
  | cons a rest ih =>
      obtain ⟨hhead, hrest⟩ := List.pairwise_cons.1 h
      rw [List.takeWhile_cons, List.filter_cons]
      split
      · rw [ih hrest]
      · rename_i hzero
        rw [bne_iff_ne, ne_eq, not_not] at hzero
        refine (List.filter_eq_nil_iff.2 fun b hb => ?_).symm
        have hle := hhead b hb
        rw [hzero] at hle
        rw [bne_iff_ne, ne_eq, not_not]
        exact UInt64.le_antisymm hle UInt64.zero_le

theorem eq_zero_of_mem_dropWhile {items : List α}
    (h : items.Pairwise fun a b => value b ≤ value a) :
    ∀ a ∈ items.dropWhile fun a => value a != 0, value a = 0 := by
  have hfilter := congrArg (List.filter fun a => value a != 0)
    (List.takeWhile_append_dropWhile (p := fun a => value a != 0) (l := items))
  -- the front already has all that is not zero
  rw [List.filter_append, takeWhile_eq_filter_of_decreasing h, List.filter_filter] at hfilter
  simp only [Bool.and_self, List.append_right_eq_self, List.filter_eq_nil_iff] at hfilter
  intro a ha
  simpa using hfilter a ha

/-- **Stopping at the first zero leaves out the zeros**, however many of the first are taken.  So taking
    and leaving out may change places. -/
theorem take_filter_of_decreasing {items : List α}
    (h : items.Pairwise fun a b => value b ≤ value a) (n : Nat) :
    ((items.take n).takeWhile fun a => value a != 0)
      = (items.filter fun a => value a != 0).take n := by
  rw [← takeWhile_eq_filter_of_decreasing h, List.take_takeWhile]

end

end HeapProfile
