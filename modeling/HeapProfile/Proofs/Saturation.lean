import Mathlib
import HeapProfile.Cost

/-!
# Saturating sums — one clamp instead of many

Costs are summed word by word, and every single addition may stop at the largest word.  Words are
never negative, so a sum that has stopped stays where it is: the whole sum is the exact sum of the
natural numbers, cut off once at its end.

* **`amount`** — the exact sum of one field over a list of costs;
* **`toNat_total`** — a saturating sum is the clamp of the exact one;
* **`clamp_sum_clamp`** — clamping the parts first changes nothing, so sums may be grouped at will.
-/

namespace HeapProfile

/-- The largest natural number that a word can hold. -/
def wordMax : Nat := UInt64.size - 1

theorem toNat_le_wordMax (w : UInt64) : w.toNat ≤ wordMax := by
  have h := w.toNat_lt_size
  rw [wordMax]
  omega

theorem toNat_satAdd_eq_clamp (a b : UInt64) :
    (a.satAdd b).toNat = min (a.toNat + b.toNat) wordMax :=
  UInt64.toNat_satAdd a b

/-- A saturating sum of words that begins at some word is the clamp of the exact sum: once it has
    stopped, more words change nothing. -/
theorem toNat_foldl_satAdd (words : List UInt64) (start : UInt64) :
    (words.foldl UInt64.satAdd start).toNat
      = min (start.toNat + (words.map UInt64.toNat).sum) wordMax := by
  induction words generalizing start with
  | nil => exact (Nat.min_eq_left (toNat_le_wordMax start)).symm
  | cons w rest ih =>
      rw [List.foldl_cons, ih, toNat_satAdd_eq_clamp, List.map_cons, List.sum_cons]
      omega

/-- Clamping the parts of a sum does not change the clamp of the sum.  So it does not matter where along
    the way a counter stopped. -/
theorem clamp_sum_clamp {α : Type} (g : α → Nat) (items : List α) :
    min (items.map fun x => min (g x) wordMax).sum wordMax = min (items.map g).sum wordMax := by
  induction items with
  | nil => rfl
  | cons x rest ih =>
      simp only [List.map_cons, List.sum_cons]
      omega

/-- Adding to one part of a sum and to its clamp: whichever of them stops, both agree. -/
theorem clamp_add_of_part {total sum sum' part amount : Nat} (htotal : total = min sum wordMax)
    (hpart : part ≤ sum) (hsum : sum' + part = sum + min (part + amount) wordMax) :
    min (total + amount) wordMax = min sum' wordMax := by
  omega

namespace Cost

variable (f : CostField)

/-- The exact sum of one field over a list of costs. -/
def amount (costs : List Cost) : Nat := (costs.map fun c => (c.get f).toNat).sum

@[simp] theorem amount_nil : amount f [] = 0 := rfl

@[simp] theorem amount_cons (c : Cost) (costs : List Cost) :
    amount f (c :: costs) = (c.get f).toNat + amount f costs := by
  rw [amount, List.map_cons, List.sum_cons, amount]

@[simp] theorem amount_append (left right : List Cost) :
    amount f (left ++ right) = amount f left + amount f right := by
  rw [amount, List.map_append, List.sum_append, amount, amount]

/-- A saturating sum that begins at some cost. -/
theorem toNat_foldl_add (costs : List Cost) (start : Cost) :
    ((costs.foldl (· + ·) start).get f).toNat
      = min ((start.get f).toNat + amount f costs) wordMax := by
  have hfield : (costs.foldl (· + ·) start).get f
      = (costs.map fun c => c.get f).foldl UInt64.satAdd (start.get f) := by
    induction costs generalizing start with
    | nil => rfl
    | cons c rest ih => rw [List.foldl_cons, ih, get_add, List.map_cons, List.foldl_cons]
  rw [hfield, toNat_foldl_satAdd, List.map_map, amount]
  rfl

/-- **A saturating sum is the clamp of the exact sum.**  From here on sums of costs are sums of
    natural numbers. -/
theorem toNat_total (costs : List Cost) :
    ((total costs).get f).toNat = min (amount f costs) wordMax := by
  rw [total, toNat_foldl_add, get_zero]
  simp

/-- Two costs are equal if their fields are equal as numbers, which is how most equations between costs
    are proved here. -/
theorem ext_toNat {a b : Cost} (h : ∀ f, (a.get f).toNat = (b.get f).toNat) : a = b := by
  ext f
  rw [h f]

theorem isZero_iff (c : Cost) : c.isZero = true ↔ ∀ f, (c.get f).toNat = 0 := by
  rw [isZero, beq_iff_eq]
  constructor
  · rintro rfl f
    rw [get_zero]
    rfl
  · intro h
    refine ext_toNat ?_
    intro f
    rw [h f, get_zero]
    rfl

/-- Costs of nothing may be left out of a sum. -/
theorem amount_filter_not_isZero {α : Type} (cost : α → Cost) (items : List α) :
    amount f ((items.filter fun x => !(cost x).isZero).map cost) = amount f (items.map cost) := by
  induction items with
  | nil => rfl
  | cons x rest ih =>
      by_cases hx : (cost x).isZero
      · have h0 := (isZero_iff (cost x)).1 hx f
        simp [hx, h0, ih]
      · simp [hx, ih]

end Cost

end HeapProfile
