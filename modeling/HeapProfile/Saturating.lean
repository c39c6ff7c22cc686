/-!
# Saturating words — 64-bit counters that stop at their ends

Every amount of the profile is a 64-bit word.  Sums stop at the largest word and differences at
zero, so a counter that ran over stays at its end instead of starting again.  Both operations are
read through `UInt64.toNat`: `toNat_satAdd` is a minimum and `toNat_satSub` the truncated
difference of natural numbers.
-/

namespace UInt64

/-- The largest 64-bit word. -/
def largest : UInt64 := 18446744073709551615

/-- The sum of two words, or the largest word where the sum does not fit. -/
def satAdd (a b : UInt64) : UInt64 :=
  if a ≤ largest - b then a + b else largest

/-- The difference of two words, or zero where it would be negative. -/
def satSub (a b : UInt64) : UInt64 :=
  if b ≤ a then a - b else 0

@[simp] theorem toNat_largest : largest.toNat = UInt64.size - 1 := rfl

/-- **Saturating addition adds up to the largest word.**  The comparison that guards it is exactly the
    one for overflow. -/
theorem toNat_satAdd (a b : UInt64) :
    (a.satAdd b).toNat = min (a.toNat + b.toNat) (UInt64.size - 1) := by
  have hsize : UInt64.size = 18446744073709551616 := rfl
  have ha := a.toNat_lt
  have hb := b.toNat_lt
  have hle : b ≤ largest := by rw [UInt64.le_iff_toNat_le, toNat_largest]; omega
  have hsub : (largest - b).toNat = UInt64.size - 1 - b.toNat := by
    rw [UInt64.toNat_sub_of_le _ _ hle, toNat_largest]
  by_cases h : a ≤ largest - b
  · have h' := UInt64.le_iff_toNat_le.1 h
    rw [satAdd, if_pos h, UInt64.toNat_add]
    omega
  · have h' : ¬ a.toNat ≤ (largest - b).toNat := fun hn => h (UInt64.le_iff_toNat_le.2 hn)
    rw [satAdd, if_neg h, toNat_largest]
    omega

theorem toNat_satSub (a b : UInt64) : (a.satSub b).toNat = a.toNat - b.toNat := by
  by_cases h : b ≤ a
  · rw [satSub, if_pos h, UInt64.toNat_sub_of_le _ _ h]
  · have h' : ¬ b.toNat ≤ a.toNat := fun hn => h (UInt64.le_iff_toNat_le.2 hn)
    rw [satSub, if_neg h]
    show 0 = a.toNat - b.toNat
    omega

end UInt64
