import HeapProfile.Event.Basic
import HeapProfile.Ledger
import HeapProfile.Proofs.Saturation

/-!
# Accounting — the totals of a ledger and the sum of its records

The ledger counts twice: in the record of a call path and in the totals of the run.  Both saturate
on their own, and a free takes from both what its record can release.  `alloc_cases` and
`free_cases` say what an entry does to the list of records; `held_alloc` and `held_free` say what
that does to the sums, and the rest is arithmetic.

* **`Balanced`** — allocations and allocated bytes of the totals are the clamped sums over the
  records; and while all allocations together fit into a word, the bytes outstanding are the exact
  sum over the records;
* **`balanced_enter`**, **`balanced_enterAll`** — every entry keeps the balance, so every run of
  entries ends with it.
-/

namespace HeapProfile

namespace Event

/-- The bytes that an event allocates. -/
def bytes : Event → Nat
  | .alloc _ size => size.toNat
  | _ => 0

/-- The bytes that some events allocate, exactly. -/
def allocatedBytes (events : List Event) : Nat := (events.map bytes).sum

end Event

namespace Record

theorem toNat_releasable (r : Record) (size : UInt64) :
    (r.releasable size).toNat = min size.toNat r.leaked.toNat := by
  rw [releasable, show min size r.leaked = if size ≤ r.leaked then size else r.leaked from rfl,
    Nat.min_def]
  by_cases h : size ≤ r.leaked
  · rw [if_pos h, if_pos (UInt64.le_iff_toNat_le.1 h)]
  · rw [if_neg h, if_neg fun h' => h (UInt64.le_iff_toNat_le.2 h')]

/-- A free takes what can be released. -/
theorem toNat_leaked_free (r : Record) (size : UInt64) :
    (r.free size).leaked.toNat = r.leaked.toNat - (r.releasable size).toNat := by
  have hle : r.releasable size ≤ r.leaked := by
    rw [UInt64.le_iff_toNat_le, toNat_releasable]
    exact Nat.min_le_right _ _
  exact UInt64.toNat_sub_of_le _ _ hle

end Record

namespace Totals

/-- Releasing takes from the bytes outstanding, down to zero. -/
theorem toNat_leaked_release (t : Totals) (size : UInt64) :
    (t.release size).leaked.toNat = t.leaked.toNat - size.toNat :=
  UInt64.toNat_satSub t.leaked size

theorem release_zero (t : Totals) : t.release 0 = t := by
  have hleaked : t.leaked.satSub 0 = t.leaked := UInt64.toNat.inj (UInt64.toNat_satSub t.leaked 0)
  rw [release, hleaked]

end Totals

namespace Ledger

variable {l : Ledger} {trace : TraceIndex} {size : UInt64}

/-! ## What an entry does to the records -/

/-- The record of a call path stands somewhere among the others, and a change of it is a change
    there. -/
theorem split_of_slot {slot : Nat} (h : l.slot? trace = some slot) :
    ∃ before r after, l.records.toList = before ++ r :: after ∧ r.trace = trace ∧
      l.records[slot]? = some r ∧
      ∀ f, (l.records.modify slot f).toList = before ++ f r :: after := by
  obtain ⟨hlt, hr, -⟩ := Array.findIdx?_eq_some_iff_getElem.1 h
  have hlt' : slot < l.records.toList.length := hlt
  refine ⟨l.records.toList.take slot, l.records[slot], l.records.toList.drop (slot + 1), ?_, ?_,
    Array.getElem?_eq_getElem hlt, ?_⟩
  · have hsplit := List.modify_eq_take_cons_drop (f := id) hlt'
    rw [List.modify_id] at hsplit
    exact hsplit
  · simpa using hr
  · intro f
    rw [Array.toList_modify, List.modify_eq_take_cons_drop hlt']
    rfl

theorem traces_ne_of_slot (h : l.slot? trace = none) : ∀ r ∈ l.records.toList, r.trace ≠ trace := by
  intro r hr
  have hnot := Array.findIdx?_eq_none_iff.1 h r (Array.mem_toList_iff.1 hr)
  simpa using hnot

/-- **An allocation** changes the record of its call path, or adds a new one behind the others.  Which
    of the two depends only on whether some record has that path. -/
theorem alloc_cases (l : Ledger) (trace : TraceIndex) (size : UInt64) :
    (∃ before r after, l.records.toList = before ++ r :: after ∧ r.trace = trace ∧
      (l.alloc trace size).records.toList = before ++ r.alloc size :: after) ∨
    ((∀ r ∈ l.records.toList, r.trace ≠ trace) ∧
      (l.alloc trace size).records.toList
        = l.records.toList ++ [({ trace : Record }).alloc size]) := by
  cases hslot : l.slot? trace with
  | some slot =>
      obtain ⟨before, r, after, hsplit, htrace, -, hmodify⟩ := split_of_slot hslot
      refine Or.inl ⟨before, r, after, hsplit, htrace, ?_⟩
      simp only [alloc, hslot]
      exact hmodify _
  | none =>
      refine Or.inr ⟨traces_ne_of_slot hslot, ?_⟩
      simp only [alloc, hslot, Array.toList_push]

/-- **A free** changes the record of its call path and takes from the totals what that record
    releases; without such a record it changes nothing. -/
theorem free_cases (l : Ledger) (trace : TraceIndex) (size : UInt64) :
    (∃ before r after, l.records.toList = before ++ r :: after ∧ r.trace = trace ∧
      (l.free trace size).records.toList = before ++ r.free size :: after ∧
      (l.free trace size).totals = l.totals.release (r.releasable size)) ∨
    ((∀ r ∈ l.records.toList, r.trace ≠ trace) ∧ l.free trace size = l) := by
  cases hslot : l.slot? trace with
  | some slot =>
      obtain ⟨before, r, after, hsplit, htrace, hr, hmodify⟩ := split_of_slot hslot
      refine Or.inl ⟨before, r, after, hsplit, htrace, ?_, ?_⟩
      · simp only [free, hslot]
        exact hmodify _
      · simp only [free, hslot, hr, Option.map_some, Option.getD_some]
  | none =>
      refine Or.inr ⟨traces_ne_of_slot hslot, ?_⟩
      simp only [free, hslot]

/-! ## Sums over the records -/

/-- What the records amount to in one field. -/
def held (l : Ledger) (f : CostField) : Nat := Cost.amount f (l.records.toList.map Record.cost)

theorem amount_replace (f : CostField) (before after : List Record) (r r' : Record) :
    Cost.amount f ((before ++ r' :: after).map Record.cost) + (r.cost.get f).toNat
      = Cost.amount f ((before ++ r :: after).map Record.cost) + (r'.cost.get f).toNat := by
  simp only [List.map_append, List.map_cons, Cost.amount_append, Cost.amount_cons]
  omega

theorem get_cost_le_held {before after : List Record} {r : Record}
    (h : l.records.toList = before ++ r :: after) (f : CostField) :
    (r.cost.get f).toNat ≤ l.held f := by
  rw [held, h]
  simp only [List.map_append, List.map_cons, Cost.amount_append, Cost.amount_cons]
  omega

/-- An allocation replaces one term of every sum; a new record had the term zero.  So both cases of
    `alloc_cases` come to the same for sums. -/
theorem held_alloc (l : Ledger) (trace : TraceIndex) (size : UInt64) :
    ∃ r : Record, ∀ f, (r.cost.get f).toNat ≤ l.held f ∧
      (l.alloc trace size).held f + (r.cost.get f).toNat
        = l.held f + ((r.alloc size).cost.get f).toNat := by
  rcases alloc_cases l trace size with ⟨before, r, after, hsplit, -, halloc⟩ | ⟨-, halloc⟩
  · refine ⟨r, fun f => ⟨get_cost_le_held hsplit f, ?_⟩⟩
    rw [held, held, halloc, hsplit]
    exact amount_replace f before after r _
  · refine ⟨{ trace }, fun f => ?_⟩
    have hzero : ((({ trace : Record }).cost).get f).toNat = 0 := by
      cases f <;> rfl
    rw [hzero]
    refine ⟨Nat.zero_le _, ?_⟩
    rw [held, halloc, List.map_append, Cost.amount_append, List.map_singleton, Cost.amount_cons,
      Cost.amount_nil, held]
    omega

/-- **What a free releases** it takes from the records and from the totals alike, and it takes nothing
    else.  A record gives up no more than it holds, and without a record nothing is released. -/
theorem held_free (l : Ledger) (trace : TraceIndex) (size : UInt64) :
    ∃ released, (l.free trace size).totals = l.totals.release released ∧
      (l.free trace size).held .leaked + released.toNat = l.held .leaked ∧
      ∀ f, f ≠ .leaked → (l.free trace size).held f = l.held f := by
  rcases free_cases l trace size with ⟨before, r, after, hsplit, -, hfree, htotals⟩ | ⟨-, hfree⟩
  · have hsum : ∀ f, (l.free trace size).held f + (r.cost.get f).toNat
        = l.held f + ((r.free size).cost.get f).toNat := by
      intro f
      rw [held, held, hfree, hsplit]
      exact amount_replace f before after r _
    refine ⟨r.releasable size, htotals, ?_, ?_⟩
    · have hchange : (l.free trace size).held .leaked + r.leaked.toNat
          = l.held .leaked + (r.free size).leaked.toNat := hsum .leaked
      have hreleased := r.toNat_releasable size
      have hleft := r.toNat_leaked_free size
      omega
    · intro f hf
      have hkept : (r.free size).cost.get f = r.cost.get f := by
        cases f with
        | leaked => exact absurd rfl hf
        | _ => rfl
      have hchange := hsum f
      rw [hkept] at hchange
      exact Nat.add_right_cancel hchange
  · rw [hfree]
    exact ⟨0, l.totals.release_zero.symm, rfl, fun _ _ => rfl⟩

/-! ## The balance -/

/-- After some bytes were allocated, the totals agree with the sums over the records: allocations
    and allocated bytes always, both cut off at the largest word, and outstanding bytes exactly
    while all allocations together fit into a word. -/
structure Balanced (l : Ledger) (bytes : Nat) : Prop where
  allocations : l.totals.totalAllocations.toNat = min (l.held .allocations) wordMax
  allocated : l.totals.totalAllocated.toNat = min (l.held .allocated) wordMax
  leaked : bytes ≤ wordMax → l.totals.leaked.toNat = l.held .leaked ∧ l.held .leaked ≤ bytes

variable {bytes : Nat}

theorem balanced_empty : ({} : Ledger).Balanced 0 where
  allocations := rfl
  allocated := rfl
  leaked := fun _ => ⟨rfl, Nat.le_refl 0⟩

/-- An allocation keeps the balance: whichever side saturates, the clamps of both sums agree.  For the
    bytes outstanding that needs that all allocations together fit into a word. -/
theorem balanced_alloc (h : l.Balanced bytes) (trace : TraceIndex) (size : UInt64) :
    (l.alloc trace size).Balanced (bytes + size.toNat) := by
  obtain ⟨r, hr⟩ := held_alloc l trace size
  constructor
  case allocations =>
    obtain ⟨hle, hsum⟩ := hr .allocations
    have hrecord : ((r.alloc size).cost.get .allocations).toNat
        = min ((r.cost.get .allocations).toNat + 1) wordMax :=
      toNat_satAdd_eq_clamp r.allocations 1
    rw [hrecord] at hsum
    show (l.totals.totalAllocations.satAdd 1).toNat = _
    rw [toNat_satAdd_eq_clamp]
    exact clamp_add_of_part h.allocations hle hsum
  case allocated =>
    obtain ⟨hle, hsum⟩ := hr .allocated
    have hrecord : ((r.alloc size).cost.get .allocated).toNat
        = min ((r.cost.get .allocated).toNat + size.toNat) wordMax :=
      toNat_satAdd_eq_clamp r.allocated size
    rw [hrecord] at hsum
    show (l.totals.totalAllocated.satAdd size).toNat = _
    rw [toNat_satAdd_eq_clamp]
    exact clamp_add_of_part h.allocated hle hsum
  case leaked =>
    intro hfits
    obtain ⟨hle, hsum⟩ := hr .leaked
    obtain ⟨hold, hbound⟩ := h.leaked (by omega)
    have hnew : (l.alloc trace size).totals.leaked.toNat
        = min (l.totals.leaked.toNat + size.toNat) wordMax :=
      toNat_satAdd_eq_clamp l.totals.leaked size
    have hrecord : ((r.alloc size).cost.get .leaked).toNat
        = min ((r.cost.get .leaked).toNat + size.toNat) wordMax :=
      toNat_satAdd_eq_clamp r.leaked size
    omega

/-- A free keeps the balance: what the records give up, the totals give up as well. -/
theorem balanced_free (h : l.Balanced bytes) (trace : TraceIndex) (size : UInt64) :
    (l.free trace size).Balanced bytes := by
  obtain ⟨released, htotals, hleaked, hkept⟩ := held_free l trace size
  constructor
  case allocations =>
    rw [htotals, hkept .allocations (by decide)]
    exact h.allocations
  case allocated =>
    rw [htotals, hkept .allocated (by decide)]
    exact h.allocated
  case leaked =>
    intro hfits
    obtain ⟨hold, hbound⟩ := h.leaked hfits
    rw [htotals, Totals.toNat_leaked_release]
    omega

/-! ## Runs of entries -/

/-- Enters an event; only allocations and frees concern the ledger. -/
def enter (l : Ledger) : Event → Ledger
  | .alloc trace size => l.alloc trace size
  | .free trace size => l.free trace size
  | _ => l

/-- Every entry keeps the balance. -/
theorem balanced_enter (h : l.Balanced bytes) (event : Event) :
    (l.enter event).Balanced (bytes + event.bytes) := by
  cases event with
  | alloc trace size => exact balanced_alloc h trace size
  | free trace size => exact balanced_free h trace size
  | _ => exact h

/-- **Every run of entries keeps the balance.**  By induction on the events, with the bytes that they
    allocate added up on the way. -/
theorem balanced_enterAll (h : l.Balanced bytes) (events : List Event) :
    (events.foldl enter l).Balanced (bytes + Event.allocatedBytes events) := by
  induction events generalizing l bytes with
  | nil => exact h
  | cons event rest ih =>
      have hrest := ih (balanced_enter h event)
      rw [Nat.add_assoc] at hrest
      exact hrest

theorem mem_of_mem_replaced {before after : List Record} {q q' r : Record}
    (h : r ∈ before ++ q' :: after) : r = q' ∨ r ∈ before ++ q :: after := by
  rcases List.mem_append.1 h with h | h
  · exact Or.inr (List.mem_append_left _ h)
  · rcases List.mem_cons.1 h with rfl | h
    · exact Or.inl rfl
    · exact Or.inr (List.mem_append_right _ (List.mem_cons_of_mem _ h))

/-- Call paths get their records by allocations alone.  A free changes a record that is there, and
    leaves it its call path. -/
theorem trace_of_mem_enter {event : Event} {r : Record} (h : r ∈ (l.enter event).records.toList) :
    (∃ size, event = .alloc r.trace size) ∨ ∃ r' ∈ l.records.toList, r'.trace = r.trace := by
  cases event with
  | alloc trace size =>
      rcases alloc_cases l trace size with ⟨before, q, after, hsplit, rfl, halloc⟩ | ⟨-, halloc⟩
      · rw [enter, halloc] at h
        rcases mem_of_mem_replaced h with rfl | hold
        · exact Or.inl ⟨size, rfl⟩
        · exact Or.inr ⟨r, hsplit ▸ hold, rfl⟩
      · rw [enter, halloc, List.mem_append, List.mem_singleton] at h
        rcases h with hold | rfl
        · exact Or.inr ⟨r, hold, rfl⟩
        · exact Or.inl ⟨size, rfl⟩
  | free trace size =>
      rcases free_cases l trace size with ⟨before, q, after, hsplit, -, hfree, -⟩ | ⟨-, hfree⟩
      · rw [enter, hfree] at h
        rcases mem_of_mem_replaced h with rfl | hold
        · -- a free leaves the record its call path
          refine Or.inr ⟨q, ?_, rfl⟩
          rw [hsplit]
          exact List.mem_append_right _ List.mem_cons_self
        · exact Or.inr ⟨r, hsplit ▸ hold, rfl⟩
      · rw [enter, hfree] at h
        exact Or.inr ⟨r, h, rfl⟩
  | _ => exact Or.inr ⟨r, h, rfl⟩

/-- **Behind every record stands an allocation** of the run.  So whatever is known of the call paths of
    allocations is known of the records. -/
theorem alloc_of_mem_enterAll {events : List Event} {r : Record}
    (h : r ∈ (events.foldl enter l).records.toList) :
    (∃ size, .alloc r.trace size ∈ events) ∨ ∃ r' ∈ l.records.toList, r'.trace = r.trace := by
  induction events generalizing l with
  | nil => exact Or.inr ⟨r, h, rfl⟩
  | cons event rest ih =>
      rcases ih h with ⟨size, hsize⟩ | ⟨r', hr', htrace⟩
      · exact Or.inl ⟨size, List.mem_cons_of_mem _ hsize⟩
      · rcases trace_of_mem_enter hr' with ⟨size, rfl⟩ | ⟨q, hq, hqtrace⟩
        · exact Or.inl ⟨size, by rw [htrace]; exact List.mem_cons_self⟩
        · exact Or.inr ⟨q, hq, hqtrace.trans htrace⟩

end Ledger

end HeapProfile
