import HeapProfile.Proofs.Calls

/-!
# Peaks — what the totals and the records say about each other

The totals of a run and the records of its call paths are counted side by side, and each of them may
stop at the largest word on its own.  Once the totals have stopped, frees take from a number that is
too small, and the bytes outstanding of the run fall behind those of the records.

`Accounted` collects the bounds that survive all of this.  The one that carries the others is
`full_or_exact`: either the peak of the run is the largest word, and then no record exceeds it, or the
totals never stopped, and then the bytes outstanding are the exact sum over the records.

* **`accounted_enter`** — every entry keeps the bounds;
* **`toNat_peak_enter`** — the peak follows the bytes outstanding;
* **`after_accounted`** — after any calls the bounds hold, and as long as all allocated bytes fit into
  a word the peak is the highest sum over the records that any state passed through had.
-/

namespace HeapProfile

/-- The larger of two words is the larger of two numbers. -/
theorem toNat_max (a b : UInt64) : (max a b).toNat = max a.toNat b.toNat := by
  rw [show max a b = if a ≤ b then b else a from rfl, Nat.max_def]
  by_cases h : a ≤ b
  · rw [if_pos h, if_pos (UInt64.le_iff_toNat_le.1 h)]
  · rw [if_neg h, if_neg fun h' => h (UInt64.le_iff_toNat_le.2 h')]

namespace Record

/-- A record allocated at least once, holds no more than its peak, and its peak is no more than it
    allocated. -/
structure Ordered (r : Record) : Prop where
  allocated_once : 1 ≤ r.allocations
  leaked_le_peak : r.leaked ≤ r.peak
  peak_le_allocated : r.peak ≤ r.allocated

variable {r : Record} {size : UInt64}

/-- A record holds more by the allocated size, up to the largest word. -/
theorem toNat_leaked_alloc (r : Record) (size : UInt64) :
    (r.alloc size).leaked.toNat = min (r.leaked.toNat + size.toNat) wordMax :=
  toNat_satAdd_eq_clamp r.leaked size

/-- The peak of a record follows the bytes that it holds. -/
theorem toNat_peak_alloc (r : Record) (size : UInt64) :
    (r.alloc size).peak.toNat = max r.peak.toNat (r.alloc size).leaked.toNat :=
  toNat_max r.peak (r.alloc size).leaked

/-- An allocation leaves a record in order.  Of the record before only the order of its amounts is
    needed, so that a new record is in order as well. -/
theorem ordered_alloc (hpeak : r.leaked ≤ r.peak) (hallocated : r.peak ≤ r.allocated)
    (size : UInt64) : (r.alloc size).Ordered := by
  have hone : (r.alloc size).allocations.toNat = min (r.allocations.toNat + 1) wordMax :=
    toNat_satAdd_eq_clamp r.allocations 1
  have hsum : (r.alloc size).allocated.toNat = min (r.allocated.toNat + size.toNat) wordMax :=
    toNat_satAdd_eq_clamp r.allocated size
  have hleaked := r.toNat_leaked_alloc size
  have hmax := r.toNat_peak_alloc size
  have hword : 1 ≤ wordMax := by decide
  have hle := toNat_le_wordMax r.allocated
  rw [UInt64.le_iff_toNat_le] at hpeak hallocated
  constructor
  · rw [UInt64.le_iff_toNat_le, hone, show (1 : UInt64).toNat = 1 from rfl]
    omega
  · rw [UInt64.le_iff_toNat_le]
    omega
  · rw [UInt64.le_iff_toNat_le]
    omega

/-- A free leaves a record in order: it takes from the bytes held alone. -/
theorem Ordered.free (h : r.Ordered) (size : UInt64) : (r.free size).Ordered where
  allocated_once := h.allocated_once
  leaked_le_peak := by
    have hpeak := UInt64.le_iff_toNat_le.1 h.leaked_le_peak
    rw [UInt64.le_iff_toNat_le, toNat_leaked_free]
    exact Nat.le_trans (Nat.sub_le _ _) hpeak
  peak_le_allocated := h.peak_le_allocated

end Record

namespace Totals

variable {t : Totals}

/-- The totals count more outstanding by the allocated size, up to the largest word. -/
theorem toNat_leaked_alloc (t : Totals) (size : UInt64) :
    (t.alloc size).leaked.toNat = min (t.leaked.toNat + size.toNat) wordMax :=
  toNat_satAdd_eq_clamp t.leaked size

/-- The peak of the totals follows the bytes outstanding. -/
theorem toNat_peak_alloc (t : Totals) (size : UInt64) :
    (t.alloc size).peak.toNat = max t.peak.toNat (t.alloc size).leaked.toNat :=
  toNat_max t.peak (t.alloc size).leaked

/-- The peak looks at the bytes outstanding after every allocation. -/
theorem leaked_le_peak_alloc (t : Totals) (size : UInt64) :
    (t.alloc size).leaked ≤ (t.alloc size).peak := by
  rw [UInt64.le_iff_toNat_le, toNat_peak_alloc]
  exact Nat.le_max_right _ _

/-- Whatever is outstanding was allocated, so the peak stays below the allocated bytes. -/
theorem peak_le_allocated_alloc (hleaked : t.leaked ≤ t.peak) (hpeak : t.peak ≤ t.totalAllocated)
    (size : UInt64) : (t.alloc size).peak ≤ (t.alloc size).totalAllocated := by
  have hallocated : (t.alloc size).totalAllocated.toNat
      = min (t.totalAllocated.toNat + size.toNat) wordMax :=
    toNat_satAdd_eq_clamp t.totalAllocated size
  have hword := toNat_le_wordMax t.peak
  rw [UInt64.le_iff_toNat_le] at hleaked hpeak ⊢
  rw [toNat_peak_alloc, toNat_leaked_alloc]
  omega

end Totals

namespace Ledger

/-- No two records are of one call path. -/
def Distinct (l : Ledger) : Prop := (l.records.toList.map Record.trace).Nodup

/-- What the records and the totals of a ledger say about each other, however far they saturated,
    after some bytes were allocated. -/
structure Accounted (l : Ledger) (bytes : Nat) : Prop extends l.Balanced bytes where
  traces : l.Distinct
  ordered : ∀ r ∈ l.records.toList, r.Ordered
  leaked_le_peak : l.totals.leaked ≤ l.totals.peak
  peak_le_allocated : l.totals.peak ≤ l.totals.totalAllocated
  leaked_le_held : l.totals.leaked.toNat ≤ min (l.held .leaked) wordMax
  record_peak_le : ∀ r ∈ l.records.toList, r.peak ≤ l.totals.peak
  peak_le_held : l.totals.peak.toNat ≤ min (l.held .peak) wordMax
  full_or_exact : l.totals.peak.toNat = wordMax ∨ l.totals.leaked.toNat = l.held .leaked

variable {l : Ledger} {trace : TraceIndex} {size : UInt64} {bytes : Nat}

/-- Records that hold no more than their peaks hold together no more than the peaks together,
    term by term. -/
theorem held_leaked_le_held_peak (h : ∀ r ∈ l.records.toList, r.Ordered) :
    l.held .leaked ≤ l.held .peak := by
  rw [held, held, Cost.amount, Cost.amount, List.map_map, List.map_map]
  refine List.sum_le_sum ?_
  intro r hr
  exact UInt64.le_iff_toNat_le.1 (h r hr).leaked_le_peak

/-- One record holds no more than all of them. -/
theorem get_cost_le_held_of_mem {r : Record} (hr : r ∈ l.records.toList) (f : CostField) :
    (r.cost.get f).toNat ≤ l.held f := by
  obtain ⟨before, after, hsplit⟩ := List.append_of_mem hr
  exact get_cost_le_held hsplit f

/-! ## Records after an entry -/

/-- After an allocation a record is an old one as it was, or it is the one that was allocated on: an old
    one again, or a new one. -/
theorem mem_records_alloc {x : Record} (hx : x ∈ (l.alloc trace size).records.toList) :
    x ∈ l.records.toList ∨
      ∃ r, x = r.alloc size ∧ (r ∈ l.records.toList ∨ r = { trace : Record }) := by
  rcases alloc_cases l trace size with ⟨before, r, after, hsplit, -, halloc⟩ | ⟨-, halloc⟩
  · rw [halloc] at hx
    rcases mem_of_mem_replaced hx with rfl | hold
    · refine Or.inr ⟨r, rfl, Or.inl ?_⟩
      rw [hsplit]
      exact List.mem_append_right _ List.mem_cons_self
    · exact Or.inl (hsplit ▸ hold)
  · rw [halloc, List.mem_append, List.mem_singleton] at hx
    rcases hx with hold | rfl
    · exact Or.inl hold
    · exact Or.inr ⟨_, rfl, Or.inr rfl⟩

/-- After a free a record is an old one as it was, or an old one that was freed from. -/
theorem mem_records_free {x : Record} (hx : x ∈ (l.free trace size).records.toList) :
    x ∈ l.records.toList ∨ ∃ r ∈ l.records.toList, x = r.free size := by
  rcases free_cases l trace size with ⟨before, r, after, hsplit, -, hfree, -⟩ | ⟨-, hfree⟩
  · rw [hfree] at hx
    rcases mem_of_mem_replaced hx with rfl | hold
    · refine Or.inr ⟨r, ?_, rfl⟩
      rw [hsplit]
      exact List.mem_append_right _ List.mem_cons_self
    · exact Or.inl (hsplit ▸ hold)
  · rw [hfree] at hx
    exact Or.inl hx

/-- An allocation on a call path without a record adds that path behind the others, and no other
    entry changes the paths. -/
theorem distinct_enter (h : l.Distinct) (event : Event) : (l.enter event).Distinct := by
  cases event with
  | alloc trace size =>
      rcases alloc_cases l trace size with ⟨before, r, after, hsplit, -, halloc⟩ | ⟨hfresh, halloc⟩
      · rw [Distinct, enter, halloc]
        rw [Distinct, hsplit] at h
        simpa [Record.alloc] using h
      · rw [Distinct, enter, halloc, List.map_append, List.nodup_append]
        refine ⟨h, List.nodup_singleton _, ?_⟩
        intro a ha b hb
        obtain ⟨r, hr, rfl⟩ := List.mem_map.1 ha
        rw [List.mem_singleton.1 hb]
        exact hfresh r hr
  | free trace size =>
      rcases free_cases l trace size with ⟨before, r, after, hsplit, -, hfree, -⟩ | ⟨-, hfree⟩
      · rw [Distinct, enter, hfree]
        rw [Distinct, hsplit] at h
        simpa [Record.free] using h
      · rw [enter, hfree]
        exact h
  | _ => exact h

/-! ## Every entry keeps the bounds -/

/-- The bounds hold of a ledger without records. -/
theorem accounted_empty : ({} : Ledger).Accounted 0 where
  toBalanced := balanced_empty
  traces := List.nodup_nil
  ordered := fun _ h => nomatch h
  leaked_le_peak := UInt64.le_refl _
  peak_le_allocated := UInt64.le_refl _
  leaked_le_held := Nat.zero_le _
  record_peak_le := fun _ h => nomatch h
  peak_le_held := Nat.zero_le _
  full_or_exact := Or.inr rfl

/-- After an allocation every record is in order. -/
theorem ordered_of_mem_alloc (h : ∀ r ∈ l.records.toList, r.Ordered) :
    ∀ r ∈ (l.alloc trace size).records.toList, r.Ordered := by
  intro x hx
  rcases mem_records_alloc hx with hold | ⟨r, rfl, hr | rfl⟩
  · exact h x hold
  · exact Record.ordered_alloc (h r hr).leaked_le_peak (h r hr).peak_le_allocated size
  · exact Record.ordered_alloc (UInt64.le_refl _) (UInt64.le_refl _) size

/-- After a free every record is in order. -/
theorem ordered_of_mem_free (h : ∀ r ∈ l.records.toList, r.Ordered) :
    ∀ r ∈ (l.free trace size).records.toList, r.Ordered := by
  intro x hx
  rcases mem_records_free hx with hold | ⟨r, hr, rfl⟩
  · exact h x hold
  · exact (h r hr).free size

/-- Together the records hold more by the allocated size, or they hold at least the largest word. -/
theorem held_leaked_alloc (l : Ledger) (trace : TraceIndex) (size : UInt64) :
    min (l.held .leaked + size.toNat) wordMax ≤ (l.alloc trace size).held .leaked ∧
      (l.alloc trace size).held .leaked ≤ l.held .leaked + size.toNat := by
  obtain ⟨r, hr⟩ := held_alloc l trace size
  obtain ⟨hpart, hsum⟩ := hr .leaked
  have hrecord : ((r.alloc size).cost.get .leaked).toNat
      = min ((r.cost.get .leaked).toNat + size.toNat) wordMax := r.toNat_leaked_alloc size
  omega

/-- No peak of a record falls. -/
theorem held_peak_le_alloc (l : Ledger) (trace : TraceIndex) (size : UInt64) :
    l.held .peak ≤ (l.alloc trace size).held .peak := by
  obtain ⟨r, hr⟩ := held_alloc l trace size
  obtain ⟨-, hsum⟩ := hr .peak
  have hrecord : (r.cost.get .peak).toNat ≤ ((r.alloc size).cost.get .peak).toNat :=
    (Nat.le_max_left _ _).trans_eq (r.toNat_peak_alloc size).symm
  omega

/-- **If the totals stop, then the peak is at the largest word** from now on; if they do not, no record
    can stop either, and the sum stays exact. -/
theorem full_or_exact_alloc (h : l.Accounted bytes) (trace : TraceIndex) (size : UInt64) :
    (l.alloc trace size).totals.peak.toNat = wordMax ∨
      (l.alloc trace size).totals.leaked.toNat = (l.alloc trace size).held .leaked := by
  have hleaked := l.totals.toNat_leaked_alloc size
  have hpeak := l.totals.toNat_peak_alloc size
  have hheld := l.held_leaked_alloc trace size
  have hword := toNat_le_wordMax l.totals.peak
  show (l.totals.alloc size).peak.toNat = wordMax ∨ (l.totals.alloc size).leaked.toNat = _
  rcases h.full_or_exact with hfull | hexact
  · left
    omega
  · omega

/-- The peak of the totals stays above the peak of every record.  A record that changes holds a part of
    what all records hold now, and that is what the totals count unless they are full. -/
theorem record_peak_le_alloc (h : l.Accounted bytes) (trace : TraceIndex) (size : UInt64) :
    ∀ r ∈ (l.alloc trace size).records.toList, r.peak ≤ (l.alloc trace size).totals.peak := by
  intro x hx
  have hpeak : (l.alloc trace size).totals.peak.toNat
      = max l.totals.peak.toNat (l.alloc trace size).totals.leaked.toNat :=
    l.totals.toNat_peak_alloc size
  have hmax := toNat_le_wordMax x.peak
  rw [UInt64.le_iff_toNat_le]
  rcases mem_records_alloc hx with hold | ⟨r, rfl, hr⟩
  · have hle := UInt64.le_iff_toNat_le.1 (h.record_peak_le x hold)
    omega
  · have hmine : (r.alloc size).leaked.toNat ≤ (l.alloc trace size).held .leaked :=
      get_cost_le_held_of_mem hx .leaked
    have hbefore : r.peak.toNat ≤ l.totals.peak.toNat := by
      rcases hr with hr | rfl
      · exact UInt64.le_iff_toNat_le.1 (h.record_peak_le r hr)
      · exact Nat.zero_le _
    have hexact := full_or_exact_alloc h trace size
    have hnew := r.toNat_peak_alloc size
    omega

/-- **An allocation keeps the bounds.**  Totals and records grow by the same size, each up to the
    largest word on its own; the lemmas above say what this does to either side. -/
theorem accounted_alloc (h : l.Accounted bytes) (trace : TraceIndex) (size : UInt64) :
    (l.alloc trace size).Accounted (bytes + size.toNat) := by
  have hordered : ∀ r ∈ (l.alloc trace size).records.toList, r.Ordered :=
    ordered_of_mem_alloc h.ordered
  have hleaked : (l.totals.alloc size).leaked.toNat
      ≤ min ((l.alloc trace size).held .leaked) wordMax := by
    have hgrown := l.totals.toNat_leaked_alloc size
    have hheld := l.held_leaked_alloc trace size
    have hold := h.leaked_le_held
    omega
  constructor
  case toBalanced => exact balanced_alloc h.toBalanced trace size
  case traces => exact distinct_enter h.traces (.alloc trace size)
  case ordered => exact hordered
  case leaked_le_peak => exact l.totals.leaked_le_peak_alloc size
  case peak_le_allocated =>
    exact Totals.peak_le_allocated_alloc h.leaked_le_peak h.peak_le_allocated size
  case leaked_le_held => exact hleaked
  case record_peak_le => exact record_peak_le_alloc h trace size
  case peak_le_held =>
    -- the peak is the one from before or what is outstanding now, and both are held as peaks
    have hgrown := l.totals.toNat_peak_alloc size
    have hbefore := l.held_peak_le_alloc trace size
    have hnow := held_leaked_le_held_peak hordered
    have hold := h.peak_le_held
    show (l.totals.alloc size).peak.toNat ≤ _
    omega
  case full_or_exact => exact full_or_exact_alloc h trace size

/-- **A free keeps the bounds**: the totals give up what the records do, and no peak changes. -/
theorem accounted_free (h : l.Accounted bytes) (trace : TraceIndex) (size : UInt64) :
    (l.free trace size).Accounted bytes := by
  obtain ⟨released, htotals, hheld, hkept⟩ := held_free l trace size
  have hleaked : (l.free trace size).totals.leaked.toNat
      = l.totals.leaked.toNat - released.toNat := by
    rw [htotals, Totals.toNat_leaked_release]
  have hpeak : (l.free trace size).totals.peak = l.totals.peak := by
    rw [htotals]
    rfl
  have hallocated : (l.free trace size).totals.totalAllocated = l.totals.totalAllocated := by
    rw [htotals]
    rfl
  constructor
  case toBalanced => exact balanced_free h.toBalanced trace size
  case traces => exact distinct_enter h.traces (.free trace size)
  case ordered => exact ordered_of_mem_free h.ordered
  case leaked_le_peak =>
    have hle := UInt64.le_iff_toNat_le.1 h.leaked_le_peak
    rw [UInt64.le_iff_toNat_le, hpeak, hleaked]
    exact (Nat.sub_le _ _).trans hle
  case peak_le_allocated =>
    rw [hpeak, hallocated]
    exact h.peak_le_allocated
  case leaked_le_held =>
    have hle := h.leaked_le_held
    omega
  case record_peak_le =>
    intro x hx
    rw [hpeak]
    rcases mem_records_free hx with hold | ⟨r, hr, rfl⟩
    · exact h.record_peak_le x hold
    · exact h.record_peak_le r hr
  case peak_le_held =>
    rw [hpeak, hkept .peak (by decide)]
    exact h.peak_le_held
  case full_or_exact =>
    rw [hpeak]
    refine h.full_or_exact.imp_right fun hexact => ?_
    omega

/-- **Every entry keeps the bounds.**  Only allocations and frees concern the ledger at all. -/
theorem accounted_enter (h : l.Accounted bytes) (event : Event) :
    (l.enter event).Accounted (bytes + event.bytes) := by
  cases event with
  | alloc trace size => exact accounted_alloc h trace size
  | free trace size => exact accounted_free h trace size
  | _ => exact h

/-- **Every run of entries keeps the bounds.**  By induction on the events, as for the balance. -/
theorem accounted_enterAll (h : l.Accounted bytes) (events : List Event) :
    (events.foldl enter l).Accounted (bytes + Event.allocatedBytes events) := by
  induction events generalizing l bytes with
  | nil => exact h
  | cons event rest ih =>
      have hrest := ih (accounted_enter h event)
      rw [Nat.add_assoc] at hrest
      exact hrest

/-- **The peak follows the bytes outstanding**, entry by entry: an allocation compares them, and a free
    leaves fewer than there were. -/
theorem toNat_peak_enter (h : l.Accounted bytes) (event : Event) :
    (l.enter event).totals.peak.toNat
      = max l.totals.peak.toNat (l.enter event).totals.leaked.toNat := by
  have hle := UInt64.le_iff_toNat_le.1 h.leaked_le_peak
  cases event with
  | alloc trace size => exact l.totals.toNat_peak_alloc size
  | free trace size =>
      obtain ⟨released, htotals, -⟩ := held_free l trace size
      have hleaked := l.totals.toNat_leaked_release released
      rw [enter, htotals]
      show l.totals.peak.toNat = _
      omega
  | _ =>
      show l.totals.peak.toNat = max l.totals.peak.toNat l.totals.leaked.toNat
      omega

end Ledger

/-! ## Recordings -/

namespace Recording

/-- The bounds hold of the ledger of a recording, after any events and closings. -/
theorem accounted_after (stopNames : List String) (calls : List Call) :
    (after stopNames calls).ledger.Accounted (Event.allocatedBytes (events calls)) := by
  have hrun := Ledger.accounted_enterAll Ledger.accounted_empty (events calls)
  rw [Nat.zero_add, ← ledger_after stopNames] at hrun
  exact hrun

/-- Call by call, the peak is the larger of the peak so far and the bytes outstanding now.  Closing
    changes neither. -/
theorem toNat_peak_concat (stopNames : List String) (calls : List Call) (call : Call) :
    (after stopNames (calls ++ [call])).ledger.totals.peak.toNat
      = max (after stopNames calls).ledger.totals.peak.toNat
        (after stopNames (calls ++ [call])).ledger.totals.leaked.toNat := by
  have h := accounted_after stopNames calls
  rw [after_concat, ledger_take]
  cases call with
  | handle event => exact Ledger.toNat_peak_enter h event
  | finish =>
      have hle := UInt64.le_iff_toNat_le.1 h.leaked_le_peak
      show _ = max _ (after stopNames calls).ledger.totals.leaked.toNat
      exact (Nat.max_eq_left hle).symm

/-- The allocated bytes of a run never become fewer, so what fits at its end has always fitted. -/
theorem allocatedBytes_le_concat (calls : List Call) (call : Call) :
    Event.allocatedBytes (events calls) ≤ Event.allocatedBytes (events (calls ++ [call])) := by
  rw [events_concat, Event.allocatedBytes, Event.allocatedBytes, List.map_append, List.sum_append]
  exact Nat.le_add_right _ _

/-- **The peak is the highest sum of outstanding bytes** over all states passed through, as long as
    all allocated bytes fit into a word. -/
theorem isGreatest_peak (stopNames : List String) (calls : List Call)
    (hfits : Event.allocatedBytes (events calls) ≤ wordMax) :
    IsGreatest {bytes | ∃ before, before <+: calls ∧
        (after stopNames before).ledger.held .leaked = bytes}
      (after stopNames calls).ledger.totals.peak.toNat := by
  induction calls using List.reverseRecOn with
  | nil =>
      refine ⟨⟨[], List.prefix_refl _, rfl⟩, ?_⟩
      rintro bytes ⟨before, hbefore, rfl⟩
      rw [List.prefix_nil.1 hbefore]
      exact Nat.le_refl _
  | append_singleton calls call ih =>
      obtain ⟨⟨attained, hattained, hsum⟩, hbound⟩ :=
        ih (Nat.le_trans (allocatedBytes_le_concat calls call) hfits)
      have hexact := ((accounted_after stopNames (calls ++ [call])).leaked hfits).1
      have hpeak := toNat_peak_concat stopNames calls call
      constructor
      · -- the maximum is either the old one or the sum after this call
        rcases Nat.le_total (after stopNames calls).ledger.totals.peak.toNat
          (after stopNames (calls ++ [call])).ledger.totals.leaked.toNat with hle | hle
        · refine ⟨calls ++ [call], List.prefix_refl _, ?_⟩
          rw [hpeak, Nat.max_eq_right hle, hexact]
        · refine ⟨attained, hattained.trans (List.prefix_append _ _), ?_⟩
          rw [hpeak, Nat.max_eq_left hle, hsum]
      · rintro bytes ⟨before, hbefore, rfl⟩
        rw [hpeak]
        rcases List.prefix_concat_iff.1 hbefore with rfl | hbefore
        · rw [← hexact]
          exact Nat.le_max_right _ _
        · exact Nat.le_trans (hbound ⟨before, hbefore, rfl⟩) (Nat.le_max_left _ _)

/-- **The accounts of a recording**, after any sequence of events and closings.  Call paths have one
    record each, and every record allocated at least once and holds no more than its peak, which is no
    more than it allocated.  The totals are the saturating sums of the records' allocations and
    allocated bytes; the bytes outstanding are no more than the peak, the peak no more than the
    allocated bytes, and the bytes outstanding no more than the saturating sum over the records; and
    the peak lies between the peak of every record and the saturating sum of all of them.  As long as
    all allocated bytes fit into a word, the bytes outstanding are the exact sum over the records, and
    the peak is the highest such sum of all states passed through. -/
theorem after_accounted (stopNames : List String) (calls : List Call) :
    let l := (after stopNames calls).ledger
    (l.records.toList.map Record.trace).Nodup ∧
      (∀ r ∈ l.records.toList, 1 ≤ r.allocations ∧ r.leaked ≤ r.peak ∧ r.peak ≤ r.allocated) ∧
      l.totals.totalAllocations.toNat = min (l.held .allocations) wordMax ∧
      l.totals.totalAllocated.toNat = min (l.held .allocated) wordMax ∧
      l.totals.leaked ≤ l.totals.peak ∧ l.totals.peak ≤ l.totals.totalAllocated ∧
      l.totals.leaked.toNat ≤ min (l.held .leaked) wordMax ∧
      (∀ r ∈ l.records.toList, r.peak ≤ l.totals.peak) ∧
      l.totals.peak.toNat ≤ min (l.held .peak) wordMax ∧
      (Event.allocatedBytes (events calls) ≤ wordMax →
        l.totals.leaked.toNat = l.held .leaked ∧
          IsGreatest {bytes | ∃ before, before <+: calls ∧
            (after stopNames before).ledger.held .leaked = bytes} l.totals.peak.toNat) := by
  intro l
  have h : l.Accounted (Event.allocatedBytes (events calls)) := accounted_after stopNames calls
  refine ⟨h.traces, ?_, h.allocations, h.allocated, h.leaked_le_peak, h.peak_le_allocated,
    h.leaked_le_held, h.record_peak_le, h.peak_le_held, ?_⟩
  · intro r hr
    have hr' := h.ordered r hr
    exact ⟨hr'.allocated_once, hr'.leaked_le_peak, hr'.peak_le_allocated⟩
  · intro hfits
    exact ⟨(h.leaked hfits).1, isGreatest_peak stopNames calls hfits⟩

/-- Allocations on two paths, a free of more than is held, a free on no path, and a closing between
    them. -/
def sampleCalls : List Call :=
  [.handle (.alloc ⟨3⟩ 10), .handle (.alloc ⟨5⟩ 20), .handle (.free ⟨3⟩ 99), .finish,
    .handle (.free ⟨8⟩ 1), .handle (.alloc ⟨3⟩ 4), .finish]

/-- On the calls above everything fits into a word, so the peak is the highest sum of outstanding bytes,
    although a free asked for more than its record held. -/
theorem after_accounted_sample :
    Event.allocatedBytes (events sampleCalls) ≤ wordMax ∧
      IsGreatest {bytes | ∃ before, before <+: sampleCalls ∧
        (after [] before).ledger.held .leaked = bytes}
          (after [] sampleCalls).ledger.totals.peak.toNat := by
  have hfits : Event.allocatedBytes (events sampleCalls) ≤ wordMax := by decide
  obtain ⟨-, -, -, -, -, -, -, -, -, hexact⟩ := after_accounted [] sampleCalls
  exact ⟨hfits, (hexact hfits).2⟩

end Recording

end HeapProfile
