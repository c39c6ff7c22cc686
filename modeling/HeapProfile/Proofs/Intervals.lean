import HeapProfile.Proofs.Naming
import HeapProfile.Proofs.Peaks

/-!
# Intervals — what the consumed chart says about the time between two samples

Under number zero a row of the consumed chart has the larger of two numbers: the peak that the
recording kept since the last sample, and the bytes outstanding now.  The kept peak starts at zero
with every sample and looks at the bytes outstanding behind allocations alone.

`interval` lists the calls since the last sample, each with the state that it led to.  What is
outstanding falls while memory is freed, and the first frees of an interval are the only ones that no
allocation of the interval has outdone.

* **`watched_after`** — the kept peak is the most that was outstanding behind an allocation of the
  interval, and nothing else in the interval exceeds it but the states behind the first calls;
* **`consumed_rows_report`** — so a row reports the most that was outstanding behind an allocation of
  its interval or at its end, and the most outstanding at all is this or what the first call left;
* **`frees_unreported`** — a recording whose last interval consists of frees: its first free leaves
  more outstanding than the row of the interval reports;
* **`peakKept_after`** — the peak of the run is either kept or was sampled;
* **`Run.consumed_rows_reach_peak`** — so over the whole run nothing is missed: the largest number
  that the rows report is the peak of the summary.
-/

namespace HeapProfile

namespace Recording

/-- Bytes outstanding on all call paths. -/
def outstanding (r : Recording) : Nat := r.ledger.totals.leaked.toNat

/-- Whether a call hands over an allocation. -/
def Call.allocates : Call → Bool
  | .handle (.alloc _ _) => true
  | _ => false

/-- Some calls since the last sample, after some more calls. -/
def passed (r : Recording) (since : List (Call × Recording)) :
    List Call → List (Call × Recording)
  | [] => since
  | call :: rest =>
    (r.take call).passed
      (if (r.sampleTime? call).isSome then [] else since ++ [(call, r.take call)]) rest

/-- The calls since the last sample, each with the state that it led to. -/
def interval (r : Recording) (calls : List Call) : List (Call × Recording) := r.passed [] calls

theorem passed_concat (r : Recording) (since : List (Call × Recording)) (calls : List Call)
    (call : Call) :
    r.passed since (calls ++ [call])
      = if ((calls.foldl take r).sampleTime? call).isSome then []
        else r.passed since calls ++ [(call, (calls.foldl take r).take call)] := by
  induction calls generalizing r since with
  | nil => rfl
  | cons first rest ih => exact ih _ _

/-! ## What a call does to the kept peak -/

variable {r : Recording} {call : Call}

/-- A recording is closed by a call that closes it, and stays closed; no event closes it. -/
theorem finished_take_iff :
    (r.take call).finished = true ↔ r.finished = true ∨ call = .finish := by
  cases call with
  | handle event =>
      rw [take, finished_handle]
      simp
  | finish =>
      refine iff_of_true ?_ (Or.inr rfl)
      rw [take, finish]
      cases hfinished : r.finished with
      | true => rw [if_pos rfl, hfinished]
      | false =>
          rw [if_neg Bool.false_ne_true]
          split
          · rfl
          · rfl

theorem finished_take (h : (r.take call).finished = false) : r.finished = false := by
  rw [← Bool.not_eq_true] at h ⊢
  exact fun hfinished => h (finished_take_iff.2 (Or.inl hfinished))

/-- **Who takes a sample**: an open recording, at a time mark later than all before it or when it is
    closed with a tick left. -/
theorem sampleTime?_eq_some {time : UInt64} (h : r.sampleTime? call = some time) :
    r.finished = false ∧
      (call = .handle (.timestamp time) ∧ ¬ time ≤ r.lastStamp ∨
        call = .finish ∧ r.lastStamp ≠ UInt64.largest) := by
  cases call with
  | handle event =>
      cases event with
      | timestamp stamp =>
          rw [sampleTime?, Option.ite_none_left_eq_some, not_or, Option.some.injEq] at h
          obtain ⟨⟨hopen, hlate⟩, rfl⟩ := h
          exact ⟨Bool.eq_false_iff.2 hopen, Or.inl ⟨rfl, hlate⟩⟩
      | _ => cases h
  | finish =>
      rw [sampleTime?, Option.ite_none_left_eq_some, not_or] at h
      obtain ⟨⟨hopen, hleft⟩, -⟩ := h
      exact ⟨Bool.eq_false_iff.2 hopen, Or.inr ⟨rfl, hleft⟩⟩

/-- A sample starts the kept peak at zero. -/
theorem intervalPeak_of_sample {time : UInt64} (h : r.sampleTime? call = some time) :
    (r.take call).intervalPeak = 0 := by
  obtain ⟨hopen, ⟨rfl, hlate⟩ | ⟨rfl, hleft⟩⟩ := sampleTime?_eq_some h
  · rw [take, handle, if_neg hlate]
    rfl
  · rw [take, finish, if_neg (Bool.eq_false_iff.1 hopen), if_neg hleft]
    rfl

theorem allocates_of_sample {time : UInt64} (h : r.sampleTime? call = some time) :
    call.allocates = false := by
  obtain ⟨-, ⟨rfl, -⟩ | ⟨rfl, -⟩⟩ := sampleTime?_eq_some h
  · rfl
  · rfl

/-- Without a sample only an allocation touches the kept peak, and then looks at the bytes outstanding
    behind it.  Frees are not looked at, which is what `frees_unreported` is about. -/
theorem toNat_intervalPeak_take (hopen : r.finished = false) (h : r.sampleTime? call = none) :
    (r.take call).intervalPeak.toNat
      = if call.allocates then max r.intervalPeak.toNat (r.take call).outstanding
        else r.intervalPeak.toNat := by
  cases call with
  | handle event =>
      cases event with
      | alloc trace size => exact toNat_max r.intervalPeak (r.alloc trace size).ledger.totals.leaked
      | timestamp stamp =>
          rw [sampleTime?] at h
          split at h
          · rename_i hstale
            rw [hopen] at hstale
            rw [take, handle, if_pos (hstale.resolve_left Bool.false_ne_true)]
            rfl
          · cases h
      | _ => rfl
  | finish =>
      rw [sampleTime?] at h
      split at h
      · rename_i hlast
        rw [hopen] at hlast
        rw [take, finish, if_neg (by rw [hopen]; exact Bool.false_ne_true),
          if_pos (hlast.resolve_left Bool.false_ne_true)]
        rfl
      · cases h

/-- Only an allocation makes more bytes outstanding; a free takes some away, and every other call leaves
    them as they are. -/
theorem outstanding_take_le (h : call.allocates = false) :
    (r.take call).outstanding ≤ r.outstanding := by
  rw [outstanding, outstanding, ledger_take]
  cases call with
  | finish => exact Nat.le_refl _
  | handle event =>
      cases event with
      | alloc trace size => exact nomatch h
      | free trace size =>
          show (r.ledger.free trace size).totals.leaked.toNat ≤ _
          obtain ⟨released, htotals, -⟩ := r.ledger.held_free trace size
          rw [htotals, Totals.toNat_leaked_release]
          exact Nat.sub_le _ _
      | _ => exact Nat.le_refl _

/-! ## The kept peak and the interval -/

/-- What the first call of an interval left outstanding. -/
def firstLeft (since : List (Call × Recording)) : Nat :=
  (since.head?.map fun p => p.2.outstanding).getD 0

/-- The kept peak is the most that was outstanding behind an allocation of an interval, and whatever
    else exceeds it does not exceed what the first call left. -/
structure Watched (since : List (Call × Recording)) (r : Recording) : Prop where
  alloc_le : ∀ p ∈ since, p.1.allocates = true → p.2.outstanding ≤ r.intervalPeak.toNat
  attained : r.intervalPeak.toNat = 0 ∨
    ∃ p ∈ since, p.1.allocates = true ∧ p.2.outstanding = r.intervalPeak.toNat
  passed_le : ∀ p ∈ since, p.2.outstanding ≤ max r.intervalPeak.toNat (firstLeft since)
  now_le : since ≠ [] → r.outstanding ≤ max r.intervalPeak.toNat (firstLeft since)

theorem watched_nil (h : r.intervalPeak.toNat = 0) : Watched [] r where
  alloc_le := fun _ hp => nomatch hp
  attained := Or.inl h
  passed_le := fun _ hp => nomatch hp
  now_le := fun hne => absurd rfl hne

theorem firstLeft_concat {since : List (Call × Recording)} (hne : since ≠ [])
    (p : Call × Recording) : firstLeft (since ++ [p]) = firstLeft since := by
  rw [firstLeft, List.head?_append_of_ne_nil _ hne, firstLeft]

/-- Without a sample the kept peak does not fall. -/
theorem intervalPeak_le_take (hopen : r.finished = false) (htime : r.sampleTime? call = none) :
    r.intervalPeak.toNat ≤ (r.take call).intervalPeak.toNat := by
  rw [toNat_intervalPeak_take hopen htime]
  split
  · exact Nat.le_max_left _ _
  · exact Nat.le_refl _

namespace Watched

variable {since : List (Call × Recording)}

/-- What a call leaves outstanding is within the bound.  The kept peak looks at it behind an allocation;
    without one the bytes fall, and the bound from before holds on.  The first call of an interval is
    part of the bound itself. -/
theorem now_le_concat (h : Watched since r) (hopen : r.finished = false)
    (htime : r.sampleTime? call = none) :
    (r.take call).outstanding
      ≤ max (r.take call).intervalPeak.toNat (firstLeft (since ++ [(call, r.take call)])) := by
  by_cases hne : since = []
  · subst hne
    exact Nat.le_max_right _ _
  have hpeak := toNat_intervalPeak_take hopen htime
  rw [firstLeft_concat hne]
  cases halloc : call.allocates with
  | true =>
      rw [halloc, if_pos rfl] at hpeak
      omega
  | false =>
      have hfalls := outstanding_take_le (r := r) halloc
      have hbefore := h.now_le hne
      have hgrows := intervalPeak_le_take hopen htime
      omega

/-- The kept peak is still one of the amounts behind an allocation: the one behind this call, if it is
    an allocation and exceeds the peak so far, and the old one otherwise. -/
theorem attained_concat (h : Watched since r) (hopen : r.finished = false)
    (htime : r.sampleTime? call = none) :
    (r.take call).intervalPeak.toNat = 0 ∨ ∃ p ∈ since ++ [(call, r.take call)],
      p.1.allocates = true ∧ p.2.outstanding = (r.take call).intervalPeak.toNat := by
  have hpeak := toNat_intervalPeak_take hopen htime
  have hkept (heq : (r.take call).intervalPeak.toNat = r.intervalPeak.toNat) :
      (r.take call).intervalPeak.toNat = 0 ∨ ∃ p ∈ since ++ [(call, r.take call)],
        p.1.allocates = true ∧ p.2.outstanding = (r.take call).intervalPeak.toNat := by
    rw [heq]
    refine h.attained.imp_right ?_
    rintro ⟨p, hp, hattained⟩
    exact ⟨p, List.mem_append_left _ hp, hattained⟩
  cases halloc : call.allocates with
  | true =>
      rw [halloc, if_pos rfl] at hpeak
      rcases Nat.le_total r.intervalPeak.toNat (r.take call).outstanding with hle | hle
      · refine Or.inr ⟨_, List.mem_append_right _ List.mem_cons_self, halloc, ?_⟩
        rw [hpeak, Nat.max_eq_right hle]
      · exact hkept (hpeak.trans (Nat.max_eq_left hle))
  | false =>
      rw [halloc, if_neg Bool.false_ne_true] at hpeak
      exact hkept hpeak

/-- **A call without a sample** goes on with the interval: what was watched stays in bounds, since the
    kept peak does not fall, and the call itself is within them. -/
theorem concat (h : Watched since r) (hopen : r.finished = false)
    (htime : r.sampleTime? call = none) :
    Watched (since ++ [(call, r.take call)]) (r.take call) := by
  have hgrows := intervalPeak_le_take hopen htime
  have hnow := h.now_le_concat hopen htime
  constructor
  case alloc_le =>
    intro p hp halloc
    rcases List.mem_append.1 hp with hold | hnew
    · exact (h.alloc_le p hold halloc).trans hgrows
    · rw [List.mem_singleton.1 hnew] at halloc ⊢
      rw [toNat_intervalPeak_take hopen htime, if_pos halloc]
      exact Nat.le_max_right _ _
  case attained => exact h.attained_concat hopen htime
  case passed_le =>
    intro p hp
    rcases List.mem_append.1 hp with hold | hnew
    · have hne : since ≠ [] := List.ne_nil_of_mem hold
      have hbefore := h.passed_le p hold
      rw [firstLeft_concat hne]
      omega
    · rw [List.mem_singleton.1 hnew]
      exact hnow
  case now_le => exact fun _ => hnow

end Watched

/-- **The kept peak watches the interval**, as long as the recording is open.  A sample begins a new
    interval, with a kept peak of zero and no calls. -/
theorem watched_after (stopNames : List String) (calls : List Call)
    (hopen : (after stopNames calls).finished = false) :
    Watched ((start stopNames).interval calls) (after stopNames calls) := by
  induction calls using List.reverseRecOn with
  | nil => exact watched_nil rfl
  | append_singleton calls call ih =>
      rw [after_concat] at hopen ⊢
      have hbefore := finished_take hopen
      rw [interval, passed_concat]
      show Watched (if ((after stopNames calls).sampleTime? call).isSome then []
        else (start stopNames).interval calls ++ [(call, (after stopNames calls).take call)]) _
      cases htime : (after stopNames calls).sampleTime? call with
      | some time =>
          rw [Option.isSome_some, if_pos rfl]
          refine watched_nil ?_
          rw [intervalPeak_of_sample htime]
          rfl
      | none => exact (ih hbefore).concat hbefore htime

/-! ## The rows of the consumed chart -/

/-- What was outstanding behind the calls of an interval that satisfy a condition, and at its end. -/
def outstandingAt (calls : List (Call × Recording)) (among : Call → Bool) (r : Recording) : Set Nat :=
  insert r.outstanding {bytes | ∃ p ∈ calls, among p.1 = true ∧ p.2.outstanding = bytes}

/-- The larger of the kept peak and the bytes outstanding now is the most that was outstanding behind
    an allocation or is now. -/
theorem Watched.isGreatest_allocated {since : List (Call × Recording)} (h : Watched since r) :
    IsGreatest (outstandingAt since Call.allocates r) (max r.intervalPeak.toNat r.outstanding) := by
  constructor
  · rcases h.attained with hzero | ⟨p, hp, halloc, hattained⟩
    · rw [hzero, Nat.max_eq_right (Nat.zero_le _)]
      exact Set.mem_insert _ _
    · rcases Nat.le_total r.intervalPeak.toNat r.outstanding with hle | hle
      · rw [Nat.max_eq_right hle]
        exact Set.mem_insert _ _
      · rw [Nat.max_eq_left hle]
        exact Set.mem_insert_of_mem _ ⟨p, hp, halloc, hattained⟩
  · rintro bytes (rfl | ⟨p, hp, halloc, rfl⟩)
    · exact Nat.le_max_right _ _
    · exact (h.alloc_le p hp halloc).trans (Nat.le_max_left _ _)

/-- With what the first call left it is the most that was outstanding at all.  Behind the first call
    every state without an allocation has no more than the state before it. -/
theorem Watched.isGreatest_passed {since : List (Call × Recording)} (h : Watched since r) :
    IsGreatest (outstandingAt since (fun _ => true) r)
      (max (max r.intervalPeak.toNat r.outstanding) (firstLeft since)) := by
  constructor
  · rcases Nat.le_total (firstLeft since) (max r.intervalPeak.toNat r.outstanding) with hle | hle
    · rw [Nat.max_eq_left hle]
      rcases h.isGreatest_allocated.1 with hnow | ⟨p, hp, -, hpast⟩
      · exact Or.inl hnow
      · exact Or.inr ⟨p, hp, rfl, hpast⟩
    · rw [Nat.max_eq_right hle]
      cases since with
      | nil =>
          refine Or.inl ?_
          have hzero : firstLeft [] = 0 := rfl
          omega
      | cons first rest => exact Or.inr ⟨first, List.mem_cons_self, rfl, rfl⟩
  · rintro bytes (rfl | ⟨p, hp, -, rfl⟩)
    · exact (Nat.le_max_right _ _).trans (Nat.le_max_left _ _)
    · have hle := h.passed_le p hp
      omega

/-- **What a row of the consumed chart reports.**  The row of a sample has under number zero the most
    that was outstanding behind an allocation of its interval or at its end.  The most that was
    outstanding at all is this, or what the first call of the interval left. -/
theorem consumed_rows_report (stopNames : List String) {calls : List Call}
    (hnames : .string totalLabel ∉ events calls)
    (hfew : (Event.functionNames (events calls)).toFinset.card < UInt32.size)
    {before rest : List Call} {call : Call} (hcalls : calls = before ++ call :: rest) {time : UInt64}
    (htime : (after stopNames before).sampleTime? call = some time) :
    let interval := (start stopNames).interval before
    ∃ row bytes, (after stopNames calls).series.consumed.rows[
        ((start stopNames).sampled before).length + 1]? = some row
      ∧ row.timeStamp = time ∧ row.values.get? totalLabelId = some bytes
      ∧ IsGreatest (outstandingAt interval Call.allocates (after stopNames before)) bytes.toNat
      ∧ IsGreatest (outstandingAt interval (fun _ => true) (after stopNames before))
          (max bytes.toNat (firstLeft interval)) := by
  intro interval
  obtain ⟨row, hrow, hstamp, hvalue⟩ := exists_row_after hnames hfew hcalls htime .consumed
  have hwatched := watched_after stopNames before (sampleTime?_eq_some htime).1
  have hbytes : (Metric.consumed.total (after stopNames before).chartTotals).toNat
      = max (after stopNames before).intervalPeak.toNat (after stopNames before).outstanding :=
    toNat_max _ _
  refine ⟨row, _, hrow, hstamp, hvalue, ?_, ?_⟩
  · rw [hbytes]
    exact hwatched.isGreatest_allocated
  · rw [hbytes]
    exact hwatched.isGreatest_passed

/-- A trace that allocates, marks the time and then frees twice before it ends. -/
def shrinkingCalls : List Call :=
  [.handle (.string "work"), .handle (.ip { address := 16, function := ⟨1⟩ }),
    .handle (.trace { ip := ⟨1⟩ }), .handle (.alloc ⟨1⟩ 100), .handle (.timestamp 10),
    .handle (.free ⟨1⟩ 30), .handle (.free ⟨1⟩ 50)]

theorem consumed_rows_report_sample :
    .string totalLabel ∉ events (shrinkingCalls ++ [.finish])
      ∧ (Event.functionNames (events (shrinkingCalls ++ [.finish]))).toFinset.card < UInt32.size
      ∧ (after [] shrinkingCalls).sampleTime? .finish = some 11
      ∧ ∃ row bytes, (after [] (shrinkingCalls ++ [.finish])).series.consumed.rows[
          ((start []).sampled shrinkingCalls).length + 1]? = some row
        ∧ row.timeStamp = 11 ∧ row.values.get? totalLabelId = some bytes
        ∧ IsGreatest (outstandingAt ((start []).interval shrinkingCalls) Call.allocates
            (after [] shrinkingCalls)) bytes.toNat
        ∧ IsGreatest (outstandingAt ((start []).interval shrinkingCalls) (fun _ => true)
            (after [] shrinkingCalls))
            (max bytes.toNat (firstLeft ((start []).interval shrinkingCalls))) := by
  have hnames : .string totalLabel ∉ events (shrinkingCalls ++ [.finish]) := by decide
  have hcard : (Event.functionNames (events (shrinkingCalls ++ [.finish]))).toFinset.card
      < UInt32.size :=
    Nat.lt_of_le_of_lt (Event.card_functionNames_le _) (by decide)
  have htime : (after [] shrinkingCalls).sampleTime? .finish = some 11 := by cbv
  exact ⟨hnames, hcard, htime, consumed_rows_report [] hnames hcard rfl htime⟩

/-- **Frees that open an interval go unreported**: behind the last time mark 70 bytes are left by the
    first free and 20 by the second, and the row of this interval reports 20. -/
theorem frees_unreported :
    ((after [] (shrinkingCalls ++ [.finish])).series.consumed.rows.toList.map
        fun row => (row.timeStamp, row.values.get? totalLabelId))
        = [(0, none), (10, some 100), (11, some 20)]
      ∧ ((start []).interval shrinkingCalls).map (fun p => p.2.outstanding) = [70, 20]
      ∧ ¬ IsGreatest (outstandingAt ((start []).interval shrinkingCalls) (fun _ => true)
          (after [] shrinkingCalls)) 20 := by
  have hleft : ((start []).interval shrinkingCalls).map (fun p => p.2.outstanding) = [70, 20] := by
    cbv
  refine ⟨by cbv, hleft, ?_⟩
  rintro ⟨-, hgreatest⟩
  have hmem : 70 ∈ ((start []).interval shrinkingCalls).map (fun p => p.2.outstanding) := by
    rw [hleft]
    exact List.mem_cons_self
  obtain ⟨p, hp, hbytes⟩ := List.mem_map.1 hmem
  exact absurd (hgreatest (Set.mem_insert_of_mem _ ⟨p, hp, rfl, hbytes⟩)) (by decide)

/-! ## The peak of the run -/

/-- The peak bounds the kept peak and the samples, and one of them has attained it. -/
structure PeakKept (samples : List (UInt64 × Recording)) (r : Recording) : Prop where
  kept_le : r.intervalPeak.toNat ≤ r.ledger.totals.peak.toNat
  sampled_le : ∀ sample ∈ samples,
    sample.2.chartTotals.consumed.toNat ≤ r.ledger.totals.peak.toNat
  attained : r.intervalPeak.toNat = r.ledger.totals.peak.toNat ∨
    ∃ sample ∈ samples, sample.2.chartTotals.consumed.toNat = r.ledger.totals.peak.toNat

/-- A sample more, and the peak is the greatest of all samples.  Either the peak was kept for this
    sample, or an earlier one has it. -/
theorem PeakKept.isGreatest_sampled {samples : List (UInt64 × Recording)} (h : PeakKept samples r)
    (hle : r.outstanding ≤ r.ledger.totals.peak.toNat) (time : UInt64) :
    IsGreatest {bytes | ∃ sample ∈ samples ++ [(time, r)],
      sample.2.chartTotals.consumed.toNat = bytes} r.ledger.totals.peak.toNat := by
  have hnew : r.chartTotals.consumed.toNat = max r.intervalPeak.toNat r.outstanding := toNat_max _ _
  constructor
  · rcases h.attained with hkept | ⟨sample, hsample, hattained⟩
    · refine ⟨(time, r), List.mem_append_right _ List.mem_cons_self, ?_⟩
      rw [hnew, hkept, Nat.max_eq_left hle]
    · exact ⟨sample, List.mem_append_left _ hsample, hattained⟩
  · rintro bytes ⟨sample, hsample, rfl⟩
    rcases List.mem_append.1 hsample with hold | hlast
    · exact h.sampled_le sample hold
    · rw [List.mem_singleton.1 hlast, hnew]
      exact Nat.max_le.2 ⟨h.kept_le, hle⟩

section Steps

variable {samples : List (UInt64 × Recording)} {time : UInt64}

/-- Without an allocation the peak stays where it is. -/
theorem peak_take (hle : r.outstanding ≤ r.ledger.totals.peak.toNat)
    (hpeak : (r.take call).ledger.totals.peak.toNat
      = max r.ledger.totals.peak.toNat (r.take call).outstanding)
    (halloc : call.allocates = false) :
    (r.take call).ledger.totals.peak.toNat = r.ledger.totals.peak.toNat := by
  have hfalls := outstanding_take_le (r := r) halloc
  omega

/-- **A sample** has what was kept, so nothing of it is lost when the kept peak starts again. -/
theorem PeakKept.sample (h : PeakKept samples r)
    (hle : r.outstanding ≤ r.ledger.totals.peak.toNat)
    (hsame : (r.take call).ledger.totals.peak.toNat = r.ledger.totals.peak.toNat)
    (htime : r.sampleTime? call = some time) :
    PeakKept (samples ++ [(time, r)]) (r.take call) := by
  obtain ⟨hattained, hbound⟩ := h.isGreatest_sampled hle time
  constructor
  case kept_le =>
    rw [intervalPeak_of_sample htime]
    exact Nat.zero_le _
  case sampled_le =>
    intro sample hsample
    rw [hsame]
    exact hbound ⟨sample, hsample, rfl⟩
  case attained =>
    rw [hsame]
    exact Or.inr hattained

/-- **A call without a sample** is kept if it goes beyond the peak.  Only an allocation can, and an
    allocation is looked at. -/
theorem PeakKept.unsampled (h : PeakKept samples r)
    (hle : r.outstanding ≤ r.ledger.totals.peak.toNat)
    (hpeak : (r.take call).ledger.totals.peak.toNat
      = max r.ledger.totals.peak.toNat (r.take call).outstanding)
    (hopen : r.finished = false) (htime : r.sampleTime? call = none) :
    PeakKept samples (r.take call) := by
  have hkept := toNat_intervalPeak_take hopen htime
  have hkeptLe := h.kept_le
  cases halloc : call.allocates with
  | true =>
      rw [halloc, if_pos rfl] at hkept
      constructor
      case kept_le => omega
      case sampled_le =>
        intro sample hsample
        have hbound := h.sampled_le sample hsample
        omega
      case attained =>
        -- within the peak the allocation changes nothing, and what had attained it still does
        rcases Nat.lt_or_ge r.ledger.totals.peak.toNat (r.take call).outstanding with hbeyond | hwithin
        · exact Or.inl (by omega)
        · rcases h.attained with hold | ⟨sample, hsample, hold⟩
          · exact Or.inl (by omega)
          · exact Or.inr ⟨sample, hsample, by omega⟩
  | false =>
      rw [halloc, if_neg Bool.false_ne_true] at hkept
      have hsame := peak_take hle hpeak halloc
      constructor
      case kept_le => rwa [hkept, hsame]
      case sampled_le =>
        rw [hsame]
        exact h.sampled_le
      case attained =>
        rw [hkept, hsame]
        exact h.attained

end Steps

/-- **The peak is kept or sampled**, as long as the recording is open.  So rows may miss what was
    outstanding in their intervals, but taken together they do not miss the peak of the run. -/
theorem peakKept_after (stopNames : List String) (calls : List Call)
    (hopen : (after stopNames calls).finished = false) :
    PeakKept ((start stopNames).sampled calls) (after stopNames calls) := by
  induction calls using List.reverseRecOn with
  | nil =>
      exact { kept_le := Nat.le_refl _, sampled_le := fun _ hsample => (nomatch hsample)
              attained := Or.inl rfl }
  | append_singleton calls call ih =>
      have hpeak : ((after stopNames calls).take call).ledger.totals.peak.toNat
          = max (after stopNames calls).ledger.totals.peak.toNat
              ((after stopNames calls).take call).outstanding := by
        rw [← after_concat, toNat_peak_concat]
        rfl
      have hle : (after stopNames calls).outstanding
          ≤ (after stopNames calls).ledger.totals.peak.toNat :=
        UInt64.le_iff_toNat_le.1 (accounted_after stopNames calls).leaked_le_peak
      rw [after_concat] at hopen ⊢
      have hbefore := finished_take hopen
      rw [sampled_concat]
      show PeakKept (_ ++ ((after stopNames calls).sampleTime? call).toList.map
        fun time => (time, after stopNames calls)) _
      cases htime : (after stopNames calls).sampleTime? call with
      | some time =>
          have hsame := peak_take hle hpeak (allocates_of_sample htime)
          exact (ih hbefore).sample hle hsame htime
      | none =>
          show PeakKept (_ ++ []) _
          rw [List.append_nil]
          exact (ih hbefore).unsampled hle hpeak hbefore htime

end Recording

namespace Run

variable {stopNames : List String} {boundary : Option (StringIndex → Bool)} {cancel : Cancellation}
  {stream : List (Except StreamFault Event)} {p : Profile}

/-- The summary has the peak of the recording. -/
theorem peak_of_run (h : (run stopNames boundary cancel stream).1 = .ok p) :
    p.summary.peak = (openRecordingOf stopNames stream).ledger.totals.peak := by
  obtain ⟨_, _, hprofile⟩ := run_ok h
  rw [(profile_ok hprofile).2.2, recordingOf_eq_finish]
  show ((openRecordingOf stopNames stream).finish).ledger.totals.peak = _
  rw [(Recording.ledger_tables_finish _).1]

/-- **The consumed chart does not miss the peak.**  In a run that yields a profile, whose strings are
    not `total` and name fewer functions than there are numbers, and that has a tick left behind its
    last time mark, every row behind the origin reports a grand total, and the greatest of them is the
    peak of the summary. -/
theorem consumed_rows_reach_peak (h : (run stopNames boundary cancel stream).1 = .ok p)
    (hnames : .string totalLabel ∉ eventsOf stream)
    (hlast : (openRecordingOf stopNames stream).lastStamp < UInt64.largest)
    (hfew : (Event.functionNames (eventsOf stream)).toFinset.card < UInt32.size) :
    ∃ (rows : List ChartRow) (totals : List UInt64), p.charts.consumed.rows = {} :: rows ∧
      rows.map (fun row => row.values.get? totalLabelId) = totals.map some ∧
      IsGreatest {bytes | ∃ total ∈ totals, total.toNat = bytes} p.summary.peak.toNat := by
  have hevents := events_callsOf stream
  rw [← hevents] at hnames hfew
  obtain ⟨rows, hrows, htotals⟩ := Recording.totals_report stopNames hnames hfew .consumed
  refine ⟨rows, ((Recording.start stopNames).sampled (callsOf stream)).map
    fun sample => sample.2.chartTotals.consumed, ?_, ?_, ?_⟩
  · rw [← hrows]
    exact congrArg Chart.rows (chart_of_run h .consumed).2
  · rw [htotals, List.map_map]
    rfl
  · rw [sampled_callsOf hlast, peak_of_run h]
    simp only [List.mem_map, exists_exists_and_eq_and]
    exact (Recording.peakKept_after stopNames _ finished_openRecordingOf).isGreatest_sampled
      (UInt64.le_iff_toNat_le.1 (Recording.accounted_after stopNames _).leaked_le_peak) _

/-- A trace that reaches its peak between two time marks, one of them too late to count, and ends with
    an allocation. -/
def peakStream : List (Except StreamFault Event) :=
  [.string "work", .ip { address := 16, function := ⟨1⟩ }, .trace { ip := ⟨1⟩ }, .alloc ⟨1⟩ 100,
    .timestamp 10, .alloc ⟨1⟩ 50, .free ⟨1⟩ 120, .timestamp 9, .free ⟨2⟩ 7, .timestamp 30,
    .alloc ⟨1⟩ 5].map .ok

theorem consumed_rows_reach_peak_sample :
    ∃ p, (run [] none none peakStream).1 = .ok p ∧ .string totalLabel ∉ eventsOf peakStream ∧
      (openRecordingOf [] peakStream).lastStamp < UInt64.largest ∧
      (Event.functionNames (eventsOf peakStream)).toFinset.card < UInt32.size ∧
      ∃ (rows : List ChartRow) (totals : List UInt64), p.charts.consumed.rows = {} :: rows ∧
        rows.map (fun row => row.values.get? totalLabelId) = totals.map some ∧
        IsGreatest {bytes | ∃ total ∈ totals, total.toNat = bytes} p.summary.peak.toNat := by
  obtain ⟨p, hp⟩ : ∃ p, (run [] none none peakStream).1 = .ok p :=
    exists_profile_of_isSome (by decide +kernel)
  have hnames : .string totalLabel ∉ eventsOf peakStream := by decide
  have hlast : (openRecordingOf [] peakStream).lastStamp < UInt64.largest := by
    have hstamp : (openRecordingOf [] peakStream).lastStamp = 30 := by cbv
    rw [hstamp]
    decide
  have hfew : (Event.functionNames (eventsOf peakStream)).toFinset.card < UInt32.size :=
    Nat.lt_of_le_of_lt (Event.card_functionNames_le _) (by decide)
  exact ⟨p, hp, hnames, hlast, hfew, consumed_rows_reach_peak hp hnames hlast hfew⟩

end Run

end HeapProfile
