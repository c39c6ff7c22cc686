import HeapProfile.Proofs.Running

/-!
# Cancellation — what becomes of a run whose flag is set

A run looks at its flag behind every full batch of events and behind the end of its source, so a flag that
is set while the source is read is always seen: at the next full batch, or at the end if that comes first.
Only a fault of the source wins over it.

A source need not end, so `Reads` says what reading it comes to without a bound on the calls, one
constructor for each thing that a call can lead to.  Up to the first look that finds the flag set, a run
goes as if nobody had cancelled it (`reads_iff_of_quiet`), and how it goes on is decided by one call.

* **`runs_ofStream_iff`** — on a stream that ends, runs in this sense are the runs of the program;
* **`runs_cancelled_iff`**, **`runs_failed_iff`**, **`runs_ended_iff`** — the three ways in which
  reading comes to its end;
* **`cancelled_run_settles`** — which of them a run takes, after how many calls, and what it yields.
-/

namespace HeapProfile

/-- A source of events: what it answers, call by call.  It need not come to an end. -/
abbrev EventSource := Nat → Except StreamFault (Option Event)

namespace EventSource

/-- So many calls yield an event each. -/
def Yields (source : EventSource) (calls : Nat) : Prop :=
  ∀ call < calls, ∃ event, source call = .ok (some event)

/-- The source of a stream. -/
def ofStream (stream : List (Except StreamFault Event)) : EventSource := fun call =>
  match stream[call]? with
  | none => .ok none
  | some answer => answer.map some

/-- A recording behind the events of so many calls. -/
def recorded (source : EventSource) (r : Recording) : Nat → Recording
  | 0 => r
  | calls + 1 =>
    match source calls with
    | .ok (some event) => (source.recorded r calls).handle event
    | _ => source.recorded r calls

/-- A source yields so many events, or something else comes before. -/
theorem yields_or (source : EventSource) (calls : Nat) :
    source.Yields calls ∨ ∃ call < calls, source.Yields call ∧
      (source call = .ok none ∨ ∃ fault, source call = .error fault) := by
  induction calls with
  | zero => exact Or.inl fun _ h => absurd h (Nat.not_lt_zero _)
  | succ calls ih =>
      rcases ih with hyields | ⟨call, hcall, h⟩
      · cases hanswer : source calls with
        | error fault => exact Or.inr ⟨calls, Nat.lt_succ_self _, hyields, Or.inr ⟨fault, hanswer⟩⟩
        | ok event? =>
            cases event? with
            | none => exact Or.inr ⟨calls, Nat.lt_succ_self _, hyields, Or.inl hanswer⟩
            | some event =>
                refine Or.inl fun call hcall => ?_
                rcases Nat.lt_succ_iff_lt_or_eq.1 hcall with hlt | rfl
                · exact hyields call hlt
                · exact ⟨event, hanswer⟩
      · exact Or.inr ⟨call, Nat.lt_succ_of_lt hcall, h⟩

end EventSource

namespace Run

/-! ## Reading a source -/

/-- Whether a run that looks at its flag behind so many calls finds it set. -/
def sees (cancel : Cancellation) (calls : Nat) : Prop :=
  calls % eventsPerCancelCheck = 0 ∧ cancel.isSetAfter calls = true

instance (cancel : Cancellation) (calls : Nat) : Decidable (sees cancel calls) :=
  inferInstanceAs (Decidable (_ ∧ _))

/-- Reading a source from a recording and a number of calls on comes to an outcome and to a number of
calls. -/
inductive Reads (cancel : Cancellation) (source : EventSource) :
    Recording → Nat → Except RunFailure Recording × Nat → Prop where
  | ends {r : Recording} {calls : Nat} : source calls = .ok none →
      Reads cancel source r calls (.ok r.finish, calls + 1)
  | fails {r : Recording} {calls : Nat} {fault : StreamFault} : source calls = .error fault →
      Reads cancel source r calls (.error (.stream fault), calls + 1)
  | stops {r : Recording} {calls : Nat} {event : Event} : source calls = .ok (some event) →
      sees cancel (calls + 1) → Reads cancel source r calls (.error .cancelled, calls + 1)
  | goesOn {r : Recording} {calls : Nat} {event : Event}
      {outcome : Except RunFailure Recording × Nat} : source calls = .ok (some event) →
      ¬ sees cancel (calls + 1) → Reads cancel source (r.handle event) (calls + 1) outcome →
      Reads cancel source r calls outcome

variable {cancel : Cancellation} {source : EventSource} {r : Recording} {calls : Nat}
  {outcome : Except RunFailure Recording × Nat}

/-- What reading comes to is decided by one call, or by what comes behind it.  Nothing else opens the
    relation below, and the program's reader is unfolded beside it. -/
theorem reads_iff : Reads cancel source r calls outcome ↔
    match source calls with
    | .ok none => outcome = (.ok r.finish, calls + 1)
    | .error fault => outcome = (.error (.stream fault), calls + 1)
    | .ok (some event) =>
      if sees cancel (calls + 1) then outcome = (.error .cancelled, calls + 1)
      else Reads cancel source (r.handle event) (calls + 1) outcome := by
  constructor
  · intro h
    cases h with
    | ends hend => rw [hend]
    | fails hfault => rw [hfault]
    | stops hevent hsees =>
        rw [hevent]
        exact (if_pos hsees).mpr rfl
    | goesOn hevent hnot hrest =>
        rw [hevent]
        exact (if_neg hnot).mpr hrest
  · intro h
    cases hanswer : source calls with
    | error fault =>
        rw [hanswer] at h
        rw [h]
        exact .fails hanswer
    | ok event? =>
        rw [hanswer] at h
        cases event? with
        | none =>
            rw [h]
            exact .ends hanswer
        | some event =>
            by_cases hsees : sees cancel (calls + 1)
            · rw [(if_pos hsees).mp h]
              exact .stops hanswer hsees
            · exact .goesOn hanswer hsees ((if_neg hsees).mp h)

/-- **A stream is read by the program** as it is read call by call.  The induction is on the stream,
    which the source has to follow from the present call on. -/
theorem reads_iff_read {stream : List (Except StreamFault Event)}
    (h : ∀ i, source (calls + i) = EventSource.ofStream stream i) :
    Reads cancel source r calls outcome ↔ outcome = read cancel r calls stream := by
  induction stream generalizing r calls with
  | nil => rw [reads_iff, show source calls = _ from h 0]; exact Iff.rfl
  | cons answer stream ih =>
      rw [reads_iff, show source calls = _ from h 0]
      cases answer with
      | error fault => exact Iff.rfl
      | ok event =>
          have hrest := @ih (r.handle event) (calls + 1) fun i => by
            rw [Nat.add_assoc, Nat.add_comm 1 i]
            exact h (i + 1)
          show (if sees cancel (calls + 1) then _ else _) ↔ outcome = if sees cancel (calls + 1) then _ else _
          by_cases hsees : sees cancel (calls + 1)
          · rw [if_pos hsees, if_pos hsees]
          · rw [if_neg hsees, if_neg hsees, hrest]

/-- **As long as no look finds the flag set** a run goes on from call to call.  The events of these
    calls are recorded, and none of them can end the run. -/
theorem reads_iff_of_quiet {calls : Nat} (hyields : source.Yields calls)
    (hquiet : ∀ look ≤ calls, 0 < look → ¬ sees cancel look) :
    Reads cancel source r 0 outcome ↔ Reads cancel source (source.recorded r calls) calls outcome := by
  induction calls with
  | zero => exact Iff.rfl
  | succ calls ih =>
      obtain ⟨event, hevent⟩ := hyields calls (Nat.lt_succ_self _)
      have hbefore := ih (fun call hcall => hyields call (Nat.lt_succ_of_lt hcall))
        (fun look hlook => hquiet look (Nat.le_succ_of_le hlook))
      rw [hbefore, reads_iff, EventSource.recorded, hevent]
      exact iff_of_eq (if_neg (hquiet _ (Nat.le_refl _) (Nat.succ_pos _)))

/-! ## The run on a source -/

/-- What a run yields whose source was read. -/
def conclude (boundary : Option (StringIndex → Bool)) (cancel : Cancellation) :
    Except RunFailure Recording × Nat → Except RunFailure Profile × Nat
  | (.error failure, calls) => (.error failure, calls)
  | (.ok recording, calls) =>
    (profile (cancel.isSetAfter calls) (boundary.getD recording.stops.isStop) recording, calls)

/-- A run on a source comes to an outcome, and has called the source so many times. -/
def Runs (stopNames : List String) (boundary : Option (StringIndex → Bool)) (cancel : Cancellation)
    (source : EventSource) (outcome : Except RunFailure Profile × Nat) : Prop :=
  ∃ reading, Reads cancel source (Recording.start stopNames) 0 reading ∧
    outcome = conclude boundary cancel reading

variable {stopNames : List String} {boundary : Option (StringIndex → Bool)}
  {outcome : Except RunFailure Profile × Nat}

/-- **On a stream that ends** the runs are those of the program. -/
theorem runs_ofStream_iff {stream : List (Except StreamFault Event)} :
    Runs stopNames boundary cancel (EventSource.ofStream stream) outcome ↔
      outcome = run stopNames boundary cancel stream := by
  have hread (reading : Except RunFailure Recording × Nat) :
      Reads cancel (EventSource.ofStream stream) (Recording.start stopNames) 0 reading ↔
        reading = read cancel (Recording.start stopNames) 0 stream :=
    reads_iff_read fun i => by rw [Nat.zero_add]
  have hrun : run stopNames boundary cancel stream
      = conclude boundary cancel (read cancel (Recording.start stopNames) 0 stream) := rfl
  rw [Runs, hrun]
  simp only [hread, exists_eq_left]

/-- What reading comes to decides what the run comes to. -/
theorem runs_iff_of_reads {reading : Except RunFailure Recording × Nat}
    (h : ∀ reading', Reads cancel source (Recording.start stopNames) 0 reading' ↔ reading' = reading) :
    Runs stopNames boundary cancel source outcome ↔ outcome = conclude boundary cancel reading := by
  rw [Runs]
  simp only [h, exists_eq_left]

section

variable {calls : Nat} (hyields : source.Yields calls)
  (hquiet : ∀ look ≤ calls, 0 < look → ¬ sees cancel look)

include hyields hquiet

/-- A source that fails before any look finds the flag set ends the run with its fault. -/
theorem runs_failed_iff {fault : StreamFault} (h : source calls = .error fault) :
    Runs stopNames boundary cancel source outcome ↔ outcome = (.error (.stream fault), calls + 1) := by
  show _ ↔ outcome = conclude boundary cancel (.error (.stream fault), calls + 1)
  refine runs_iff_of_reads fun reading => ?_
  rw [reads_iff_of_quiet hyields hquiet, reads_iff, h]

/-- A source that ends before any look finds the flag set leaves the outcome to the later stages. -/
theorem runs_ended_iff (h : source calls = .ok none) :
    Runs stopNames boundary cancel source outcome ↔
      outcome = conclude boundary cancel
        (.ok (source.recorded (Recording.start stopNames) calls).finish, calls + 1) := by
  refine runs_iff_of_reads fun reading => ?_
  rw [reads_iff_of_quiet hyields hquiet, reads_iff, h]

/-- A look that finds the flag set behind an event ends the run. -/
theorem runs_stopped_iff {event : Event} (h : source calls = .ok (some event))
    (hsees : sees cancel (calls + 1)) :
    Runs stopNames boundary cancel source outcome ↔ outcome = (.error .cancelled, calls + 1) := by
  show _ ↔ outcome = conclude boundary cancel (.error .cancelled, calls + 1)
  refine runs_iff_of_reads fun reading => ?_
  rw [reads_iff_of_quiet hyields hquiet, reads_iff, h]
  exact iff_of_eq (if_pos hsees)

end

/-! ## The first look at a set flag -/

/-- The first full batch of events behind which a flag is seen that is set before the given call. -/
def nextLook (n : Nat) : Nat :=
  (max n 1 + (eventsPerCancelCheck - 1)) / eventsPerCancelCheck * eventsPerCancelCheck

theorem isLeast_nextLook (n : Nat) :
    IsLeast {look | eventsPerCancelCheck ∣ look ∧ max n 1 ≤ look} (nextLook n) := by
  have hbatch : eventsPerCancelCheck = 4096 := rfl
  refine ⟨⟨Nat.dvd_mul_left _ _, ?_⟩, ?_⟩
  · rw [nextLook, hbatch]
    omega
  · rintro look ⟨⟨batches, rfl⟩, hle⟩
    rw [nextLook, hbatch] at *
    omega

theorem sees_some_iff {n look : Nat} :
    sees (some n) look ↔ eventsPerCancelCheck ∣ look ∧ n ≤ look := by
  rw [sees, Nat.dvd_iff_mod_eq_zero, Cancellation.isSetAfter, Option.any_some, decide_eq_true_iff]

/-- No look before the first one finds the flag set. -/
theorem quiet_before {n calls : Nat} (h : calls < nextLook n) :
    ∀ look ≤ calls, 0 < look → ¬ sees (some n) look := by
  intro look hlook hpos hsees
  obtain ⟨hdvd, hle⟩ := sees_some_iff.1 hsees
  have hleast := (isLeast_nextLook n).2 ⟨hdvd, Nat.max_le.2 ⟨hle, hpos⟩⟩
  omega

/-- Nobody finds a flag set that is never set. -/
theorem quiet_none {calls : Nat} : ∀ look ≤ calls, 0 < look → ¬ sees none look := by
  rintro look - - ⟨-, hset⟩
  exact Bool.noConfusion hset

variable {n : Nat}

/-- **A source that yields enough events** is called until the first look at the set flag.  Looks are
    taken at every 4096th call, so that is the one where the run ends. -/
theorem runs_cancelled_iff (hyields : source.Yields (nextLook n)) :
    Runs stopNames boundary (some n) source outcome ↔ outcome = (.error .cancelled, nextLook n) := by
  obtain ⟨⟨hdvd, hle⟩, -⟩ := isLeast_nextLook n
  obtain ⟨calls, hcalls⟩ : ∃ calls, nextLook n = calls + 1 := ⟨nextLook n - 1, by omega⟩
  have hsees : sees (some n) (nextLook n) := sees_some_iff.2 ⟨hdvd, Nat.le_trans (Nat.le_max_left _ _) hle⟩
  rw [hcalls] at hyields hsees ⊢
  obtain ⟨event, hevent⟩ := hyields calls (Nat.lt_succ_self _)
  exact runs_stopped_iff (fun call hcall => hyields call (Nat.lt_succ_of_lt hcall))
    (quiet_before (by omega)) hevent hsees

/-- **A flag that was set by the end of a source** is seen there, whatever the later stages would find. -/
theorem conclude_of_set {recording : Recording} {calls : Nat} (h : n ≤ calls) :
    conclude boundary (some n) (.ok recording, calls) = (.error .cancelled, calls) := by
  have hset : Cancellation.isSetAfter (some n) calls = true := decide_eq_true h
  rw [conclude, hset]
  rfl

/-- A flag that was not set by the end of a source is never seen. -/
theorem conclude_of_unset {recording : Recording} {calls : Nat} (h : calls < n) :
    conclude boundary (some n) (.ok recording, calls) = conclude boundary none (.ok recording, calls) := by
  have hset : Cancellation.isSetAfter (some n) calls = false := decide_eq_false (Nat.not_le.2 h)
  rw [conclude, conclude, hset]
  rfl

/-- A run with a flag comes to just one outcome, and to no profile and no violation once the flag is
    set.  Also a source without an end cannot keep it from ending. -/
theorem exists_outcome (stopNames : List String) (boundary : Option (StringIndex → Bool))
    (source : EventSource) (n : Nat) :
    ∃ outcome, (∀ outcome', Runs stopNames boundary (some n) source outcome' ↔ outcome' = outcome) ∧
      (n ≤ outcome.2 → outcome.1 = .error .cancelled ∨ ∃ fault, outcome.1 = .error (.stream fault)) := by
  rcases source.yields_or (nextLook n) with hyields | ⟨call, hcall, hyields, hend | ⟨fault, hfault⟩⟩
  · exact ⟨_, fun _ => runs_cancelled_iff hyields, fun _ => Or.inl rfl⟩
  · refine ⟨_, fun _ => runs_ended_iff hyields (quiet_before hcall) hend, fun hset => Or.inl ?_⟩
    exact congrArg Prod.fst (conclude_of_set hset)
  · exact ⟨_, fun _ => runs_failed_iff hyields (quiet_before hcall) hfault, fun _ => Or.inr ⟨fault, rfl⟩⟩

/-- **Cancellation is prompt, and all or nothing.**  Let the flag be set before the `n`-th call of a source,
and `p` be the first full batch that is no less than `n`.  If the source yields `p` events, the run is
cancelled behind them.  If it fails before that, the run fails with that fault; if it ends before that but
not before the flag is set, the run is cancelled at the end; and if it ends before the flag is set, the run
comes to what it comes to without a flag.  It always comes to just one outcome, and once the flag is set
that is neither a profile nor a violation.  On a stream that ends all this is said of the program. -/
theorem cancelled_run_settles (stopNames : List String) (boundary : Option (StringIndex → Bool))
    (source : EventSource) (n : Nat) :
    let p := nextLook n
    IsLeast {look | 4096 ∣ look ∧ max n 1 ≤ look} p ∧
    (source.Yields p → ∀ outcome, Runs stopNames boundary (some n) source outcome ↔
      outcome = (.error .cancelled, p)) ∧
    (∀ m < p, source.Yields m → ∀ fault, source m = .error fault →
      ∀ outcome, Runs stopNames boundary (some n) source outcome ↔
        outcome = (.error (.stream fault), m + 1)) ∧
    (∀ k < p, source.Yields k → source k = .ok none →
      (n ≤ k + 1 → ∀ outcome, Runs stopNames boundary (some n) source outcome ↔
        outcome = (.error .cancelled, k + 1)) ∧
      (k + 1 < n → ∀ outcome, Runs stopNames boundary (some n) source outcome ↔
        Runs stopNames boundary none source outcome)) ∧
    (∃! outcome, Runs stopNames boundary (some n) source outcome) ∧
    (∀ result calls, Runs stopNames boundary (some n) source (result, calls) → n ≤ calls →
      result = .error .cancelled ∨ ∃ fault, result = .error (.stream fault)) ∧
    ∀ stream cancel outcome, Runs stopNames boundary cancel (EventSource.ofStream stream) outcome ↔
      outcome = run stopNames boundary cancel stream := by
  intro p
  obtain ⟨settled, hsettled, hfailed⟩ := exists_outcome stopNames boundary source n
  refine ⟨isLeast_nextLook n, fun hyields outcome => runs_cancelled_iff hyields, ?fails, ?ends,
    ⟨settled, (hsettled _).2 rfl, fun _ => (hsettled _).1⟩, ?failed,
    fun stream cancel outcome => runs_ofStream_iff⟩
  case fails =>
    exact fun m hm hyields fault hfault outcome => runs_failed_iff hyields (quiet_before hm) hfault
  case ends =>
    intro k hk hyields hend
    refine ⟨fun hset outcome => ?_, fun hunset outcome => ?_⟩
    · rw [runs_ended_iff hyields (quiet_before hk) hend, conclude_of_set hset]
    · rw [runs_ended_iff hyields (quiet_before hk) hend, conclude_of_unset hunset,
        runs_ended_iff hyields quiet_none hend]
  case failed =>
    intro result calls hruns hset
    obtain rfl := (hsettled _).1 hruns
    exact hfailed hset

/-- A source that never ends. -/
def endlessSource : EventSource := fun _ => .ok (some (.debuggee "./app"))

/-- On a source that never ends, a flag that is set before the run is seen behind the first batch, and one that
is set within the second batch behind that. -/
theorem cancelled_run_settles_endless :
    Runs [] none (some 0) endlessSource (.error .cancelled, 4096) ∧
      Runs [] none (some 4097) endlessSource (.error .cancelled, 8192) :=
  ⟨((cancelled_run_settles [] none endlessSource 0).2.1 (fun _ _ => ⟨_, rfl⟩) _).2 rfl,
    ((cancelled_run_settles [] none endlessSource 4097).2.1 (fun _ _ => ⟨_, rfl⟩) _).2 rfl⟩

end Run

end HeapProfile
