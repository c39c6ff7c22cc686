import HeapProfile.Proofs.Interleaving
import HeapProfile.Proofs.Renumbering
import HeapProfile.Proofs.Samples
import HeapProfile.Tree.Flat

/-!
# Order independence — the trees of a run and the order of its events

Events that are rearranged give a recording with the same tables and stop names, and with the same
records in another order.  Merging goes through the records in their order, so it may number the
rows in another way; but which walks end does not depend on that order, and neither does the trie of
the walked paths, since sums of charges do not.  Inverting then takes the rows by location and
forgets their numbers.

* **`merge_perm`** — records in another order merge to the same forest, or fail as well;
* **`run_events`** — a run that nobody cancels yields the profile of the recording of its events,
  and fails for nothing but a walk that does not end;
* **`run_rearranged`** — so rearranged events give the same forest of callers under other numbers,
  and the same top-down tree to the number.
-/

namespace HeapProfile

namespace CostTree

/-- The trie of some charges does not depend on their order.  It speaks of their prefixes and their
    sums, and neither does. -/
theorem IsTrieOf.perm {t : CostTree} {charges charges' : List Charge} (h : t.IsTrieOf charges)
    (hperm : charges.Perm charges') : t.IsTrieOf charges' := by
  refine h.congr ?_ ?_
  · intro path _
    exact exists_congr fun e => and_congr_left fun _ => hperm.mem_iff
  · intro path _ f
    exact (((hperm.filter _).map Prod.snd).map fun cost => (cost.get f).toNat).sum_eq

end CostTree

namespace BottomUp

variable {tables : Tables} {stop : StringIndex → Bool} {records records' : List Record}
  {resolver resolver' : Resolver}

theorem exists_chargeRecords
    (h : ∀ record ∈ records, (tables.walk stop record.trace).ended = true) (current : Resolver)
    (b : TreeBuilder) : ∃ b', (chargeRecords tables stop records current b).2 = .ok b' := by
  induction records generalizing current b with
  | nil => exact ⟨b, rfl⟩
  | cons record rest ih =>
      rw [chargeRecords]
      simp only [h record List.mem_cons_self, if_true]
      exact ih (fun r hr => h r (List.mem_cons_of_mem _ hr)) _ _

/-- **Merging succeeds if and only if all walks end.**  There is no other way for it to fail, whatever
    the records cost. -/
theorem exists_merge_iff :
    (∃ t, (merge tables stop records resolver).2 = .ok t)
      ↔ ∀ record ∈ records, (tables.walk stop record.trace).ended = true := by
  constructor
  · rintro ⟨t, ht⟩
    exact (charges_of_merge ht).1
  · intro h
    obtain ⟨b, hb⟩ := exists_chargeRecords h (resolver.sync tables.strings.entries) {}
    obtain ⟨-, rfl⟩ := chargeRecords_ok rfl hb
    obtain ⟨t, ht⟩ := TreeBuilder.exists_trie (charges tables stop resolver records)
    refine ⟨t, bind_eq_ok.2 ⟨_, hb, ?_⟩⟩
    exact mapError_eq_ok.2 ht

/-- **Records in another order merge to the same forest** under other numbers, by any resolver that
    knows the same strings; and the inverse of it is the same tree. -/
theorem merge_perm (hperm : records.Perm records')
    (hstrings : (resolver.sync tables.strings.entries).strings
      = (resolver'.sync tables.strings.entries).strings) {t : CostTree}
    (h : (merge tables stop records resolver).2 = .ok t) :
    ∃ t', (merge tables stop records' resolver').2 = .ok t' ∧ t.SameForest t'
      ∧ (∃ σ, CostTree.Renumbers σ t t') ∧ t'.invert = t.invert := by
  have hended : ∀ record ∈ records', (tables.walk stop record.trace).ended = true :=
    fun record hrecord => (charges_of_merge h).1 record (hperm.mem_iff.2 hrecord)
  obtain ⟨t', ht'⟩ : ∃ t', (merge tables stop records' resolver').2 = .ok t' :=
    exists_merge_iff.2 hended
  have hpath : ∀ record, walkedPath tables stop resolver record
      = walkedPath tables stop resolver' record :=
    fun record => Resolver.locatePath_congr hstrings _
  have hcharges : (charges tables stop resolver records).Perm
      (charges tables stop resolver' records') := by
    have hsame : charges tables stop resolver records = charges tables stop resolver' records :=
      List.map_congr_left fun record _ => by rw [hpath]
    rw [hsame]
    exact hperm.map _
  obtain ⟨hs, hl, htrie⟩ := TreeBuilder.trie_of_finish (charges_of_merge h).2
  obtain ⟨hs', hl', htrie'⟩ := TreeBuilder.trie_of_finish (charges_of_merge ht').2
  have hforest := (htrie.perm hcharges).sameForest htrie'
  obtain ⟨σ, hσ⟩ := CostTree.exists_renumbers hs hl hs' hl' hforest
  exact ⟨t', ht', hforest, ⟨σ, hσ⟩, hσ.invert_eq hs hl⟩

end BottomUp

namespace Recording

theorem finished_finish (r : Recording) : r.finish.finished = true := by
  rw [finish]
  split
  · assumption
  · split <;> rfl

theorem stops_finish (r : Recording) : r.finish.stops = r.stops := by
  rw [finish]
  split
  · rfl
  · split <;> rfl

/-- A closed recording has its charts. -/
theorem Charted.exists_charts {r : Recording} (h : Charted r) (hclosed : r.finished = true) :
    ∃ charts, r.series.charts? = some charts := by
  have hfrozen : r.series.isFrozen = true := (h.frozen .consumed).trans hclosed
  refine Option.isSome_iff_exists.1 ((SeriesSet.isSome_charts? ?_).trans hfrozen)
  exact fun m => (h.frozen m).trans (h.frozen .consumed).symm

end Recording

namespace Run

/-- Nobody cancels, so all events are taken. -/
theorem read_events (events : List Event) (r : Recording) (taken : Nat) :
    read none r taken (events.map .ok)
      = (.ok (events.foldl Recording.handle r).finish, taken + events.length + 1) := by
  induction events generalizing r taken with
  | nil => rfl
  | cons event rest ih =>
      have hset : ¬ ((taken + 1) % eventsPerCancelCheck = 0
          ∧ Cancellation.isSetAfter none (taken + 1) = true) := fun h => Bool.noConfusion h.2
      rw [List.map_cons, read, if_neg hset, ih, List.foldl_cons, List.length_cons]
      exact congrArg (Prod.mk _) (by omega)

/-- What the profile of a recording is made of, where nobody cancels. -/
theorem profile_of_charts {recording : Recording} {charts : ChartSet}
    (hcharts : recording.series.charts? = some charts) (stop : StringIndex → Bool) :
    profile false stop recording
      = ((BottomUp.merge recording.tables stop recording.ledger.records.toList
          recording.resolver).2.mapError RunFailure.violation) >>= fun bottomUp =>
        (bottomUp.invert.mapError RunFailure.violation) >>= fun topDown =>
        .ok { summary := recording.summary, bottomUp, topDown, charts } := by
  rw [profile, hcharts]
  rfl

/-- **A run that nobody cancels** merges the records of all its events.  Where that succeeds the run
    yields the merged forest and its inverse, and otherwise it fails for a violation. -/
theorem run_events (stopNames : List String) (boundary : Option (StringIndex → Bool))
    (events : List Event) :
    let r := recordingOf stopNames events
    let merged := (BottomUp.merge r.tables (boundary.getD r.stops.isStop) r.ledger.records.toList
      r.resolver).2
    (∃ v, merged = .error v
        ∧ (run stopNames boundary none (events.map .ok)).1 = .error (.violation v)) ∨
      ∃ p, merged = .ok p.bottomUp ∧ p.bottomUp.invert = .ok p.topDown
        ∧ (run stopNames boundary none (events.map .ok)).1 = .ok p := by
  intro r merged
  have hrun : (run stopNames boundary none (events.map .ok)).1
      = profile false (boundary.getD r.stops.isStop) r := by
    rw [run, read_events]
    rfl
  obtain ⟨charts, hcharts⟩ : ∃ charts, r.series.charts? = some charts := by
    have hcharted : r.Charted := by
      rw [show r = _ from recordingOf_eq_after stopNames events]
      exact Recording.charted_after _ _
    exact hcharted.exists_charts (Recording.finished_finish _)
  rw [hrun, profile_of_charts hcharts]
  show (∃ v, merged = .error v ∧ merged.mapError RunFailure.violation >>= _ = _) ∨
    ∃ p : Profile, merged = .ok p.bottomUp ∧ _ ∧ merged.mapError RunFailure.violation >>= _ = _
  cases hmerged : merged with
  | error v => exact Or.inl ⟨v, rfl, rfl⟩
  | ok t =>
      obtain ⟨d, hd⟩ := t.exists_invert
      refine Or.inr ⟨{ summary := r.summary, bottomUp := t, topDown := d, charts }, rfl, hd, ?_⟩
      show t.invert.mapError RunFailure.violation >>= _ = _
      rw [hd]
      rfl

/-- Rearranged events are recorded in the same tables, stop names and records, these in an order of
    their own. -/
theorem recordingOf_rearranged {events events' : List Event} (h : Event.Rearranged events events')
    (stopNames : List String) :
    (recordingOf stopNames events).tables = (recordingOf stopNames events').tables ∧
      (recordingOf stopNames events).stops = (recordingOf stopNames events').stops ∧
      (recordingOf stopNames events).ledger.records.toList.Perm
        (recordingOf stopNames events').ledger.records.toList := by
  obtain ⟨htables, hstops⟩ :=
    Recording.tables_stops_rearranged h (Recording.start stopNames)
  refine ⟨?_, ?_, ?_⟩
  · rw [recordingOf, recordingOf, (Recording.ledger_tables_finish _).2,
      (Recording.ledger_tables_finish _).2]
    exact htables
  · rw [recordingOf, recordingOf, Recording.stops_finish, Recording.stops_finish]
    exact hstops
  · rw [ledger_recordingOf, ledger_recordingOf]
    exact Ledger.records_rearranged h List.nodup_nil

theorem strings_sync_recordingOf (stopNames : List String) (events : List Event) :
    ((recordingOf stopNames events).resolver.sync
      (recordingOf stopNames events).tables.strings.entries).strings
        = (recordingOf stopNames events).tables.strings.entries := by
  rw [recordingOf_eq_after]
  exact Recording.strings_sync_after stopNames _

/-- **The trees of a run do not depend on how its events are interleaved.**  Two runs that nobody
    cancels, on rearranged events and with the same boundary, both fail for a violation or both yield a
    profile.  The two bottom-up trees are then the same forest under other row numbers, and the two
    top-down trees are written the same, numbers included. -/
theorem run_rearranged {events events' : List Event} (h : Event.Rearranged events events')
    (stopNames : List String) (boundary : Option (StringIndex → Bool)) :
    (∃ v v', (run stopNames boundary none (events.map .ok)).1 = .error (.violation v) ∧
        (run stopNames boundary none (events'.map .ok)).1 = .error (.violation v')) ∨
      ∃ p p', (run stopNames boundary none (events.map .ok)).1 = .ok p ∧
        (run stopNames boundary none (events'.map .ok)).1 = .ok p' ∧
        p.bottomUp.SameForest p'.bottomUp ∧
        (∃ σ, CostTree.Renumbers σ p.bottomUp p'.bottomUp) ∧
        p.topDown.flat = p'.topDown.flat := by
  obtain ⟨htables, hstops, hrecords⟩ := recordingOf_rearranged h stopNames
  have hleft := strings_sync_recordingOf stopNames events
  have hright := strings_sync_recordingOf stopNames events'
  have hrun := run_events stopNames boundary events
  have hrun' := run_events stopNames boundary events'
  -- from here on there is one set of tables and one boundary
  rw [htables] at hleft
  simp only [htables, hstops] at hrun
  rcases hrun with ⟨v, hfail, hrun⟩ | ⟨p, hmerge, hinvert, hrun⟩
  · rcases hrun' with ⟨v', -, hrun'⟩ | ⟨p', hmerge', -, -⟩
    · exact Or.inl ⟨v, v', hrun, hrun'⟩
    · -- what merges in one order merges in the other
      obtain ⟨t, ht, -⟩ := BottomUp.merge_perm hrecords.symm (hright.trans hleft.symm) hmerge'
      rw [ht] at hfail
      cases hfail
  · obtain ⟨t', ht', hforest, hσ, hinverse⟩ :=
      BottomUp.merge_perm hrecords (hleft.trans hright.symm) hmerge
    rcases hrun' with ⟨v', hfail', -⟩ | ⟨p', hmerge', hinvert', hrun'⟩
    · rw [ht'] at hfail'
      cases hfail'
    · rw [hmerge', Except.ok.injEq] at ht'
      subst ht'
      rw [hinvert, hinvert', Except.ok.injEq] at hinverse
      exact Or.inr ⟨p, p', hrun, hrun', hforest, hσ, congrArg CostTree.flat hinverse.symm⟩

/-- Two call paths that end in `main`, allocations and frees on both, and one on no path. -/
def sampleEvents : List Event :=
  [.string "main", .string "work", .ip { address := 16, function := ⟨1⟩ },
    .ip { address := 32, function := ⟨2⟩ }, .trace { ip := ⟨1⟩ },
    .trace { ip := ⟨2⟩, parent := ⟨1⟩ }, .alloc ⟨2⟩ 10, .free ⟨2⟩ 4, .alloc ⟨1⟩ 7, .alloc ⟨2⟩ 1]

/-- The same, entered before most of it is interned and with time marks in between. -/
def rearrangedEvents : List Event :=
  [.string "main", .alloc ⟨1⟩ 7, .timestamp 3, .ip { address := 16, function := ⟨1⟩ },
    .alloc ⟨2⟩ 10, .trace { ip := ⟨1⟩ }, .ip { address := 32, function := ⟨2⟩ }, .free ⟨2⟩ 4,
    .trace { ip := ⟨2⟩, parent := ⟨1⟩ }, .debuggee "work", .timestamp 9, .alloc ⟨2⟩ 1,
    .string "work"]

theorem rearranged_sample : Event.Rearranged sampleEvents rearrangedEvents where
  strings := by rfl
  ips := by rfl
  traces := by rfl
  entries path := by
    by_cases hone : (⟨1⟩ : TraceIndex) = path
    · subst hone
      rfl
    · by_cases htwo : (⟨2⟩ : TraceIndex) = path
      · subst htwo
        rfl
      · simp [sampleEvents, rearrangedEvents, Event.concerns, hone, htwo]

/-- The rows of the bottom-up trees are numbered in different ways. -/
theorem run_rearranged_sample :
    Event.Rearranged sampleEvents rearrangedEvents ∧
      ∃ p p', (run ["main"] none none (sampleEvents.map .ok)).1 = .ok p ∧
        (run ["main"] none none (rearrangedEvents.map .ok)).1 = .ok p' ∧
        p.bottomUp ≠ p'.bottomUp ∧ p.bottomUp.SameForest p'.bottomUp ∧
        (∃ σ, CostTree.Renumbers σ p.bottomUp p'.bottomUp) ∧
        p.topDown.flat = p'.topDown.flat := by
  have hdiffer : ((run ["main"] none none (sampleEvents.map .ok)).1.toOption.map Profile.bottomUp
      ≠ (run ["main"] none none (rearrangedEvents.map .ok)).1.toOption.map Profile.bottomUp) := by
    decide +kernel
  have hsome : (run ["main"] none none (sampleEvents.map .ok)).1.toOption.isSome = true := by
    decide +kernel
  rcases run_rearranged rearranged_sample ["main"] none with ⟨v, _, hrun, -⟩ | ⟨p, p', hrun, hrun', h⟩
  · rw [hrun] at hsome
    exact Bool.noConfusion hsome
  · refine ⟨rearranged_sample, p, p', hrun, hrun', ?_, h⟩
    intro heq
    rw [hrun, hrun'] at hdiffer
    exact hdiffer (congrArg some heq)

end Run

end HeapProfile
