import HeapProfile.Proofs.Inversion
import HeapProfile.Proofs.Running

/-!
# Conservation — the totals of a run are the totals of its forests

The summary counts while events arrive, the forests are built from the records when all of them are
in.  Both count the same: the ledger is balanced, merging spreads every record over a path that is
not empty, and inverting keeps the total.

* **`toNat_totalCost_merge`** — the roots of a bottom-up forest together cost what its records cost,
  if every record has a node;
* **`Run.run_conserves_cost`** — in every run that yields a profile, both forests cost in total what
  the summary says.

The one thing that a forest can lose is a record whose number refers to no node at all, since its
path is empty.  `Event.PathsKnown` excludes just that; whatever else the numbers of a trace refer to
only changes where a record's cost goes.
-/

namespace HeapProfile

/-- Every allocation is on a call path that some event interns, before or behind it. -/
def Event.PathsKnown (events : List Event) : Prop :=
  ∀ trace size, .alloc trace size ∈ events →
    1 ≤ trace.raw.toNat ∧ trace.raw.toNat ≤ nodeCount events

namespace BottomUp

variable {tables : Tables} {stop : StringIndex → Bool} {records : List Record}
  {resolver : Resolver} {t : CostTree}

/-- A record whose number refers to a node is charged to some row. -/
theorem walkedPath_ne_nil (h : (merge tables stop records resolver).2 = .ok t) {record : Record}
    (hrecord : record ∈ records) (hnode : tables.trace? record.trace ≠ none) :
    walkedPath tables stop resolver record ≠ [] := by
  have hframes := (walks_of_merge h hrecord).ne_nil hnode
  rw [walkedPath, Resolver.locatePath]
  exact fun hnil => hframes (List.map_eq_nil_iff.1 hnil)

/-- **The roots of a bottom-up forest cost what the records cost.**  Every record is charged to some
    root, provided that its number refers to a node. -/
theorem toNat_totalCost_merge (h : (merge tables stop records resolver).2 = .ok t)
    (hnodes : ∀ record ∈ records, tables.trace? record.trace ≠ none) (f : CostField) :
    (t.totalCost.get f).toNat = min (Cost.amount f (records.map Record.cost)) wordMax := by
  obtain ⟨hs, -, htrie⟩ := TreeBuilder.trie_of_finish (charges_of_merge h).2
  have hne : ∀ e ∈ charges tables stop resolver records, e.1 ≠ [] := by
    intro e he
    obtain ⟨record, hrecord, rfl⟩ := List.mem_map.1 he
    exact walkedPath_ne_nil h hrecord (hnodes record hrecord)
  rw [htrie.toNat_totalCost hs hne, map_snd_charges]

/-- Inverting what merging yields keeps its total. -/
theorem totalCost_invert_merge (h : (merge tables stop records resolver).2 = .ok t) {d : CostTree}
    (hd : t.invert = .ok d) : d.totalCost = t.totalCost := by
  obtain ⟨⟨_, hfinish⟩, hc⟩ := finished_covering_of_merge h
  exact CostTree.totalCost_invert (TreeBuilder.finish_linked hfinish) hc hd

end BottomUp

namespace Run

variable {stopNames : List String} {events : List Event}

/-- The ledger of a recording is balanced with the bytes that its events allocate. -/
theorem balanced_recordingOf (stopNames : List String) (events : List Event) :
    (recordingOf stopNames events).ledger.Balanced (Event.allocatedBytes events) := by
  have hrun := Ledger.balanced_enterAll Ledger.balanced_empty events
  rw [Nat.zero_add, ← ledger_recordingOf stopNames] at hrun
  exact hrun

/-- Where all paths are known, the number of every record refers to a node.  Behind the record stands an
    allocation, and nodes that were known then are known at the end. -/
theorem trace_ne_none_of_known (hknown : Event.PathsKnown events) {record : Record}
    (hrecord : record ∈ (recordingOf stopNames events).ledger.records.toList) :
    (recordingOf stopNames events).tables.trace? record.trace ≠ none := by
  rw [ledger_recordingOf] at hrecord
  have hsize := Tables.size_traces_enterAll events {}
  rcases Ledger.alloc_of_mem_enterAll hrecord with ⟨size, halloc⟩ | ⟨_, hnone, -⟩
  · obtain ⟨hone, hcount⟩ := hknown _ size halloc
    rw [tables_recordingOf]
    refine Tables.trace?_ne_none hone ?_
    rw [hsize]
    exact Nat.le_trans hcount (Nat.le_add_left _ _)
  · exact absurd hnone List.not_mem_nil

/-- **A run conserves cost.**  If a run yields a profile, and every allocation of its stream is on a
    call path that the stream interns, then both forests cost in total the allocations and the bytes
    of the summary, cut off or not, and they leak the bytes of the summary whenever all allocated
    bytes together fit into a word. -/
theorem run_conserves_cost {stopNames : List String} {boundary : Option (StringIndex → Bool)}
    {cancel : Cancellation} {stream : List (Except StreamFault Event)} {p : Profile}
    (h : (run stopNames boundary cancel stream).1 = .ok p)
    (hknown : Event.PathsKnown (eventsOf stream)) :
    ∀ t ∈ [p.bottomUp, p.topDown],
      t.totalCost.allocated = p.summary.totalAllocated ∧
      t.totalCost.allocations = p.summary.totalAllocations ∧
      (Event.allocatedBytes (eventsOf stream) ≤ wordMax →
        t.totalCost.leaked = p.summary.leaked) := by
  obtain ⟨_, _, hprofile⟩ := run_ok h
  obtain ⟨hmerge, hinvert, hsummary⟩ := profile_ok hprofile
  have hsame := BottomUp.totalCost_invert_merge hmerge hinvert
  have hbalanced := balanced_recordingOf stopNames (eventsOf stream)
  have hroots := BottomUp.toNat_totalCost_merge hmerge fun _ => trace_ne_none_of_known hknown
  -- the top-down forest has the total of the bottom-up one, so one tree is left
  suffices hgoal : p.bottomUp.totalCost.allocated = p.summary.totalAllocated ∧
      p.bottomUp.totalCost.allocations = p.summary.totalAllocations ∧
      (Event.allocatedBytes (eventsOf stream) ≤ wordMax →
        p.bottomUp.totalCost.leaked = p.summary.leaked) by
    intro t ht
    rcases List.mem_cons.1 ht with rfl | ht
    · exact hgoal
    · rw [List.mem_singleton.1 ht, hsame]
      exact hgoal
  rw [hsummary]
  refine ⟨?_, ?_, ?_⟩
  · exact UInt64.toNat.inj ((hroots .allocated).trans hbalanced.allocated.symm)
  · exact UInt64.toNat.inj ((hroots .allocations).trans hbalanced.allocations.symm)
  · intro hfits
    obtain ⟨htotal, hle⟩ := hbalanced.leaked hfits
    refine UInt64.toNat.inj ((hroots .leaked).trans ?_)
    rw [← Ledger.held, Nat.min_eq_left (Nat.le_trans hle hfits), ← htotal]
    rfl

/-- An allocation on a path that is interned behind it, an address and a caller that are not known,
    a free of more than is held and one on no path, and a walk that is cut at `main`. -/
def sampleStream : List (Except StreamFault Event) :=
  [.string "main", .string "work", .ip { address := 16, function := ⟨1⟩ },
    .ip { address := 32, function := ⟨2⟩ }, .trace { ip := ⟨1⟩ }, .alloc ⟨2⟩ 10,
    .trace { ip := ⟨2⟩, parent := ⟨1⟩ }, .trace { ip := ⟨9⟩, parent := ⟨77⟩ }, .alloc ⟨3⟩ 5,
    .timestamp 4, .free ⟨2⟩ 100, .free ⟨8⟩ 1, .alloc ⟨1⟩ 1].map .ok

theorem run_conserves_cost_sample :
    ∃ p, (run ["main"] none none sampleStream).1 = .ok p ∧
      Event.PathsKnown (eventsOf sampleStream) ∧
      Event.allocatedBytes (eventsOf sampleStream) ≤ wordMax ∧
      ∀ t ∈ [p.bottomUp, p.topDown],
        t.totalCost.allocated = p.summary.totalAllocated ∧
        t.totalCost.allocations = p.summary.totalAllocations ∧
        t.totalCost.leaked = p.summary.leaked := by
  have hsome : (run ["main"] none none sampleStream).1.toOption.isSome = true := by decide +kernel
  obtain ⟨p, hp⟩ : ∃ p, (run ["main"] none none sampleStream).1 = .ok p := by
    cases hrun : (run ["main"] none none sampleStream).1 with
    | error _ => rw [hrun] at hsome; exact Bool.noConfusion hsome
    | ok p => exact ⟨p, rfl⟩
  have hknown : Event.PathsKnown (eventsOf sampleStream) := by
    intro trace size hmem
    simp only [eventsOf, sampleStream, List.map_cons, List.map_nil, List.filterMap_cons,
      Except.toOption, List.filterMap_nil, List.mem_cons, reduceCtorEq, Event.alloc.injEq,
      List.not_mem_nil, false_or, or_false] at hmem
    rcases hmem with ⟨rfl, -⟩ | ⟨rfl, -⟩ | ⟨rfl, -⟩ <;> decide
  have hfits : Event.allocatedBytes (eventsOf sampleStream) ≤ wordMax := by decide
  refine ⟨p, hp, hknown, hfits, ?_⟩
  intro t ht
  obtain ⟨hallocated, hallocations, hleaked⟩ := run_conserves_cost hp hknown t ht
  exact ⟨hallocated, hallocations, hleaked hfits⟩

end Run

end HeapProfile
