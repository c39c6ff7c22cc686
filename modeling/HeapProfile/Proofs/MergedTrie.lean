import HeapProfile.BottomUp
import HeapProfile.Proofs.Locating
import HeapProfile.Proofs.Trie

/-!
# The merged trie — what a bottom-up forest says about its records

Merging charges the cost of every record to the locations of its walk.  So a forest that merging
yields is the trie of the walked paths, whatever the records, the tables and the stops are: shared
beginnings, recursion, paths that end inside others and costs that saturate need no case of their
own.

* **`charges_of_merge`** — a merge that succeeds has charged every record, and every walk has ended;
* **`passes_walkedPath`** — the paths that it charged are those of the tables, whatever the resolver was asked
  before;
* **`merge_isTrieOf`** — its forest is the trie of these paths.
-/

namespace HeapProfile

/-- Rewording a failure makes no success of it. -/
theorem mapError_eq_ok {ε ε' α : Type} {reword : ε → ε'} {outcome : Except ε α} {a : α} :
    outcome.mapError reword = .ok a ↔ outcome = .ok a := by
  cases outcome with
  | error _ => simp [Except.mapError]
  | ok _ => simp [Except.mapError]

namespace Resolver

/-- The strings alone decide what an address is called. -/
theorem locatePath_congr {r r' : Resolver} (h : r.strings = r'.strings) (frames : List Ip) :
    r.locatePath frames = r'.locatePath frames := by
  have htext : r.text = r'.text := by
    funext i
    rw [text, text, h]
  refine List.map_congr_left ?_
  intro ip _
  rw [locate, locate, functionName, functionName, htext]

end Resolver

namespace BottomUp

variable (tables : Tables) (stop : StringIndex → Bool)

/-- The locations that a record's walk meets, named by a resolver that knows all strings of the
    tables. -/
def walkedPath (resolver : Resolver) (record : Record) : List Location :=
  (resolver.sync tables.strings.entries).locatePath (tables.walk stop record.trace).frames

/-- Every record as a charge to its walked path. -/
def charges (resolver : Resolver) (records : List Record) : List Charge :=
  records.map fun record => (walkedPath tables stop resolver record, record.cost)

variable {tables stop}

theorem map_snd_charges (resolver : Resolver) (records : List Record) :
    (charges tables stop resolver records).map Prod.snd = records.map Record.cost := by
  rw [charges, List.map_map]
  rfl

/-- Charging the records one by one is charging their paths, as long as all walks end.  The resolver
    changes on the way, but its strings do not, and these alone name the locations. -/
theorem chargeRecords_ok {records : List Record} {resolver current : Resolver}
    {b b' : TreeBuilder}
    (hstrings : current.strings = (resolver.sync tables.strings.entries).strings)
    (h : (chargeRecords tables stop records current b).2 = .ok b') :
    (∀ record ∈ records, (tables.walk stop record.trace).ended = true) ∧
      b' = (charges tables stop resolver records).foldl
        (fun b e => b.chargePath e.2 none e.1) b := by
  induction records generalizing current b with
  | nil =>
      cases h
      exact ⟨fun _ hr => absurd hr List.not_mem_nil, rfl⟩
  | cons record rest ih =>
      rw [chargeRecords] at h
      cases hended : (tables.walk stop record.trace).ended with
      | false =>
          rw [hended] at h
          exact nomatch h
      | true =>
          simp only [hended, if_true] at h
          -- noting addresses leaves the strings alone, and the strings alone decide the locations
          have hnoted : (List.foldl Resolver.note current
              (tables.walk stop record.trace).frames).strings
                = (resolver.sync tables.strings.entries).strings := by
            rw [Resolver.strings_foldl_note, hstrings]
          obtain ⟨hrest, hb'⟩ := ih hnoted h
          refine ⟨?_, ?_⟩
          · intro r hr
            rcases List.mem_cons.1 hr with rfl | hr
            · exact hended
            · exact hrest r hr
          · rw [hb', Resolver.locatePath_congr hnoted]
            rfl

/-- **A merge that succeeds** has come to the end of every walk, and has built and finished the
    charges of all records. -/
theorem charges_of_merge {records : List Record} {resolver : Resolver} {t : CostTree}
    (h : (merge tables stop records resolver).2 = .ok t) :
    (∀ record ∈ records, (tables.walk stop record.trace).ended = true) ∧
      (TreeBuilder.chargeAll (charges tables stop resolver records)).finish = .ok t := by
  rw [merge] at h
  obtain ⟨b, hcharged, hfinish⟩ := bind_eq_ok.1 h
  obtain ⟨hended, rfl⟩ := chargeRecords_ok rfl hcharged
  exact ⟨hended, mapError_eq_ok.1 hfinish⟩

/-- Behind a merge that succeeded stands the unbounded walk of every record. -/
theorem walks_of_merge {records : List Record} {resolver : Resolver} {t : CostTree}
    (h : (merge tables stop records resolver).2 = .ok t) {record : Record}
    (hrecord : record ∈ records) :
    tables.Walks stop record.trace (tables.walk stop record.trace).frames :=
  Tables.walks_of_ended _ _ ((charges_of_merge h).1 record hrecord)

/-- **The path that a record is charged to is the one that the tables give it**, by the numbers of its frames
    and by all strings, as long as the resolver had no strings but the first ones of the tables. -/
theorem passes_walkedPath {records : List Record} {resolver : Resolver} {t : CostTree}
    (h : (merge tables stop records resolver).2 = .ok t) (hknown : resolver.KnowsFirst tables)
    {record : Record} (hrecord : record ∈ records) :
    tables.Passes stop record.trace (walkedPath tables stop resolver record) := by
  have hlocate : (resolver.sync tables.strings.entries).locate = tables.location :=
    Resolver.locate_of_strings (Resolver.strings_sync hknown)
  refine ⟨_, walks_of_merge h hrecord, ?_⟩
  rw [walkedPath, Resolver.locatePath, hlocate]

/-- **A bottom-up forest is the trie of the walked paths.**  Every record's walk ends, and its path has the
    locations that the tables give to the frames it meets, named by a resolver that had no other strings than
    theirs.  A path has a row, and one only, if some walked path begins with it; and that row costs, field by
    field, the saturating sum over all records whose walked path begins with it. -/
theorem merge_isTrieOf {records : List Record} {resolver : Resolver} {t : CostTree}
    (h : (merge tables stop records resolver).2 = .ok t) :
    (∀ record ∈ records,
        tables.Walks stop record.trace (tables.walk stop record.trace).frames) ∧
      (resolver.KnowsFirst tables → ∀ record ∈ records,
        tables.Passes stop record.trace (walkedPath tables stop resolver record)) ∧
      t.IsTrieOf (charges tables stop resolver records) :=
  ⟨fun _ hrecord => walks_of_merge h hrecord, fun hknown _ hrecord => passes_walkedPath h hknown hrecord,
    (TreeBuilder.trie_of_finish (charges_of_merge h).2).2.2⟩

/-- Two ways into `work`: from nowhere, and from a `main` that was itself called by the first. -/
def sampleTables : Tables where
  strings := ⟨#["main", "work", "grow"]⟩
  ips := ⟨#[{ address := 16, function := ⟨1⟩ }, { address := 32, function := ⟨2⟩ },
    { address := 48, function := ⟨3⟩ }]⟩
  traces := ⟨#[{ ip := ⟨2⟩ }, { ip := ⟨1⟩, parent := ⟨1⟩ }, { ip := ⟨2⟩, parent := ⟨2⟩ },
    { ip := ⟨3⟩, parent := ⟨3⟩ }, { ip := ⟨3⟩, parent := ⟨1⟩ }, { ip := ⟨9⟩, parent := ⟨3⟩ }]⟩

/-- Walks that are cut at `main`, a path that ends inside another one, an address that is not known,
    and a record whose node is not known. -/
def sampleRecords (allocated : UInt64) : List Record :=
  [{ trace := ⟨4⟩, allocations := 1, allocated },
    { trace := ⟨5⟩, allocations := 2, allocated := 7 },
    { trace := ⟨6⟩, allocations := 1, leaked := 3, allocated := 3 },
    { trace := ⟨12⟩ }]

/-- Paths end at `main`. -/
def sampleStop (function : StringIndex) : Bool := function == ⟨1⟩

/-- The first record is charged along `grow`, `work` and `main`; `grow` and `work` have a row for two records,
    whose bytes are cut off at the largest word; and nothing is allocated in `work` itself. -/
theorem merge_isTrieOf_sample :
    ∃ t, (merge sampleTables sampleStop (sampleRecords UInt64.largest) {}).2 = .ok t ∧
      sampleTables.Passes sampleStop ⟨4⟩
        [{ function := "grow" }, { function := "work" }, { function := "main" }] ∧
      (∃ id, t.RowAt [{ function := "grow" }, { function := "work" }] id ∧
        ((t.row id).cost.get .allocations).toNat = 3 ∧
        ((t.row id).cost.get .allocated).toNat = wordMax) ∧
      ¬ ∃ id, t.RowAt [{ function := "work" }] id := by
  obtain ⟨t, ht⟩ : ∃ t,
      (merge sampleTables sampleStop (sampleRecords UInt64.largest) {}).2 = .ok t := ⟨_, by rfl⟩
  obtain ⟨-, hpasses, htrie⟩ := merge_isTrieOf ht
  have hfirst := hpasses (Resolver.knowsFirst_new _) _ List.mem_cons_self
  refine ⟨t, ht, hfirst, ?_, ?_⟩
  · obtain ⟨id, hid⟩ := (htrie.rowAt_iff [{ function := "grow" }, { function := "work" }]
      (List.cons_ne_nil _ _)).2 (by decide +kernel)
    exact ⟨id, hid, (htrie.cost hid _).trans (by decide +kernel),
      (htrie.cost hid _).trans (by decide +kernel)⟩
  · rw [htrie.rowAt_iff _ (List.cons_ne_nil _ _)]
    decide +kernel

end BottomUp

end HeapProfile
