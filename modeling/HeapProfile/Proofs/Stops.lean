import HeapProfile.Proofs.Naming
import HeapProfile.Proofs.OrderIndependence

/-!
# Stops — where the call paths of a run end

A run ends its call paths at functions that are known by name, and the walk that follows a call path
knows functions by number alone.  What the two have in common is the table of strings: a number is a
stop exactly if the string that it refers to is a stop name, however often that name is interned and
however many strings there are.  So a frame that is shown under a stop name is a stop, unless it is
shown under its address or has no name at all.

* **`isStop_after`** — the numbers that are stops are those of the stop names in the table, and
* **`Recording.isStop_iff_named`** — so they lie between one and the number of strings interned so far;
* **`Walks.stop_eq_false`** — a walk goes on behind a frame only if the frame is no stop;
* **`BottomUp.isLeaf_of_stop`**, **`CostTree.mem_roots_of_leaf`** — rows of stops have nothing below
  them in the merged forest, and nothing above them in the inverted one;
* **`Run.stop_names_bound_forests`** — so stop names bound both forests of a run.
-/

namespace HeapProfile

/-! ## The numbers of stop names -/

namespace Table

variable {kind : Interned} {α : Type} {t : Table kind α}

/-- What is interned has the newest number, and no other number is touched. -/
theorem get?_push_of_ne {i : Index kind} {entry : α} (h : i ≠ (t.push entry).newest) :
    (t.push entry).get? i = t.get? i := by
  rw [get?, get?, push]
  by_cases hraw : i.raw = 0
  · rw [if_pos hraw, if_pos hraw]
  · rw [if_neg hraw, if_neg hraw, Array.getElem?_push, if_neg]
    intro hlast
    refine h ?_
    have hpos := Index.raw_ne_zero_iff.1 hraw
    have hsize : t.size = t.entries.size := rfl
    have hnumber : i.raw.toNat = t.size + 1 := by omega
    rw [newest, size_push, ← hnumber, UInt32.ofNat_toNat]

/-- The newest number refers to an entry, unless it is zero. -/
theorem exists_get?_newest {entry : α} (h : (t.push entry).newest.isNone = false) :
    ∃ value, (t.push entry).get? (t.push entry).newest = some value := by
  have hraw : (t.push entry).newest.raw ≠ 0 := by
    intro hzero
    rw [Index.isNone, hzero] at h
    exact Bool.noConfusion h
  -- numbers run over behind the last one, so the newest may be smaller than the table is large
  have hle : (t.push entry).newest.raw.toNat ≤ (t.push entry).size := by
    rw [newest, UInt32.toNat_ofNat']
    exact Nat.mod_le _ _
  exact exists_get?_iff.2 ⟨Index.raw_ne_zero_iff.1 hraw, hle⟩

end Table

namespace StopNames

/-- The numbers that are stops are those of the stop names in a table of strings. -/
def Agrees (stops : StopNames) (strings : Table .string String) : Prop :=
  ∀ i, stops.isStop i = true ↔ ∃ name ∈ stops.names, strings.get? i = some name

variable {stops : StopNames} {strings : Table .string String}

theorem isStop_observe (stops : StopNames) (index i : StringIndex) (value : String) :
    (stops.observe index value).isStop i
      = (stops.isStop i || (!i.isNone && stops.names.contains value && i == index)) := by
  rw [observe, isStop]
  split
  · rename_i hname
    rw [isStop, List.contains_cons, hname, Bool.and_true, ← Bool.and_or_distrib_left, Bool.or_comm]
  · rename_i hname
    rw [isStop, Bool.eq_false_iff.2 hname, Bool.and_false, Bool.false_and, Bool.or_false]

/-- **Noticing a string that was interned** keeps the numbers of the stop names.  A name may be interned
    twice, and then the stop names have both numbers. -/
theorem Agrees.observe (h : stops.Agrees strings) (value : String) :
    (stops.observe (strings.push value).newest
      (((strings.push value).get? (strings.push value).newest).getD "")).Agrees
        (strings.push value) := by
  intro i
  have hnames : (stops.observe (strings.push value).newest
      (((strings.push value).get? (strings.push value).newest).getD "")).names = stops.names := by
    rw [StopNames.observe]
    split <;> rfl
  rw [hnames, isStop_observe, Bool.or_eq_true, h i]
  by_cases hi : i = (strings.push value).newest
  · subst hi
    cases hnone : (strings.push value).newest.isNone with
    | true =>
        have hraw : (strings.push value).newest.raw = 0 := beq_iff_eq.1 hnone
        rw [Table.get?, Table.get?, if_pos hraw, if_pos hraw]
        simp
    | false =>
        obtain ⟨entry, hentry⟩ := Table.exists_get?_newest hnone
        rw [hentry, Option.getD_some, beq_self_eq_true, Bool.not_false, Bool.true_and,
          Bool.and_true, List.contains_iff_mem]
        constructor
        · rintro (⟨name, hname, hold⟩ | hnew)
          · -- where numbers ran over, the entry is the one there was
            rw [Table.get?_push_of_some hold value] at hentry
            exact ⟨name, hname, hentry ▸ rfl⟩
          · exact ⟨entry, hnew, rfl⟩
        · rintro ⟨name, hname, heq⟩
          rw [Option.some.inj heq]
          exact Or.inr hname
  · rw [Table.get?_push_of_ne hi, beq_false_of_ne hi, Bool.and_false]
    exact or_iff_left Bool.false_ne_true

end StopNames

namespace Recording

theorem agrees_handle {r : Recording} (h : r.stops.Agrees r.tables.strings) (event : Event) :
    (r.handle event).stops.Agrees (r.handle event).tables.strings := by
  cases event with
  | string value => exact h.observe value
  | timestamp stamp =>
      rw [handle]
      split
      · exact h
      · exact h
  | _ => exact h

theorem names_handle (r : Recording) (event : Event) :
    (r.handle event).stops.names = r.stops.names := by
  cases event with
  | string value =>
      show (StopNames.observe _ _ _).names = _
      rw [StopNames.observe]
      split <;> rfl
  | timestamp stamp =>
      rw [handle]
      split <;> rfl
  | _ => rfl

/-- **The numbers that are stops are those of the stop names in the table.**  By induction on the calls;
    only a string that is interned can change either side, and then both change alike. -/
theorem isStop_after (stopNames : List String) (calls : List Call) (i : StringIndex) :
    (after stopNames calls).stops.isStop i = true ↔
      ∃ name ∈ stopNames, (after stopNames calls).tables.strings.get? i = some name := by
  have hagrees : (after stopNames calls).stops.Agrees (after stopNames calls).tables.strings ∧
      (after stopNames calls).stops.names = stopNames := by
    induction calls using List.reverseRecOn with
    | nil =>
        refine ⟨fun i => iff_of_false ?_ ?_, rfl⟩
        · show ¬ (!i.isNone && false) = true
          rw [Bool.and_false]
          exact Bool.false_ne_true
        · rintro ⟨name, -, hname⟩
          exact nomatch Array.mem_toList_iff.2 (Table.mem_of_get? hname)
    | append_singleton calls call ih =>
        rw [after_concat]
        cases call with
        | handle event => exact ⟨agrees_handle ih.1 event, (names_handle _ event).trans ih.2⟩
        | finish =>
            rw [take, stops_finish, (ledger_tables_finish _).2]
            exact ih
  rw [hagrees.1 i, hagrees.2]

end Recording

/-- The string that an event interns, if it interns one. -/
def Event.interned? : Event → Option String
  | .string value => some value
  | _ => none

/-- **The table of strings** holds what the events intern, in their order and with all repetitions.  So
    the number of a string is known from the events alone. -/
theorem Tables.strings_enterAll (events : List Event) (t : Tables) :
    (events.foldl enter t).strings.entries.toList
      = t.strings.entries.toList ++ events.filterMap Event.interned? := by
  induction events generalizing t with
  | nil => exact (List.append_nil _).symm
  | cons event rest ih =>
      rw [List.foldl_cons, ih]
      cases event with
      | string value =>
          rw [List.filterMap_cons_some (show Event.interned? (.string value) = some value from rfl),
            enter, pushString, Table.push, Array.toList_push, List.append_assoc]
          rfl
      | _ => rfl

/-- **Stops match names exactly.**  Behind any events and closings the table holds the strings interned
    so far, and a number is a stop if and only if it is one of theirs and its string is a stop name.
    Strings may be repeated, and numbers that refer to no string, which are read as the empty string
    as well, are no stops even where that is a stop name. -/
theorem Recording.isStop_iff_named (stopNames : List String) (calls : List Call) (i : StringIndex) :
    let r := after stopNames calls
    let strings := (events calls).filterMap Event.interned?
    r.tables.strings.entries.toList = strings ∧
      (r.stops.isStop i = true ↔
        (1 ≤ i.raw.toNat ∧ i.raw.toNat ≤ strings.length) ∧ r.tables.string i ∈ stopNames) := by
  intro r strings
  have hstrings : r.tables.strings.entries.toList = strings := by
    rw [show r.tables = _ from tables_after stopNames calls, Tables.strings_enterAll]
    rfl
  have hcount : strings.length = r.tables.strings.size := by
    rw [← hstrings, Array.length_toList]
    rfl
  refine ⟨hstrings, ?_⟩
  rw [show r.stops.isStop i = true ↔ _ from isStop_after stopNames calls i, hcount,
    ← Table.exists_get?_iff]
  constructor
  · rintro ⟨name, hname, hget⟩
    exact ⟨⟨name, hget⟩, by rwa [Tables.string, hget]⟩
  · rintro ⟨⟨name, hget⟩, hname⟩
    rw [Tables.string, hget] at hname
    exact ⟨name, hname, hget⟩

/-- Zero and four refer to no string, and are read as the empty one. -/
example :
    let r := Recording.after ["", "main"]
      [.handle (.string "main"), .handle (.string ""), .finish, .handle (.string "main")]
    (List.range 5).map (fun n => r.tables.string ⟨.ofNat n⟩) = ["", "main", "", "main", ""] ∧
      (List.range 5).map (fun n => r.stops.isStop ⟨.ofNat n⟩) = [false, true, true, true, false] := by
  decide +kernel

/-! ## Walks past a frame -/

namespace Tables

/-- **A walk goes on behind a frame only if the frame is no stop.**  So a stop can only be the last
    frame of a walk, which is the root of its path from above. -/
theorem Walks.stop_eq_false {tables : Tables} {stop : StringIndex → Bool} {index : TraceIndex}
    {inner outer : List Ip} {ip : Ip} (h : tables.Walks stop index (inner ++ ip :: outer))
    (houter : outer ≠ []) : stop ip.function = false := by
  induction inner generalizing index with
  | nil =>
      cases h with
      | stopped _ _ => exact absurd rfl houter
      | onward _ hgo _ => exact hgo
  | cons first inner ih =>
      rw [List.cons_append] at h
      generalize hrest : inner ++ ip :: outer = rest at h
      cases h with
      | stopped _ _ => exact absurd hrest (by simp)
      | onward _ _ hwalk => exact ih (hrest ▸ hwalk)

end Tables

/-! ## Rows of stops -/

namespace CostTree

variable {t d : CostTree}

/-- A way down a tree that goes on behind a place goes on to a row below that place. -/
theorem Leads.exists_sibling {path rest : List Location} {l : Location} {at' : Option RowId}
    (h : t.Leads (path ++ l :: rest) at') :
    ∃ above id, t.Leads path above ∧ id ∈ t.siblings above := by
  induction rest using List.reverseRecOn generalizing at' with
  | nil =>
      obtain ⟨above, id, habove, hid, -⟩ := leads_concat.1 h
      exact ⟨above, id, habove, hid⟩
  | append_singleton rest last ih =>
      rw [← List.cons_append, ← List.append_assoc] at h
      obtain ⟨_, _, hup, -⟩ := leads_concat.1 h
      exact ih hup

/-- **Inverting makes roots of leaves.**  If all rows of some functions are leaves, the rows of
    these functions in the inverted forest are roots. -/
theorem mem_roots_of_leaf (among : String → Prop) (hs : t.Shaped) (hl : t.Linked)
    (h : t.invert = .ok d)
    (hleaf : ∀ id < t.size, among (t.row id).location.function → t.isLeaf id = true) {id : RowId}
    (hid : id < d.size) (hname : among (d.row id).location.function) :
    id ∈ d.roots ∧ (d.row id).parent = none := by
  obtain ⟨_, hl', htrie⟩ := TreeBuilder.trie_of_finish (finish_of_invert h)
  obtain ⟨path, hpath⟩ := htrie.reached.1 hid
  cases hpath with
  | @down above parent _ habove hmem =>
      cases parent with
      | none => exact ⟨hmem, hl'.root_parent id hmem⟩
      | some parent =>
          exfalso
          -- the way up from some row begins with the way to this one
          obtain ⟨e, he, hprefix⟩ := (htrie.rowAt_iff _ (by simp)).1 ⟨id, .down habove hmem⟩
          obtain ⟨below, hbelow, rfl⟩ := List.mem_map.1 he
          obtain ⟨way, hway⟩ := hl.exists_rowAt (List.mem_filter.1 hbelow).1
          obtain ⟨rest, hrest⟩ := hprefix
          replace hrest : (above ++ [d.locationAt id]) ++ rest = t.pathUp below := hrest
          rw [hl.pathUp_eq_reverse hway] at hrest
          obtain ⟨first, inner, rfl⟩ : ∃ first inner, above = inner ++ [first] :=
            ⟨_, _, (List.dropLast_append_getLast (rowAt_ne_nil habove)).symm⟩
          have hsplit : way = (rest.reverse ++ [d.locationAt id]) ++ first :: inner.reverse := by
            rw [← way.reverse_reverse, ← hrest]
            simp
          rw [hsplit] at hway
          -- so a row at the same location has a row below it
          obtain ⟨_, child, hrow, hchild⟩ := hway.exists_sibling
          obtain ⟨_, row, _, hmem', hlocation, rfl⟩ := leads_concat.1 hrow
          have hsame : (t.row row).location = (d.row id).location := hlocation
          have hnone : t.children row = [] :=
            List.isEmpty_iff.1 (hleaf row (hs.lt_size hmem') (hsame ▸ hname))
          have hsome : child ∈ t.children row := hchild
          rw [hnone] at hsome
          exact List.not_mem_nil hsome

end CostTree

namespace BottomUp

variable {tables : Tables} {stop : StringIndex → Bool} {records : List Record}
  {resolver : Resolver} {t : CostTree}

/-- **Rows of stops are leaves.**  If every address that is shown under one of some names is a stop,
    the rows of these names are leaves. -/
theorem isLeaf_of_stop (among : String → Prop) (h : (merge tables stop records resolver).2 = .ok t)
    (hstop : ∀ ip : Ip, among ((resolver.sync tables.strings.entries).functionName ip) →
      stop ip.function = true) {id : RowId} (hid : id < t.size)
    (hname : among (t.row id).location.function) : t.isLeaf id = true := by
  obtain ⟨hs, -, htrie⟩ := TreeBuilder.trie_of_finish (charges_of_merge h).2
  obtain ⟨path, hpath⟩ := htrie.reached.1 hid
  rw [CostTree.isLeaf, List.isEmpty_iff]
  by_contra hchildren
  obtain ⟨child, hchild⟩ := List.exists_mem_of_ne_nil _ hchildren
  -- a row below this one is on the walked path of some record, behind the frame of this row
  obtain ⟨e, he, rest, hrest⟩ := (htrie.rowAt_iff _ (by simp)).1
    ⟨child, .down hpath (show child ∈ t.siblings (some id) from hchild)⟩
  obtain ⟨record, hrecord, rfl⟩ := List.mem_map.1 he
  cases hpath with
  | @down up parent _ hup hmem =>
      have hframes : (tables.walk stop record.trace).frames.map
            (resolver.sync tables.strings.entries).locate
          = up ++ t.locationAt id :: (t.locationAt child :: rest) :=
        hrest.symm.trans (by simp)
      obtain ⟨inner, outer, hwalk, -, houter⟩ := List.map_eq_append_iff.1 hframes
      obtain ⟨ip, outer, rfl, hip, houter⟩ := List.map_eq_cons_iff.1 houter
      have hon : outer ≠ [] := by
        rintro rfl
        exact nomatch houter
      have hgo := (hwalk ▸ walks_of_merge h hrecord).stop_eq_false hon
      have hshown : (resolver.sync tables.strings.entries).functionName ip
          = (t.row id).location.function := congrArg Location.function hip
      rw [hstop ip (hshown ▸ hname)] at hgo
      exact Bool.noConfusion hgo

end BottomUp

/-! ## The forests of a run -/

/-- Whether a character is a hexadecimal digit. -/
def isHexDigit (c : Char) : Bool :=
  c.isDigit || ('a' ≤ c && c ≤ 'f') || ('A' ≤ c && c ≤ 'F')

/-- Whether a name reads like an address: `0x` and hexadecimal digits. -/
def readsLikeAddress (name : String) : Bool :=
  match name.toList with
  | '0' :: 'x' :: digits => !digits.isEmpty && digits.all isHexDigit
  | _ => false

/-- The digits of a number to the base sixteen are hexadecimal.  By strong induction, as all but the
    last are digits of a sixteenth of it. -/
theorem isHexDigit_of_mem_toDigits {c : Char} {n : Nat} (h : c ∈ Nat.toDigits 16 n) :
    isHexDigit c = true := by
  have hdigit : ∀ d < 16, isHexDigit d.digitChar = true := by decide
  induction n using Nat.strong_induction_on with
  | _ n ih =>
      rw [Nat.toDigits_eq_if (by decide)] at h
      split at h
      · rename_i hlt
        rw [List.mem_singleton.1 h]
        exact hdigit n hlt
      · rcases List.mem_append.1 h with hfirst | hlast
        · exact ih (n / 16) (by omega) hfirst
        · rw [List.mem_singleton.1 hlast]
          exact hdigit (n % 16) (Nat.mod_lt n (by decide))

theorem readsLikeAddress_addressLabel (address : UInt64) :
    readsLikeAddress (addressLabel address) = true := by
  rw [readsLikeAddress, toList_addressLabel]
  refine Bool.and_eq_true_iff.2 ⟨?_, List.all_eq_true.2 fun _ => isHexDigit_of_mem_toDigits⟩
  rw [Bool.not_eq_true', List.isEmpty_eq_false_iff]
  exact Nat.toDigits_ne_nil

/-- An address that is shown under a stop name has the number of that name, unless stop names are
    empty or read like addresses. -/
theorem Tables.exists_get?_of_ipName {tables : Tables} {ip : Ip} {names : List String}
    (hnames : ∀ name ∈ names, name ≠ "" ∧ readsLikeAddress name = false)
    (h : tables.ipName ip ∈ names) :
    ∃ name ∈ names, tables.strings.get? ip.function = some name := by
  rw [ipName] at h
  split at h
  · have haddress := (hnames _ h).2
    rw [readsLikeAddress_addressLabel] at haddress
    exact Bool.noConfusion haddress
  · rw [Tables.string] at h
    cases hstring : tables.strings.get? ip.function with
    | none =>
        rw [hstring] at h
        exact absurd rfl (hnames _ h).1
    | some name =>
        rw [hstring] at h
        exact ⟨name, h, rfl⟩

namespace Run

variable {stopNames : List String} {cancel : Cancellation}
  {stream : List (Except StreamFault Event)} {p : Profile}

/-- **Stop names bound both forests.**  In a run that ends its call paths at stop names, none of
    them empty and none of the form of an address, every bottom-up row of a function with a stop
    name is a leaf, and every top-down row of such a function is a root. -/
theorem stop_names_bound_forests
    (hnames : ∀ name ∈ stopNames, name ≠ "" ∧ readsLikeAddress name = false)
    (h : (run stopNames none cancel stream).1 = .ok p) :
    (∀ id < p.bottomUp.size, (p.bottomUp.row id).location.function ∈ stopNames →
        p.bottomUp.isLeaf id = true) ∧
      ∀ id < p.topDown.size, (p.topDown.row id).location.function ∈ stopNames →
        id ∈ p.topDown.roots ∧ (p.topDown.row id).parent = none := by
  obtain ⟨_, hprofile⟩ := profile_of_run h
  obtain ⟨hmerge, hinvert, -⟩ := profile_ok hprofile
  have hstrings := strings_sync_recordingOf stopNames (eventsOf stream)
  have hstop : ∀ ip : Ip, ((recordingOf stopNames (eventsOf stream)).resolver.sync
        (recordingOf stopNames (eventsOf stream)).tables.strings.entries).functionName ip ∈ stopNames →
      (recordingOf stopNames (eventsOf stream)).stops.isStop ip.function = true := by
    intro ip hip
    rw [Resolver.functionName_of_strings hstrings] at hip
    have hnumber := Tables.exists_get?_of_ipName hnames hip
    rw [recordingOf_eq_after] at hnumber ⊢
    exact (Recording.isStop_after stopNames _ ip.function).2 hnumber
  have hleaf : ∀ id < p.bottomUp.size, (p.bottomUp.row id).location.function ∈ stopNames →
      p.bottomUp.isLeaf id = true :=
    fun _ hid hname => BottomUp.isLeaf_of_stop (· ∈ stopNames) hmerge hstop hid hname
  obtain ⟨hs, hl, -⟩ := TreeBuilder.trie_of_finish (BottomUp.charges_of_merge hmerge).2
  refine ⟨hleaf, ?_⟩
  intro id hid hname
  exact CostTree.mem_roots_of_leaf (· ∈ stopNames) hs hl hinvert hleaf hid hname

/-- A stop name that is interned before the addresses that use it and again behind them, and call
    paths on which it stands more than once. -/
def stoppedStream : List (Except StreamFault Event) :=
  [.string "main", .string "work", .ip { address := 16, function := ⟨1⟩ },
    .ip { address := 32, function := ⟨2⟩ }, .ip { address := 48, function := ⟨3⟩ },
    .trace { ip := ⟨1⟩ }, .trace { ip := ⟨2⟩, parent := ⟨1⟩ }, .trace { ip := ⟨3⟩, parent := ⟨2⟩ },
    .trace { ip := ⟨2⟩, parent := ⟨3⟩ }, .alloc ⟨4⟩ 10, .alloc ⟨3⟩ 5, .string "main",
    .alloc ⟨2⟩ 1].map .ok

theorem stop_names_bound_forests_sample :
    (∀ name ∈ ["main"], name ≠ "" ∧ readsLikeAddress name = false) ∧
      ∃ p, (run ["main"] none none stoppedStream).1 = .ok p ∧
        (∃ id < p.bottomUp.size, (p.bottomUp.row id).location.function ∈ ["main"] ∧
          p.bottomUp.isLeaf id = true) ∧
        ∃ id < p.topDown.size, (p.topDown.row id).location.function ∈ ["main"] ∧
          id ∈ p.topDown.roots := by
  have hnames : ∀ name ∈ ["main"], name ≠ "" ∧ readsLikeAddress name = false := by
    intro name hname
    rw [List.mem_singleton.1 hname]
    decide
  obtain ⟨p, hp⟩ : ∃ p, (run ["main"] none none stoppedStream).1 = .ok p :=
    exists_profile_of_isSome (by decide +kernel)
  have hrows : (run ["main"] none none stoppedStream).1.toOption.any (fun p =>
      1 < p.bottomUp.size && (p.bottomUp.row 1).location.function == "main" &&
        0 < p.topDown.size && (p.topDown.row 0).location.function == "main") = true := by
    decide +kernel
  rw [hp, Except.toOption, Option.any_some] at hrows
  simp only [Bool.and_eq_true, decide_eq_true_eq, beq_iff_eq] at hrows
  obtain ⟨⟨⟨hsize, hname⟩, hsize'⟩, hname'⟩ := hrows
  obtain ⟨hleaf, hroot⟩ := stop_names_bound_forests hnames hp
  have hmain : (p.bottomUp.row 1).location.function ∈ ["main"] := List.mem_singleton.2 hname
  have hmain' : (p.topDown.row 0).location.function ∈ ["main"] := List.mem_singleton.2 hname'
  exact ⟨hnames, p, hp, ⟨1, hsize, hmain, hleaf 1 hsize hmain⟩,
    ⟨0, hsize', hmain', (hroot 0 hsize' hmain').1⟩⟩

end Run

end HeapProfile
