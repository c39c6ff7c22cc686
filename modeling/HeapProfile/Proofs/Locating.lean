import HeapProfile.Location
import HeapProfile.Proofs.Walking

/-!
# Locating — the locations that a walk meets

The tables alone say what every address is called: a file, a module and a function by the strings of their
numbers, a function without a number by the address.  A resolver says the same from its own copy of the
strings, as soon as that copy is complete.  So the locations along a call path are a matter of the tables and
the stops, and a resolver is only a means to find them.

* **`Tables.Passes`** — the locations that are met from a trace node outwards, by the tables alone;
* **`Tables.Passes.unique`** — no other locations are met;
* **`Resolver.strings_sync`** — a resolver that knows the first strings of the tables knows all behind `sync`;
* **`Resolver.locate_of_strings`** — and then locates every address where the tables do.
-/

namespace HeapProfile

namespace Tables

/-- What the function of a code address is called, by all strings of the tables. -/
def ipName (t : Tables) (ip : Ip) : String :=
  if ip.function.isNone then addressLabel ip.address else t.string ip.function

/-- The location of a code address, by all strings of the tables. -/
def location (t : Tables) (ip : Ip) : Location where
  function := t.ipName ip
  file := t.string ip.file
  module := t.string ip.module
  line := ip.line

/-- From a trace node outwards a walk meets these locations. -/
def Passes (t : Tables) (stop : StringIndex → Bool) (index : TraceIndex) (path : List Location) : Prop :=
  ∃ frames, t.Walks stop index frames ∧ path = frames.map t.location

variable {t : Tables} {stop : StringIndex → Bool}

/-- **The locations of a walk are determined** by where it starts. -/
theorem Passes.unique {index : TraceIndex} {path path' : List Location} (h : t.Passes stop index path)
    (h' : t.Passes stop index path') : path = path' := by
  obtain ⟨frames, hwalk, rfl⟩ := h
  obtain ⟨frames', hwalk', rfl⟩ := h'
  rw [hwalk.frames_unique hwalk']

end Tables

namespace Resolver

variable {r : Resolver} {t : Tables}

/-- A resolver knows the first strings of the tables, and no others. -/
def KnowsFirst (r : Resolver) (t : Tables) : Prop :=
  r.strings.toList <+: t.strings.entries.toList

/-- A new resolver knows the first strings of any tables, namely none. -/
theorem knowsFirst_new (t : Tables) : KnowsFirst {} t := List.nil_prefix

/-- Behind `sync` a resolver that knew the first strings of a table knows them all.  It copies only what
    is behind the ones it has, so it must not have others. -/
theorem strings_sync {strings : Array String} (h : r.strings.toList <+: strings.toList) :
    (r.sync strings).strings = strings := by
  obtain ⟨rest, hrest⟩ := h
  have hsize : strings.size = r.strings.size + rest.length := by
    have hlength := congrArg List.length hrest
    rwa [List.length_append, Array.length_toList, Array.length_toList, eq_comm] at hlength
  rw [sync]
  refine Array.toList_inj.1 ?_
  rw [Array.toList_append, Array.toList_extract, List.extract_eq_take_drop, ← hrest, hsize,
    Nat.add_sub_cancel_left, ← Array.length_toList, List.drop_left, List.take_length]

/-- Remembering an address leaves the strings alone. -/
theorem strings_note (r : Resolver) (ip : Ip) : (r.note ip).strings = r.strings := by
  rw [note]
  split <;> rfl

theorem strings_foldl_note (frames : List Ip) (r : Resolver) :
    (frames.foldl note r).strings = r.strings := by
  induction frames generalizing r with
  | nil => rfl
  | cons ip rest ih => rw [List.foldl_cons, ih, strings_note]

theorem text_of_strings (h : r.strings = t.strings.entries) : r.text = t.string := by
  funext i
  rw [text, h]
  rfl

theorem functionName_of_strings (h : r.strings = t.strings.entries) : r.functionName = t.ipName := by
  funext ip
  rw [functionName, Tables.ipName, text_of_strings h]

/-- **A resolver that knows the strings of the tables** locates every address where they do, whatever
    addresses it remembers besides. -/
theorem locate_of_strings (h : r.strings = t.strings.entries) : r.locate = t.location := by
  funext ip
  rw [locate, Tables.location, functionName_of_strings h, text_of_strings h]

end Resolver

end HeapProfile
