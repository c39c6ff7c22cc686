/-!
# Interning — strings, addresses and call-path nodes by number

A trace names every string, code address and call-path node once and afterwards refers to it by a
number.  The three tables only grow, their positions count from one, and zero refers to nothing.
`Table.get?` is the only way to look an entry up; `exists_get?_iff` says which numbers refer to one,
and `get?_push_of_lt` and `get?_push_self` that growing a table keeps every earlier entry and adds one.
-/

namespace HeapProfile

/-- What a number of the trace refers to. -/
inductive Interned
  | string
  | ip
  | trace
deriving DecidableEq

/-- A number that refers to an entry of one table; zero refers to none. -/
structure Index (kind : Interned) where
  raw : UInt32 := 0
deriving DecidableEq, Repr, Inhabited

abbrev StringIndex := Index .string

abbrev IpIndex := Index .ip

abbrev TraceIndex := Index .trace

/-- A code address with the names known for it. -/
structure Ip where
  address : UInt64 := 0
  function : StringIndex := {}
  file : StringIndex := {}
  module : StringIndex := {}
  line : UInt32 := 0
deriving DecidableEq, Repr, Inhabited

/-- One frame of a call path: its code address, and the frame that called it. -/
structure TraceNode where
  ip : IpIndex := {}
  parent : TraceIndex := {}
deriving DecidableEq, Repr, Inhabited

namespace Index

variable {kind : Interned}

/-- Whether the number refers to nothing by convention. -/
def isNone (i : Index kind) : Bool := i.raw == 0

theorem raw_ne_zero_iff {i : Index kind} : i.raw ≠ 0 ↔ 1 ≤ i.raw.toNat := by
  constructor
  · exact fun h => Nat.pos_of_ne_zero fun hzero => h (UInt32.toNat.inj hzero)
  · intro h hzero
    rw [hzero] at h
    exact absurd h (by decide)

end Index

/-- An append-only table of entries, numbered from one. -/
structure Table (kind : Interned) (α : Type) where
  entries : Array α := #[]
deriving Repr, Inhabited

namespace Table

variable {kind : Interned} {α : Type}

/-- The number of entries. -/
def size (t : Table kind α) : Nat := t.entries.size

/-- The table with one entry more at its end. -/
def push (t : Table kind α) (entry : α) : Table kind α := ⟨t.entries.push entry⟩

/-- The number of the newest entry. -/
def newest (t : Table kind α) : Index kind := ⟨UInt32.ofNat t.size⟩

/-- The entry that a number refers to. -/
def get? (t : Table kind α) (i : Index kind) : Option α :=
  if i.raw = 0 then none else t.entries[i.raw.toNat - 1]?

@[simp] theorem size_push (t : Table kind α) (entry : α) : (t.push entry).size = t.size + 1 := by
  simp [push, size]

/-- The numbers that refer to an entry are those from one to the size of the table. -/
theorem exists_get?_iff {t : Table kind α} {i : Index kind} :
    (∃ entry, t.get? i = some entry) ↔ 1 ≤ i.raw.toNat ∧ i.raw.toNat ≤ t.size := by
  have hsize : t.size = t.entries.size := rfl
  rw [get?]
  by_cases hraw : i.raw = 0
  · rw [if_pos hraw]
    exact iff_of_false (fun ⟨_, h⟩ => nomatch h) (fun h => Index.raw_ne_zero_iff.2 h.1 hraw)
  · have hpos := Index.raw_ne_zero_iff.1 hraw
    rw [if_neg hraw]
    constructor
    · rintro ⟨entry, hentry⟩
      have hlt := (Array.getElem?_eq_some_iff.1 hentry).1
      omega
    · intro h
      exact ⟨_, Array.getElem?_eq_getElem (show i.raw.toNat - 1 < t.entries.size by omega)⟩

theorem get?_push_of_lt (t : Table kind α) (entry : α) (i : Index kind)
    (h : i.raw.toNat ≤ t.size) : (t.push entry).get? i = t.get? i := by
  have hsize : t.size = t.entries.size := rfl
  rw [get?, get?, push]
  by_cases hraw : i.raw = 0
  · rw [if_pos hraw, if_pos hraw]
  · have hpos := Index.raw_ne_zero_iff.1 hraw
    rw [if_neg hraw, if_neg hraw, Array.getElem?_push, if_neg (by omega)]

theorem get?_push_self (t : Table kind α) (entry : α) (h : t.size + 1 < UInt32.size) :
    (t.push entry).get? (t.push entry).newest = some entry := by
  have hraw : (UInt32.ofNat (t.size + 1)).toNat = t.size + 1 := by
    rw [UInt32.toNat_ofNat']
    exact Nat.mod_eq_of_lt h
  have hne : UInt32.ofNat (t.size + 1) ≠ 0 := by
    intro hz
    rw [hz] at hraw
    simp at hraw
  simp only [get?, newest, size_push, hne, if_false, hraw]
  simp [push, size]

end Table

/-- The three tables of a trace. -/
structure Tables where
  strings : Table .string String := {}
  ips : Table .ip Ip := {}
  traces : Table .trace TraceNode := {}
deriving Repr, Inhabited

namespace Tables

/-- The string that a number refers to, or the empty string. -/
def string (t : Tables) (i : StringIndex) : String := (t.strings.get? i).getD ""

/-- The code address that a number refers to. -/
def ip? (t : Tables) (i : IpIndex) : Option Ip := t.ips.get? i

/-- The call-path node that a number refers to. -/
def trace? (t : Tables) (i : TraceIndex) : Option TraceNode := t.traces.get? i

/-- Interns one more string. -/
def pushString (t : Tables) (s : String) : Tables := { t with strings := t.strings.push s }

/-- Interns one more code address. -/
def pushIp (t : Tables) (ip : Ip) : Tables := { t with ips := t.ips.push ip }

/-- Interns one more call-path node. -/
def pushTrace (t : Tables) (node : TraceNode) : Tables := { t with traces := t.traces.push node }

end Tables

end HeapProfile
