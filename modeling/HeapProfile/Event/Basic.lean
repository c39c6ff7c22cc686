import HeapProfile.Interning

/-!
# Events — what a decoded heap trace says

A trace interns strings, code addresses and call-path nodes before it uses them, reports every
allocation and every free with its call path, marks the time now and then, and names the traced
program.
-/

namespace HeapProfile

/-- One event of a decoded heap trace. -/
inductive Event
  /-- Interns the next string. -/
  | string (value : String)
  /-- Interns the next code address. -/
  | ip (ip : Ip)
  /-- Interns the next call-path node. -/
  | trace (node : TraceNode)
  /-- Some bytes were allocated on a call path. -/
  | alloc (trace : TraceIndex) (size : UInt64)
  /-- Some bytes that were allocated on a call path were freed. -/
  | free (trace : TraceIndex) (size : UInt64)
  /-- So many milliseconds passed since the program started. -/
  | timestamp (stamp : UInt64)
  /-- The command line of the traced program. -/
  | debuggee (command : String)
deriving DecidableEq, Repr, Inhabited

/-- The kinds of events. -/
inductive EventKind
  | string
  | ip
  | trace
  | alloc
  | free
  | timestamp
  | debuggee
deriving DecidableEq, Repr

namespace EventKind

/-- The canonical name of a kind. -/
def name : EventKind → String
  | string => "string"
  | ip => "ip"
  | trace => "trace"
  | alloc => "alloc"
  | free => "free"
  | timestamp => "timestamp"
  | debuggee => "debuggee"

/-- The kind that a name stands for; allocations, frees and time marks have two names each. -/
def ofName? : String → Option EventKind
  | "string" => some string
  | "ip" => some ip
  | "trace" => some trace
  | "alloc" | "allocation" => some alloc
  | "free" | "deallocation" => some free
  | "timestamp" | "time_stamp" => some timestamp
  | "debuggee" => some debuggee
  | _ => none

/-- All names of kinds, in the order in which a complaint lists them. -/
def allNames : List String :=
  ["string", "ip", "trace", "alloc", "allocation", "deallocation", "free", "time_stamp",
    "timestamp", "debuggee"]

end EventKind

namespace Event

/-- The kind of an event. -/
def kind : Event → EventKind
  | string _ => .string
  | ip _ => .ip
  | trace _ => .trace
  | alloc _ _ => .alloc
  | free _ _ => .free
  | timestamp _ => .timestamp
  | debuggee _ => .debuggee

end Event

end HeapProfile
