import HeapProfile.Event.Basic
import HeapProfile.Json.Decoder
import HeapProfile.Json.Printer

/-!
# The text of an event — one document per event

An event is written as an object that has its kind under `type` and then its fields.  It is read from
an object that has the kind anywhere among its members, or from a sequence of the kind and the fields in
order.  The kind is looked at as soon as it is met; the fields are looked at when the whole document is
known to be well formed.
-/

namespace HeapProfile

open Json

namespace EventKind

/-- A number that refers to an entry of a table. -/
def index {kind : Interned} : Decoder (Index kind) := fun found =>
  (Decoder.word32 found).map Index.mk

/-- The fields of a code address; all but the address may be left out. -/
def ipFields : Fields Ip :=
  ((Fields.required "address" Decoder.word).and
    ((Fields.withDefault "function" {} index).and
      ((Fields.withDefault "file" {} index).and
        ((Fields.withDefault "module" {} index).and
          (Fields.withDefault "line" 0 Decoder.word32))))).map
    fun (address, function, file, module, line) => { address, function, file, module, line }

/-- The fields of a call-path node; the parent may be left out. -/
def nodeFields : Fields TraceNode :=
  ((Fields.required "ip" index).and (Fields.withDefault "parent" {} index)).map
    fun (site, parent) => { ip := site, parent }

/-- The fields of an allocation or a free. -/
def sizeFields : Fields (TraceIndex × UInt64) :=
  (Fields.required "trace" index).and (Fields.required "size" Decoder.word)

/-- The fields of an event of a kind. -/
def fields : EventKind → Fields Event
  | string => (Fields.required "value" Decoder.text).map Event.string
  | ip => ipFields.map Event.ip
  | trace => nodeFields.map Event.trace
  | alloc => sizeFields.map fun (path, size) => Event.alloc path size
  | free => sizeFields.map fun (path, size) => Event.free path size
  | timestamp => (Fields.required "stamp" Decoder.word).map Event.timestamp
  | debuggee => (Fields.required "command" Decoder.text).map Event.debuggee

/-- What a complaint calls an event of a kind. -/
def title : EventKind → String
  | string => "struct variant TraceEvent::String"
  | ip => "struct variant TraceEvent::Ip"
  | trace => "struct variant TraceEvent::Trace"
  | alloc => "struct variant TraceEvent::Alloc"
  | free => "struct variant TraceEvent::Free"
  | timestamp => "struct variant TraceEvent::Timestamp"
  | debuggee => "struct variant TraceEvent::Debuggee"

/-- The name of a kind. -/
def ask : Decoder EventKind
  | .text span lexeme => do
    let name ← lexeme.value
    match ofName? name with
    | some kind => return kind
    | none => throw ⟨.mismatch (.unknownVariant name allNames), span.stop⟩
  | found => .error (found.unexpected "variant identifier")

/-- The member that holds the kind of an event. -/
def tag : String := "type"

/-- How deep brackets may nest inside a field of an event. -/
def fieldDepth : Nat := Reading.maxDepth - 1

/-- Finds the kind among the members of an object and keeps the others, all of which must have a
value. -/
def ofMembers : Option EventKind → List (Key × Reading) → List (Key × Reading) →
    Except Complaint (Option EventKind × List (Key × Reading))
  | kind?, kept, [] => .ok (kind?, kept.reverse)
  | kind?, kept, (key, item) :: rest => do
    let name ← key.text.value
    if name = tag then
      if kind?.isSome then throw ⟨.mismatch (.duplicateField tag), key.stop⟩
      -- an unknown kind wins over whatever is wrong behind it
      let kind ← ask item
      ofMembers (some kind) kept rest
    else
      let _ ← item.value fieldDepth
      ofMembers kind? ((key, item) :: kept) rest

/-- An event of a kind from the elements behind the kind, with the reader behind the sequence. -/
def ofItems (kind : EventKind) (items : List Reading) (stop : Place) : Except Complaint Event := do
  let fields := kind.fields
  let (noted, left) ← fields.ofItems kind.title (.found stop) fields.nothing 0 fields.names items
  let event ← noticedAt stop (fields.close noted)
  if left.isEmpty then return event
  else
    throw ⟨.mismatch (.wrongLength items.length
      (Fields.elements fields.names.length ++ " in sequence")), stop⟩

end EventKind

namespace Event

/-- An event. -/
def ask : Decoder Event
  | .array _ [] closing => do
    let stop ← closing.value
    throw ⟨.mismatch (.missingField EventKind.tag), stop⟩
  | .array _ (first :: items) closing => do
    let kind ← EventKind.ask first
    let _ ← Reading.itemValues EventKind.fieldDepth items
    let stop ← closing.value
    kind.ofItems items stop
  | .object _ members closing => do
    let (kind?, others) ← EventKind.ofMembers none [] members
    let stop ← closing.value
    match kind? with
    | some kind => kind.fields.object others closing
    | none => throw ⟨.mismatch (.missingField EventKind.tag), stop⟩
  | found => .error (found.unexpected "internally tagged enum TraceEvent")

/-- The event that a text holds. -/
def ofText (text : String) : Except Fault Event := decode ask (Symbol.ofString text)

/-- The fields of an event as members of an object. -/
def members : Event → List (String × Value)
  | .string value => [("value", .string value)]
  | .ip site =>
    [("address", .word site.address), ("function", .word32 site.function.raw),
      ("file", .word32 site.file.raw), ("module", .word32 site.module.raw),
      ("line", .word32 site.line)]
  | .trace node => [("ip", .word32 node.ip.raw), ("parent", .word32 node.parent.raw)]
  | .alloc path size => [("trace", .word32 path.raw), ("size", .word size)]
  | .free path size => [("trace", .word32 path.raw), ("size", .word size)]
  | .timestamp stamp => [("stamp", .word stamp)]
  | .debuggee command => [("command", .string command)]

/-- An event as a document. -/
def toValue (event : Event) : Value :=
  .object ((EventKind.tag, .string event.kind.name) :: event.members)

/-- An event as text. -/
def toText (event : Event) : String := event.toValue.compact

end Event

end HeapProfile
