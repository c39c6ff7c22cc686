import HeapProfile.Event.Text
import HeapProfile.SystemError
import HeapProfile.Text.Blank

/-!
# Event streams — one event per line

A stream of bytes falls into chunks: each ends with a line break, and what is left behind the last line
break is a chunk as well.  A chunk that is no UTF-8 is a fault and no line.  Every other chunk is a line;
blank lines and lines that begin with `#` are passed over, and each of the others holds an event or a
fault.  `LineSource.next` is one step of reading, and `outcomes` lists all of them.
-/

namespace HeapProfile

/-- Why the next event of a stream cannot be had. -/
inductive StreamFault
  /-- A chunk is no UTF-8. -/
  | notUtf8
  /-- The bytes themselves cannot be had. -/
  | system (cause : SystemError)
  /-- A line holds no event; lines are counted from one. -/
  | badEvent (line : Nat) (cause : Json.Fault)
deriving DecidableEq, Repr

namespace StreamFault

/-- What lies behind a fault. -/
def cause : StreamFault → String
  | notUtf8 => "stream did not contain valid UTF-8"
  | system cause => cause.message
  | badEvent _ cause => cause.message

/-- The wording of a fault. -/
def message (fault : StreamFault) : String :=
  match fault with
  | badEvent line _ => "Malformed event on line " ++ toString line ++ ": " ++ fault.cause
  | _ => "Failed to read event stream: " ++ fault.cause

end StreamFault

/-- The byte that ends a line. -/
def lineBreak : UInt8 := 10

/-- The chunks of some bytes, behind the ones of the current chunk (in reverse). -/
def chunksFrom (current : List UInt8) : List UInt8 → List (List UInt8)
  | [] => if current.isEmpty then [] else [current.reverse]
  | byte :: rest =>
    if byte = lineBreak then (byte :: current).reverse :: chunksFrom [] rest
    else chunksFrom (byte :: current) rest

/-- The chunks of a stream: the pieces that end with a line break, and what is left. -/
def chunks (bytes : List UInt8) : List (List UInt8) := chunksFrom [] bytes

/-- The text of a chunk, if it is UTF-8. -/
def chunkText? (chunk : List UInt8) : Option String := String.fromUTF8? ⟨chunk.toArray⟩

/-- Whether a line without its outer blanks holds no event. -/
def isSkipped (line : String) : Bool := line.isEmpty || line.toList.head? == some '#'

/-- A stream that is being read. -/
structure LineSource where
  /-- The chunks that were not read yet. -/
  pending : List (List UInt8)
  /-- The number of lines read so far. -/
  lines : Nat := 0
deriving Repr

namespace LineSource

/-- The source at the beginning of a stream. -/
def ofBytes (bytes : List UInt8) : LineSource := { pending := chunks bytes }

/-- Reads on to the next event or fault, or finds the end of the stream. -/
def nextFrom : List (List UInt8) → Nat → Except StreamFault (Option Event) × LineSource
  | [], lines => (.ok none, ⟨[], lines⟩)
  | chunk :: pending, lines =>
    match chunkText? chunk with
    -- a chunk that is no text does not count as a line
    | none => (.error .notUtf8, ⟨pending, lines⟩)
    | some text =>
      let line := Text.trimmed text
      if isSkipped line then nextFrom pending (lines + 1)
      else
        match Event.ofText line with
        | .ok event => (.ok (some event), ⟨pending, lines + 1⟩)
        | .error cause => (.error (.badEvent (lines + 1) cause), ⟨pending, lines + 1⟩)

/-- One step of reading. -/
def next (s : LineSource) : Except StreamFault (Option Event) × LineSource :=
  nextFrom s.pending s.lines

/-- Every call comes to the end of the stream or leaves fewer chunks than there were, so
    reading on ends. -/
theorem pending_next (s : LineSource) :
    s.next.1 = .ok none ∨ s.next.2.pending.length < s.pending.length := by
  obtain ⟨pending, lines⟩ := s
  show (nextFrom pending lines).1 = _ ∨ (nextFrom pending lines).2.pending.length < pending.length
  induction pending generalizing lines with
  | nil => exact Or.inl rfl
  | cons chunk pending ih =>
    unfold nextFrom
    split
    · exact Or.inr (by simp)
    · dsimp only
      split
      · rcases ih (lines + 1) with h | h
        · exact Or.inl h
        · exact Or.inr (by simp only [List.length_cons]; omega)
      · split
        · exact Or.inr (by simp)
        · exact Or.inr (by simp)

/-- All steps of reading up to the end, each with the number of lines read by then. -/
def steps (s : LineSource) : List (Except StreamFault Event × Nat) × Nat :=
  match _h : s.next with
  | (.ok none, after) => ([], after.lines)
  | (.ok (some event), after) =>
    let (rest, lines) := steps after
    ((.ok event, after.lines) :: rest, lines)
  | (.error fault, after) =>
    let (rest, lines) := steps after
    ((.error fault, after.lines) :: rest, lines)
termination_by s.pending.length
decreasing_by
  all_goals
    have h := pending_next s
    rw [_h] at h
    rcases h with h | h
    · exact nomatch h
    · exact h

end LineSource

/-- What a stream yields step by step until it ends. -/
def outcomes (bytes : List UInt8) : List (Except StreamFault Event) :=
  (LineSource.ofBytes bytes).steps.1.map (·.1)

end HeapProfile
