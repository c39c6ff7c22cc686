import HeapProfile.Json.Scalar

/-!
# Reading documents — from text to the tree of what was found

`read` turns a text into a reading and the text behind it.  Sequences and objects are read element by
element until their closing bracket or the first complaint.  A value and an element that is due take one step each,
and no two steps in a row leave the text as it is, so twice the length of the text bounds the number
of steps.  `decode` reads a whole document: what is asked for, and nothing
but blanks behind it.
-/

namespace HeapProfile.Json

/-- The value of a member, from behind its name: a colon is due, and then a value. -/
def readBehindName (readNext : List Symbol → Reading × List Symbol) (text : List Symbol) :
    Reading × List Symbol :=
  let here := Place.seeing (skipBlanks text)
  match skipBlanks text with
  | [] => (.broken here ⟨.endInObject, here⟩, [])
  | .char ':' :: rest => readNext rest
  | _ :: rest => (.broken here ⟨.colonDue, here⟩, rest)

mutual

/-- The value at the beginning of a text, behind blanks. -/
def readValue : Nat → List Symbol → Reading × List Symbol
  | 0, text => (.broken (.before text) ⟨.endInValue, .before text⟩, text)
  | steps + 1, text =>
    let here := Place.seeing (skipBlanks text)
    match skipBlanks text with
    | [] => (.broken here ⟨.endInValue, here⟩, [])
    | .stray :: rest => (.broken here ⟨.valueDue, here⟩, rest)
    | .char c :: rest =>
      if c = '"' then
        let (lexeme, behind) := readText {} rest
        (.text ⟨here, .before behind⟩ lexeme, behind)
      else if c = '-' ∨ c.isDigit then
        let (lexeme, behind) := readNumber (.char c :: rest)
        (.number ⟨here, .seeing behind⟩ lexeme, behind)
      else if c = '[' then
        match skipBlanks rest with
        | [] => (.array here [] (.missing ⟨.endInList, .before []⟩), [])
        | .char ']' :: behind => (.array here [] (.found (.before behind)), behind)
        | _ => readItems steps here [] rest
      else if c = '\x7b' then
        match skipBlanks rest with
        | .char '\x7d' :: behind => (.object here [] (.found (.before behind)), behind)
        | _ => readMembers steps here [] rest
      else if c = 'n' then readWord here .null ['u', 'l', 'l'] rest
      else if c = 't' then readWord here (.bool · true) ['r', 'u', 'e'] rest
      else if c = 'f' then readWord here (.bool · false) ['a', 'l', 's', 'e'] rest
      else (.broken here ⟨.valueDue, here⟩, rest)

/-- The elements of a sequence that starts at a place, from one that is due, behind the ones found before (in
reverse). -/
def readItems : Nat → Place → List Reading → List Symbol → Reading × List Symbol
  | 0, start, found, text =>
    (.array start found.reverse (.missing ⟨.endInList, .before text⟩), text)
  | steps + 1, start, found, text =>
    let (item, behind) := readValue steps text
    let found := item :: found
    match item.complaint? with
    | some complaint => (.array start found.reverse (.missing complaint), behind)
    | none =>
      let here := Place.seeing (skipBlanks behind)
      match skipBlanks behind with
      | [] => (.array start found.reverse (.missing ⟨.endInList, here⟩), [])
      | .char ',' :: rest =>
        let here := Place.seeing (skipBlanks rest)
        match skipBlanks rest with
        -- whoever skips the sequence misses an element here
        | .char ']' :: _ =>
          (.array start found.reverse
            { value := .error ⟨.trailingComma, here⟩, complaint? := some ⟨.valueDue, here⟩ }, rest)
        | _ => readItems steps start found rest
      | .char ']' :: rest => (.array start found.reverse (.found (.before rest)), rest)
      | _ :: rest => (.array start found.reverse (.missing ⟨.listCommaDue, here⟩), rest)

/-- The members of an object that starts at a place, from one that is due, behind the ones found before (in
reverse). -/
def readMembers : Nat → Place → List (Key × Reading) → List Symbol → Reading × List Symbol
  | 0, start, found, text =>
    (.object start found.reverse (.missing ⟨.endInObject, .before text⟩), text)
  | steps + 1, start, found, text =>
    let here := Place.seeing (skipBlanks text)
    match skipBlanks text with
    | [] => (.object start found.reverse (.missing ⟨.endInObject, here⟩), [])
    | .char '"' :: rest =>
      let (key, rest) := readKey rest
      match key.text.complaint? with
      -- the name itself breaks off: its member has no value
      | some complaint =>
        (.object start ((key, .broken key.stop complaint) :: found).reverse (.missing complaint), rest)
      | none =>
        let (item, behind) := readBehindName (readValue steps) rest
        let found := (key, item) :: found
        match item.complaint? with
        | some complaint => (.object start found.reverse (.missing complaint), behind)
        | none =>
          let here := Place.seeing (skipBlanks behind)
          match skipBlanks behind with
          | [] => (.object start found.reverse (.missing ⟨.endInObject, here⟩), [])
          | .char ',' :: rest =>
            let here := Place.seeing (skipBlanks rest)
            match skipBlanks rest with
            -- whoever skips the object misses a name here
            | [] =>
              (.object start found.reverse
                { value := .error ⟨.endInValue, here⟩, complaint? := some ⟨.endInObject, here⟩ }, [])
            | .char '\x7d' :: _ =>
              (.object start found.reverse
                { value := .error ⟨.trailingComma, here⟩, complaint? := some ⟨.nameNotText, here⟩ },
                rest)
            | _ => readMembers steps start found rest
          | .char '\x7d' :: rest => (.object start found.reverse (.found (.before rest)), rest)
          | _ :: rest => (.object start found.reverse (.missing ⟨.objectCommaDue, here⟩), rest)
    | _ :: rest => (.object start found.reverse (.missing ⟨.nameNotText, here⟩), rest)

end

/-- As many steps as the reading of a text can take: a bracket takes two, one for itself and one for
what is due behind it. -/
def stepsFor (text : List Symbol) : Nat := 2 * text.length + 1

/-- What a text begins with, and the text behind it. -/
def read (text : List Symbol) : Reading × List Symbol := readValue (stepsFor text) text

/-- A whole document: what is asked for, and nothing but blanks behind it. -/
def decode {α : Type} (ask : Reading → Except Complaint α) (text : List Symbol) : Except Fault α :=
  let (found, behind) := read text
  let answer : Except Complaint α := do
    let answer ← ask found
    match skipBlanks behind with
    | [] => return answer
    | behind => throw ⟨.trailingText, .seeing behind⟩
  answer.mapError fun complaint => complaint.fault text

/-- A whole document as a value. -/
def parse (text : String) : Except Fault Value :=
  decode (Reading.value Reading.maxDepth) (Symbol.ofString text)

end HeapProfile.Json
