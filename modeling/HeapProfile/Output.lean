import HeapProfile.Folded
import HeapProfile.Host.Basic
import HeapProfile.Report.Text

/-!
# Output — reports and folded stacks as files

A file is written to a path that is no directory; the directories on the way are made as far as they
are missing.  A report is read back from a file of any content.
-/

namespace HeapProfile

/-- Why a path is no place for a file. -/
inductive PathFault
  | empty
  | isDirectory (path : String)
  /-- A directory on the way cannot be made. -/
  | noDirectory (path : String) (cause : SystemError)
deriving DecidableEq, Repr

/-- Why a file was not written or not read. -/
inductive OutputError
  | invalidPath (fault : PathFault)
  | writeFailed (cause : SystemError)
  | readFailed (cause : SystemError)
  /-- The file holds no report. -/
  | badDocument (cause : Json.Fault)
  /-- The file was opened but could not be read. -/
  | unreadable (cause : SystemError)
deriving DecidableEq, Repr

namespace PathFault

/-- The wording of a fault. -/
def message : PathFault → String
  | empty => "Path is empty"
  | isDirectory path => "Path is a directory: " ++ path
  | noDirectory path cause => "Cannot create directory " ++ path ++ ": " ++ cause.message

end PathFault

namespace OutputError

/-- The texts of an error and of what lies behind it, outermost first. -/
def chain : OutputError → List String
  | invalidPath fault => ["Invalid output path: " ++ fault.message]
  | writeFailed cause => ["Failed to write file: " ++ cause.message, cause.message]
  | readFailed cause => ["Failed to read file: " ++ cause.message]
  | badDocument cause => ["Failed to serialize JSON: " ++ cause.message, cause.message]
  | unreadable cause => ["Failed to serialize JSON: " ++ cause.message, cause.message]

/-- The wording of an error. -/
def message (e : OutputError) : String := e.chain.headD ""

end OutputError

namespace Output

variable {m : Type → Type} [Monad m] [Host m]

/-- Refuses a path that can be no file. -/
def checkPath (path : String) : m (Except OutputError Unit) := do
  if path.isEmpty then return .error (.invalidPath .empty)
  if ← Host.isDirectory path then return .error (.invalidPath (.isDirectory path))
  return .ok ()

/-- Makes the directories on the way to a path. -/
def makeParents (path : String) : m (Except OutputError Unit) := do
  match Path.parent? path with
  | none => return .ok ()
  | some parent =>
    if parent.isEmpty then return .ok ()
    if ← Host.pathExists parent then return .ok ()
    match ← Host.makeDirectories (parent.length + 1) parent with
    | .ok _ => return .ok ()
    | .error cause => return .error (.invalidPath (.noDirectory parent cause))

/-- Writes a text to a file. -/
def writeText (path text : String) : m (Except OutputError Unit) := do
  match ← checkPath path with
  | .error e => return .error e
  | .ok _ =>
    match ← makeParents path with
    | .error e => return .error e
    | .ok _ => return (← Host.writeFile path text).mapError OutputError.writeFailed

/-- Writes a report to a file. -/
def writeReport (report : Report) (path : String) : m (Except OutputError Unit) :=
  writeText path report.toText

/-- Writes folded stacks to a file, one line each. -/
def writeFolded (folded : List FoldedStack) (path : String) : m (Except OutputError Unit) :=
  writeText path (foldedText folded)

/-- Reads a report from a file. -/
def readReport (path : String) : m (Except OutputError Report) := do
  match ← Host.readFile path with
  | .error cause => return .error (.readFailed cause)
  | .ok (.error cause) => return .error (.unreadable cause)
  | .ok (.ok bytes) =>
    return (Report.ofSymbols (Symbol.ofBytes bytes)).mapError OutputError.badDocument

end Output

end HeapProfile
