import Std.Time.DateTime.Timestamp
import HeapProfile.Clock
import HeapProfile.CommandLine

/-!
# The program — the command line on the machine itself

The machine is a host: its files are the files of the system, and its clock is the clock of the system.
-/

namespace HeapProfile

namespace Machine

/-- What the system means by refusing. -/
def refusal : IO.Error → SystemError
  | .noFileOrDirectory _ _ _ => .notFound
  | .alreadyExists _ _ _ => .alreadyExists
  | .permissionDenied _ _ _ => .permissionDenied
  | .inappropriateType _ code _ => if code = 20 then .notDirectory else .isDirectory
  | .invalidArgument _ _ _ => .invalidArgument
  | .noSuchThing _ code text =>
    if code = 2 then .notFound else if code = 20 then .notDirectory else .other text
  | e => .other (toString e)

/-- Tries something that the system may refuse. -/
def attempt {α : Type} (action : IO α) : IO (Except SystemError α) := do
  match ← action.toBaseIO with
  | .ok result => return .ok result
  | .error e => return .error (refusal e)

end Machine

instance : Host IO where
  isDirectory? path := do
    match ← Machine.attempt (IO.FS.Handle.mk path .read) with
    | .error _ => return none
    | .ok handle =>
      match ← Machine.attempt (handle.read 1) with
      | .ok _ => return some false
      | .error _ => return some true
  readFile path := do
    match ← Machine.attempt (IO.FS.Handle.mk path .read) with
    | .error cause => return .error cause
    | .ok handle => return .ok (← Machine.attempt handle.readBinToEnd)
  writeFile path text := Machine.attempt (IO.FS.writeFile path text)
  makeDirectory path := Machine.attempt (IO.FS.createDir path)
  print text := do
    let out ← IO.getStdout
    out.putStr text
    out.flush
  now := do
    let moment ← Std.Time.Timestamp.now
    return Clock.text moment.toNanosecondsSinceUnixEpoch.val.toNat

end HeapProfile

/-- Runs the command line and ends with its exit code. -/
def main (args : List String) : IO UInt32 := do
  let outcome ← HeapProfile.CommandLine.run args
  IO.eprint outcome.complaint
  return outcome.exitCode.toUInt32
