import HeapProfile.SystemError

/-!
# Hosts — what commands need from the world around them

Commands read and write files, print, and ask for the time.  A host is anything that offers these
operations, be it the machine or a tree of files held in memory.
-/

namespace HeapProfile

/-- The world around a command. -/
class Host (m : Type → Type) where
  /-- Whether there is a directory at a path, or nothing known if there is nothing at all. -/
  isDirectory? : String → m (Option Bool)
  /-- Opens a file, and then reads all of it; either can be refused. -/
  readFile : String → m (Except SystemError (Except SystemError ByteArray))
  /-- Makes a file with the given text in place of what was there. -/
  writeFile : String → String → m (Except SystemError Unit)
  /-- Makes a directory inside one that exists. -/
  makeDirectory : String → m (Except SystemError Unit)
  /-- Prints a text as it is. -/
  print : String → m Unit
  /-- The present time in words. -/
  now : m String

namespace Path

/-- The path without separators and steps in place at its end (in reverse order of characters). -/
def trimReversed : List Char → List Char
  | '/' :: c :: rest => trimReversed (c :: rest)
  | '.' :: '/' :: c :: rest => trimReversed (c :: rest)
  | ['.', '/'] => ['/']
  | path => path

/-- The path of the directory that a path leads into, if the path has a last name at all. -/
def parent? (path : String) : Option String :=
  let trimmed := trimReversed path.toList.reverse
  if trimmed.isEmpty || trimmed == ['/'] then none
  else some (String.ofList (trimReversed (trimmed.dropWhile (· != '/'))).reverse)

end Path

namespace Host

variable {m : Type → Type} [Monad m] [Host m]

/-- Whether there is anything at a path. -/
def pathExists (path : String) : m Bool := return (← isDirectory? path).isSome

/-- Whether there is a directory at a path. -/
def isDirectory (path : String) : m Bool := return (← isDirectory? path) == some true

/-- Makes a directory and those it lies in as far as they are missing; the number bounds how many
directories are made. -/
def makeDirectories : Nat → String → m (Except SystemError Unit)
  | 0, _ => return .ok ()
  | depth + 1, path => do
    if path.isEmpty then return .ok ()
    match ← makeDirectory path with
    | .ok _ => return .ok ()
    | .error .notFound =>
      match Path.parent? path with
      | none => return .error (.other "failed to create whole tree")
      | some parent =>
        match ← makeDirectories depth parent with
        | .error cause => return .error cause
        | .ok _ => settle path (← makeDirectory path)
    | .error cause => settle path (.error cause)
where
  /-- Takes a directory that is there already for one that was made. -/
  settle (path : String) (made : Except SystemError Unit) : m (Except SystemError Unit) := do
    match made with
    | .ok _ => return .ok ()
    | .error cause => if ← isDirectory path then return .ok () else return .error cause

end Host

end HeapProfile
