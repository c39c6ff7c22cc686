import HeapProfile.Host.Basic

/-!
# Files in memory — a host as a value

A tree of directories and files is held as a value, with a working directory, a fixed time and the text
that was printed.  Paths are followed name by name: every name but the last must lead to a directory.
-/

namespace HeapProfile

/-- The names that lead to a place from the root. -/
abbrev FileTree.Place := List String

/-- Directories and files held in memory. -/
structure FileTree where
  directories : List FileTree.Place := [[]]
  files : List (FileTree.Place × ByteArray) := []

/-- Where a path leads. -/
inductive Target
  | directory (place : FileTree.Place)
  | file (place : FileTree.Place) (content : ByteArray)
  /-- Nothing is there, but the directory around it is. -/
  | vacant (place : FileTree.Place)

namespace FileTree

/-- Whether there is a directory at a place. -/
def hasDirectory (t : FileTree) (place : Place) : Bool := t.directories.contains place

/-- The content of the file at a place. -/
def content? (t : FileTree) (place : Place) : Option ByteArray :=
  (t.files.find? fun entry => entry.1 == place).map (·.2)

/-- The tree with a file of the given content at a place. -/
def putFile (t : FileTree) (place : Place) (content : ByteArray) : FileTree :=
  if t.files.any (fun entry => entry.1 == place) then
    { t with files := t.files.map fun entry =>
        if entry.1 == place then (place, content) else entry }
  else { t with files := t.files ++ [(place, content)] }

/-- The tree with a directory at a place. -/
def putDirectory (t : FileTree) (place : Place) : FileTree :=
  if t.hasDirectory place then t else { t with directories := t.directories ++ [place] }

/-- The most bytes that a name can have. -/
def maxNameBytes : Nat := 255

/-- The most bytes that a path can have. -/
def maxPathBytes : Nat := 4095

/-- Follows names from a directory. -/
def follow (t : FileTree) : Place → List String → Except SystemError Target
  | here, [] => .ok (.directory here)
  | here, name :: rest =>
    if name = "" ∨ name = "." then t.follow here rest
    else if name = ".." then t.follow here.dropLast rest
    else if maxNameBytes < name.utf8ByteSize then .error .nameTooLong
    else
      let there := here ++ [name]
      if t.hasDirectory there then t.follow there rest
      else match t.content? there with
        -- a file leads nowhere, not even with a separator behind it
        | some content => if rest.isEmpty then .ok (.file there content) else .error .notDirectory
        | none => if rest.all (· == "") then .ok (.vacant there) else .error .notFound

/-- The names along a path; there are empty ones around neighbouring separators. -/
def names (path : String) : List String := path.splitOn "/"

/-- The names along a path up to the directory around its last name. -/
def namesAround (path : String) : List String :=
  match (names path).reverse.dropWhile (· == "") with
  | [] => []
  | name :: outer =>
    -- the last name may itself be a step in place or outwards
    if name = "." ∨ name = ".." then (name :: outer).reverse else ("." :: outer).reverse

/-- Where some names along a path lead, seen from a working directory. -/
def targetAlong (t : FileTree) (working : Place) (path : String) (along : List String) :
    Except SystemError Target :=
  if path.isEmpty then .error .notFound
  else if path.toList.contains '\x00' then .error .nulInName
  else if maxPathBytes < path.utf8ByteSize then .error .nameTooLong
  else t.follow (if path.toList.head? == some '/' then [] else working) along

/-- Where a path leads, seen from a working directory. -/
def target (t : FileTree) (working : Place) (path : String) : Except SystemError Target :=
  t.targetAlong working path (names path)

end FileTree

/-- A host in memory. -/
structure Memory where
  tree : FileTree := {}
  working : FileTree.Place := []
  clock : String := ""
  /-- What was printed, the last piece first. -/
  printed : List String := []

namespace Memory

/-- Where a path leads. -/
def target (m : Memory) (path : String) : Except SystemError Target := m.tree.target m.working path

/-- Whether there is a directory at a path. -/
def isDirectory? (m : Memory) (path : String) : Option Bool :=
  match m.target path with
  | .ok (.directory _) => some true
  | .ok (.file _ _) => some false
  | _ => none

/-- The content of the file at a path; a directory can be opened but not read. -/
def readFile (m : Memory) (path : String) : Except SystemError (Except SystemError ByteArray) :=
  match m.target path with
  | .ok (.directory _) => .ok (.error .isDirectory)
  | .ok (.file _ content) => .ok (.ok content)
  | .ok (.vacant _) => .error .notFound
  | .error cause => .error cause

/-- Writes a file.  A path that ends with a separator can only be meant for a directory: then nothing is
written, and its last name is not even looked up. -/
def writeFile (m : Memory) (path text : String) : Except SystemError Unit × Memory :=
  let put (place : FileTree.Place) : Except SystemError Unit × Memory :=
    (.ok (), { m with tree := m.tree.putFile place text.toUTF8 })
  if path.toList.getLast? == some '/' then
    match m.tree.targetAlong m.working path (FileTree.namesAround path) with
    | .ok _ => (.error .isDirectory, m)
    | .error cause => (.error cause, m)
  else
    match m.target path with
    | .ok (.directory _) => (.error .isDirectory, m)
    | .ok (.file place _) => put place
    | .ok (.vacant place) => put place
    | .error cause => (.error cause, m)

/-- Makes a directory. -/
def makeDirectory (m : Memory) (path : String) : Except SystemError Unit × Memory :=
  match m.target path with
  | .ok (.vacant place) => (.ok (), { m with tree := m.tree.putDirectory place })
  | .ok _ => (.error .alreadyExists, m)
  | .error cause => (.error cause, m)

instance : Host (StateM Memory) where
  isDirectory? path := return (← get).isDirectory? path
  readFile path := return (← get).readFile path
  writeFile path text := modifyGet fun m => m.writeFile path text
  makeDirectory path := modifyGet fun m => m.makeDirectory path
  print text := modify fun m => { m with printed := text :: m.printed }
  now := return (← get).clock

/-- Everything that was printed. -/
def output (m : Memory) : String := String.join m.printed.reverse

end Memory

end HeapProfile
