/-!
# System errors — what the file system answers when it refuses

An error has a number and a text; its wording shows both.
-/

namespace HeapProfile

/-- An answer of the file system that is no success. -/
inductive SystemError
  | notFound
  | permissionDenied
  | alreadyExists
  | notDirectory
  | isDirectory
  | invalidArgument
  | nameTooLong
  /-- A path holds the character that ends paths inside the system. -/
  | nulInName
  /-- Any other refusal, in words. -/
  | other (text : String)
deriving DecidableEq, Repr

namespace SystemError

/-- The wording of an error. -/
def message : SystemError → String
  | notFound => "No such file or directory (os error 2)"
  | permissionDenied => "Permission denied (os error 13)"
  | alreadyExists => "File exists (os error 17)"
  | notDirectory => "Not a directory (os error 20)"
  | isDirectory => "Is a directory (os error 21)"
  | invalidArgument => "Invalid argument (os error 22)"
  | nameTooLong => "File name too long (os error 36)"
  | nulInName => "file name contained an unexpected NUL byte"
  | other text => text

end SystemError

end HeapProfile
