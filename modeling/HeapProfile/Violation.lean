import HeapProfile.Tree.Builder

/-!
# Violations — when a trace contradicts itself

A run that meets a contradiction in the trace, or in what was handed to it, gives up with the
violation that it found.
-/

namespace HeapProfile

/-- A contradiction that makes a run give up. -/
inductive Violation
  /-- The parent links of a trace lead round in a cycle. -/
  | cyclicLinks (trace : TraceIndex)
  /-- The rows of a tree are no forest in location order. -/
  | shape (fault : ShapeFault)
  /-- The charts have no final labels. -/
  | labelsNotFrozen
  /-- A message of another kind was due. -/
  | messageExpected (kind : String)
  /-- A contradiction that somebody else found and put into words. -/
  | reported (text : String)
deriving DecidableEq, Repr

namespace Violation

/-- The wording of a violation. -/
def message : Violation → String
  | cyclicLinks trace => "trace " ++ toString trace.raw.toNat ++ " has cyclic parent links"
  | shape fault => fault.message
  | labelsNotFrozen => "chart labels were never frozen"
  | messageExpected kind => "expected " ++ kind ++ " message"
  | reported text => text

end Violation

end HeapProfile
