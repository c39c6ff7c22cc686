import HeapProfile.Interning

/-!
# Call paths — walking from an allocation site outwards

A call path starts at a trace node and follows parent links.  It ends after a frame whose function
is a stop, or before a number that refers to no node.  A path through more frames than there are
nodes has come round in a cycle, and the walk gives up there.  `Tables.walk` walks, and
`Tables.caller?` is a single step of the walk.
-/

namespace HeapProfile

/-- The frames that a walk met, innermost first, and whether the walk came to an end. -/
structure Walk where
  frames : List Ip
  ended : Bool
deriving DecidableEq, Repr

namespace Tables

variable (tables : Tables) (stop : StringIndex → Bool)

/-- The address of a frame; a frame whose address is not known has the default address. -/
def frameIp (node : TraceNode) : Ip := (tables.ip? node.ip).getD {}

/-- The frame that a walk goes on to from a frame, or none where the walk ends after it. -/
def caller? (index : TraceIndex) : Option TraceIndex := do
  let node ← tables.trace? index
  if stop (tables.frameIp node).function then none
  else
    let _ ← tables.trace? node.parent
    return node.parent

/-- The walk from a trace node through at most the given number of frames. -/
def walkWithin : Nat → TraceIndex → Walk
  | fuel, index =>
    match tables.trace? index with
    | none => ⟨[], true⟩
    | some node =>
      match fuel with
      | 0 => ⟨[], false⟩
      | fuel + 1 =>
        let ip := tables.frameIp node
        -- the frame of a stop is part of the path
        if stop ip.function then ⟨[ip], true⟩
        else
          let outer := walkWithin fuel node.parent
          ⟨ip :: outer.frames, outer.ended⟩

/-- The walk from a trace node; it has room for every node of the table once. -/
def walk (index : TraceIndex) : Walk := tables.walkWithin stop tables.traces.size index

end Tables

end HeapProfile
