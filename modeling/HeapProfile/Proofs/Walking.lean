import Mathlib
import HeapProfile.CallPath

/-!
# Walking — the frames of a call path

`Walks` says which frames are met from a trace node outwards, without any bound on their number: the
walk ends before a number that refers to no node, and after a frame whose function is a stop.  The
bounded walk of the program agrees with it wherever it came to an end.

* **`walks_of_ended`** — a walk that ended has met exactly these frames;
* **`Walks.frames_unique`** — no other frames are met;
* **`Walks.ne_nil`** — a walk from a node of the table meets at least that node.
-/

namespace HeapProfile

namespace Tables

variable (tables : Tables) (stop : StringIndex → Bool)

/-- From a trace node outwards these frames are met; a frame whose address is not known has the
    default address. -/
inductive Walks : TraceIndex → List Ip → Prop where
  | outside {index : TraceIndex} : tables.trace? index = none → Walks index []
  | stopped {index : TraceIndex} {node : TraceNode} :
      tables.trace? index = some node → stop (tables.frameIp node).function = true →
      Walks index [tables.frameIp node]
  | onward {index : TraceIndex} {node : TraceNode} {frames : List Ip} :
      tables.trace? index = some node → stop (tables.frameIp node).function = false →
      Walks node.parent frames → Walks index (tables.frameIp node :: frames)

variable {tables stop}

theorem walkWithin_outside {index : TraceIndex} (h : tables.trace? index = none) (fuel : Nat) :
    tables.walkWithin stop fuel index = ⟨[], true⟩ := by
  rw [walkWithin.eq_def]
  simp only [h]

theorem walkWithin_stopped {index : TraceIndex} {node : TraceNode}
    (h : tables.trace? index = some node) (hstop : stop (tables.frameIp node).function = true)
    (fuel : Nat) :
    tables.walkWithin stop (fuel + 1) index = ⟨[tables.frameIp node], true⟩ := by
  rw [walkWithin.eq_def]
  simp only [h, hstop, if_true]

theorem walkWithin_onward {index : TraceIndex} {node : TraceNode}
    (h : tables.trace? index = some node) (hstop : stop (tables.frameIp node).function = false)
    (fuel : Nat) :
    tables.walkWithin stop (fuel + 1) index =
      ⟨tables.frameIp node :: (tables.walkWithin stop fuel node.parent).frames,
        (tables.walkWithin stop fuel node.parent).ended⟩ := by
  rw [walkWithin.eq_def]
  simp only [h, hstop, Bool.false_eq_true, if_false]

theorem walkWithin_zero {index : TraceIndex} {node : TraceNode}
    (h : tables.trace? index = some node) : tables.walkWithin stop 0 index = ⟨[], false⟩ := by
  rw [walkWithin.eq_def]
  simp only [h]

/-- **A walk that came to an end** within its bound has met the frames of the unbounded walk.  The
    induction is on the bound. -/
theorem walks_of_ended (fuel : Nat) (index : TraceIndex)
    (h : (tables.walkWithin stop fuel index).ended = true) :
    tables.Walks stop index (tables.walkWithin stop fuel index).frames := by
  induction fuel generalizing index with
  | zero =>
      cases hnode : tables.trace? index with
      | none =>
          rw [walkWithin_outside hnode]
          exact .outside hnode
      | some node =>
          -- without a step left a walk ends only outside the table
          rw [walkWithin_zero hnode] at h
          exact Bool.noConfusion h
  | succ fuel ih =>
      cases hnode : tables.trace? index with
      | none =>
          rw [walkWithin_outside hnode]
          exact .outside hnode
      | some node =>
          cases hstop : stop (tables.frameIp node).function with
          | true =>
              rw [walkWithin_stopped hnode hstop]
              exact .stopped hnode hstop
          | false =>
              rw [walkWithin_onward hnode hstop] at h ⊢
              exact .onward hnode hstop (ih node.parent h)

/-- **The frames of a walk are determined** by where it starts: each rule applies to nodes that no other
    rule applies to. -/
theorem Walks.frames_unique {index : TraceIndex} {frames frames' : List Ip}
    (h : tables.Walks stop index frames) (h' : tables.Walks stop index frames') :
    frames = frames' := by
  induction h generalizing frames' with
  | outside hnone =>
      cases h' with
      | outside _ => rfl
      | stopped hnode _ => rw [hnone] at hnode; exact nomatch hnode
      | onward hnode _ _ => rw [hnone] at hnode; exact nomatch hnode
  | stopped hnode hstop =>
      cases h' with
      | outside hnone => rw [hnone] at hnode; exact nomatch hnode
      | stopped hnode' _ =>
          rw [hnode, Option.some.injEq] at hnode'
          rw [hnode']
      | onward hnode' hgo _ =>
          rw [hnode, Option.some.injEq] at hnode'
          rw [← hnode', hstop] at hgo
          exact Bool.noConfusion hgo
  | onward hnode hgo _ ih =>
      cases h' with
      | outside hnone => rw [hnone] at hnode; exact nomatch hnode
      | stopped hnode' hstop =>
          rw [hnode, Option.some.injEq] at hnode'
          rw [← hnode', hgo] at hstop
          exact Bool.noConfusion hstop
      | onward hnode' _ hrest =>
          rw [hnode, Option.some.injEq] at hnode'
          subst hnode'
          rw [ih hrest]

/-- A walk from a node of the table meets at least that node. -/
theorem Walks.ne_nil {index : TraceIndex} {frames : List Ip} (h : tables.Walks stop index frames)
    (hnode : tables.trace? index ≠ none) : frames ≠ [] := by
  cases h with
  | outside hnone => exact absurd hnone hnode
  | stopped _ _ => exact List.cons_ne_nil _ _
  | onward _ _ _ => exact List.cons_ne_nil _ _

end Tables

end HeapProfile
