import HeapProfile.Folded
import HeapProfile.Proofs.Traversals

/-!
# Carrying — the texts of folded stacks along the walk

A folded stack has the frames from a root down to its row.  `CostTree.frames` climbs for them from every
row anew.  A single walk through the forest gets them without climbing, since it comes to a row from the
parent: it keeps with every pending row the text of its stack, and a child's text is the parent's with a
semicolon and one more frame.

`foldNext` is a round of that walk.  It shares the order of the rows with `visitNext`, and what has to
be shown is that each row is met with the text that the climb from it gives.

* **`Way.stackText_child`** — the text of a child is that of its parent and one frame behind it;
* **`foldNext_carried`** — a round lists the stack of the row on top and leaves its children with the
  texts of their own;
* **`Linked.eval_foldNext`**, **`folded_of_carrying`** — the walk ends, on every inverted tree, and the
  stacks it has listed, put in order, are the folded stacks.
-/

namespace HeapProfile

namespace CostTree

variable {t d : CostTree} {field : CostField}

/-! ## A walk that carries texts -/

/-- The function of a row as a frame. -/
def frameOf (t : CostTree) (id : RowId) : String := frameName (t.row id).location.function

/-- Folding on its way: the stacks listed so far, and the pending rows with the texts of their stacks,
    the top of them at the end. -/
structure Folding where
  listed : List FoldedStack := []
  pending : List (RowId × String)

/-- The roots are pending with a frame each, the first of them on top. -/
def foldStart (t : CostTree) : Folding where
  pending := t.roots.reverse.map fun id => (id, t.frameOf id)

/-- Takes the row on top, lists the text kept with it if the row costs something itself, and leaves its
    children there, the first of them on top, each with its own frame behind that text.  The walk is
    over when nothing is pending. -/
def foldNext (t : CostTree) (field : CostField) (f : Folding) : Option Folding :=
  f.pending.getLast?.map fun (id, text) =>
    let weight := (t.selfCost id).get field
    { listed := if 0 < weight then f.listed ++ [{ stack := text, weight }] else f.listed
      pending := f.pending.dropLast
        ++ (t.children id).reverse.map fun child => (child, text ++ ";" ++ t.frameOf child) }

/-! ## The text of a stack -/

/-- The text of the stack of a row, by the climb from it. -/
def stackText (t : CostTree) (id : RowId) : String := String.intercalate ";" (t.frames id)

/-- A row with the text that it should be met with. -/
def carried (t : CostTree) (id : RowId) : RowId × String := (id, t.stackText id)

/-- The climb from a row finds the frames of the rows on the way down to it. -/
theorem Way.frames_eq (hl : t.Linked) {ids : List RowId} {id : RowId} (h : t.Way ids id) :
    t.frames id = ids.map t.frameOf := by
  rw [frames, h.ancestry_eq hl, List.reverse_reverse]
  rfl

/-- A root has a text of one frame, the one that the walk begins with. -/
theorem Linked.carried_root (hl : t.Linked) {id : RowId} (hid : id ∈ t.roots) :
    t.carried id = (id, t.frameOf id) := by
  rw [carried, stackText, (Way.root hid).frames_eq hl, List.map_singleton, String.intercalate_singleton]

/-- **The text of a child** is that of its parent with a semicolon and its own frame behind it.  There
    is a frame in front of the semicolon, because a way has at least one row. -/
theorem Way.stackText_child (hl : t.Linked) {ids : List RowId} {parent id : RowId}
    (h : t.Way ids parent) (hid : id ∈ t.children parent) :
    t.stackText id = t.stackText parent ++ ";" ++ t.frameOf id := by
  have hne : ids.map t.frameOf ≠ [] :=
    mt List.map_eq_nil_iff.1 (List.ne_nil_of_length_pos h.length_pos)
  rw [stackText, stackText, (h.child hid).frames_eq hl, h.frames_eq hl, List.map_append,
    List.map_singleton, String.intercalate_append_of_ne_nil hne (List.cons_ne_nil _ _),
    String.intercalate_singleton]

/-! ## The walk ends with the folded stacks -/

/-- **A round of the walk** lists the stack of the row on top, if it has one, and each child is pending
    with its text when the row itself was. -/
theorem foldNext_carried (hl : t.Linked) {ids : List RowId} {id : RowId} (h : t.Way ids id)
    (field : CostField) (listed : List FoldedStack) (pending : List RowId) :
    t.foldNext field ⟨listed, (id :: pending).reverse.map t.carried⟩
      = some ⟨listed ++ (t.foldedRow? field id).toList,
          (t.children id ++ pending).reverse.map t.carried⟩ := by
  have hchildren : ((t.children id).reverse.map fun child =>
      (child, t.stackText id ++ ";" ++ t.frameOf child)) = (t.children id).reverse.map t.carried := by
    refine List.map_congr_left fun child hchild => ?_
    rw [carried, h.stackText_child hl (List.mem_reverse.1 hchild)]
  have hstack : (if 0 < (t.selfCost id).get field
        then listed ++ [{ stack := t.stackText id, weight := (t.selfCost id).get field }]
        else listed)
      = listed ++ (t.foldedRow? field id).toList := by
    rw [foldedRow?]
    by_cases hzero : (t.selfCost id).get field = 0
    · have hnone : ¬ 0 < (t.selfCost id).get field := mt UInt64.pos_iff_ne_zero.1 (not_not_intro hzero)
      rw [if_neg hnone, if_pos hzero, Option.toList_none, List.append_nil]
    · rw [if_pos (UInt64.pos_iff_ne_zero.2 hzero), if_neg hzero, Option.toList_some, stackText]
  rw [List.reverse_cons, List.map_append, List.map_singleton, List.reverse_append, List.map_append,
    ← hchildren, ← hstack]
  simp only [foldNext, List.getLast?_concat, List.dropLast_concat, Option.map_some, carried]

/-- **The walk ends** where its pending rows are listed, if each of them lies on a way from a root.  It
    has listed the stacks of all rows met, in the order in which they were met. -/
theorem Lists.reaches_folding (hl : t.Linked) {pending order : List RowId} (h : t.Lists pending order)
    (hways : ∀ id ∈ pending, ∃ ids, t.Way ids id) (field : CostField) (listed : List FoldedStack) :
    StateTransition.Reaches (t.foldNext field) ⟨listed, pending.reverse.map t.carried⟩
      ⟨listed ++ order.filterMap (t.foldedRow? field), []⟩ := by
  induction h generalizing listed with
  | done =>
      rw [List.filterMap_nil, List.append_nil]
      exact .refl
  | @visit id pending order _ ih =>
      obtain ⟨⟨ids, hway⟩, hpending⟩ := List.forall_mem_cons.1 hways
      have hchildren : ∀ child ∈ t.children id, ∃ below, t.Way below child :=
        fun child hchild => ⟨_, hway.child hchild⟩
      have hlisted : (id :: order).filterMap (t.foldedRow? field)
          = (t.foldedRow? field id).toList ++ order.filterMap (t.foldedRow? field) := by
        rw [List.filterMap_eq_flatMap_toList, List.filterMap_eq_flatMap_toList, List.flatMap_cons]
      rw [hlisted, ← List.append_assoc]
      exact .head (foldNext_carried hl hway field listed pending)
        (ih (List.forall_mem_append.2 ⟨hchildren, hpending⟩) _)

/-- **On a linked forest the walk ends**, and has listed the stacks of its rows in depth-first order. -/
theorem Linked.eval_foldNext (hl : t.Linked) (field : CostField) :
    StateTransition.eval (t.foldNext field) t.foldStart
      = Part.some { listed := t.depthFirst.filterMap (t.foldedRow? field), pending := [] } := by
  have hstart : t.foldStart = ⟨[], t.roots.reverse.map t.carried⟩ := by
    rw [foldStart, List.map_congr_left fun id hid => (hl.carried_root (List.mem_reverse.1 hid)).symm]
  have hreaches := hl.lists.reaches_folding hl (fun id hid => ⟨[id], .root hid⟩) field []
  rw [hstart]
  exact Part.eq_some_iff.2 (StateTransition.mem_eval.2 ⟨hreaches, rfl⟩)

/-- **Folding is one walk that carries the texts along.**  On every inverted tree, and by any field, the
    walk ends with nothing pending, and the stacks that it has listed, sorted by weight and text, are
    the folded stacks of the tree. -/
theorem folded_of_carrying (h : t.invert = .ok d) (field : CostField) :
    ∃ listed, StateTransition.eval (d.foldNext field) d.foldStart
        = Part.some { listed, pending := [] } ∧
      d.folded field = listed.mergeSort FoldedStack.listedBefore := by
  obtain ⟨-, hl, -⟩ := TreeBuilder.trie_of_finish (finish_of_invert h)
  exact ⟨_, hl.eval_foldNext field, rfl⟩

end CostTree

end HeapProfile
