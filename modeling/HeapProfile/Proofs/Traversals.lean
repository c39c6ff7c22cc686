import HeapProfile.Proofs.Inversion
import HeapProfile.Proofs.Sessions

/-!
# Traversals — every row once, and every way up to its root

The depth-first order and the ancestry of a row follow links between numbers, and numbers promise
nothing: a link may lead back, or two links to one row.  Both traversals are bounded by the number of
rows, so that they end on any tree.  On a tree whose rows hang in one forest the bound is never met,
and both are what the loops without a bound come to:

* `visitNext` takes the row on top of a stack and pushes its children, the last of them first;
* `ascendNext` goes to the parent of the row passed last, until there is none.

`Nested` says the depth-first order by recursion, with neither stack nor bound.

* **`Nested.pairwise_precedes`** — the recursive order is the order of the paths;
* **`Lists.reaches`**, **`Way.reaches`** — the loops end, and with the bounded traversals;
* **`Shaped.walksInOrder`**, **`Shaped.climbsToRoot`** — what each traversal of a forest is, and
* **`TreeBuilder.calls_build_traversable`** — every tree that legal calls build is such a forest.
-/

namespace HeapProfile

namespace CostTree

variable {t : CostTree}

/-! ## The loops without a bound -/

/-- A walk through the rows on its way: the rows listed so far, and a stack of pending ones with its top
    at the end. -/
structure Visit where
  listed : List RowId := []
  stack : List RowId

/-- Lists the row on top of the stack and leaves its children there, the first of them uppermost; an
    empty stack ends the walk. -/
def visitNext (t : CostTree) (v : Visit) : Option Visit :=
  v.stack.getLast?.map fun id =>
    { listed := v.listed ++ [id], stack := v.stack.dropLast ++ (t.children id).reverse }

/-- A climb on its way: the rows passed so far, and the one above them, if there is one. -/
structure Ascent where
  passed : List RowId
  above : Option RowId

/-- Passes the next row on the way up; above a root there is none, which ends the climb. -/
def ascendNext (t : CostTree) (a : Ascent) : Option Ascent :=
  a.above.map fun id => { passed := a.passed ++ [id], above := (t.row id).parent }

/-! ## The depth-first order by recursion -/

/-- Some siblings with everything below them: a row, then what its children bring, and only then the
    siblings behind it. -/
inductive Nested (t : CostTree) : List RowId → List RowId → Prop where
  | nil : Nested t [] []
  | cons {id : RowId} {rest below behind : List RowId} :
      Nested t (t.children id) below → Nested t rest behind →
        Nested t (id :: rest) (id :: (below ++ behind))

theorem Nested.exists_append {left right order : List RowId} (h : t.Nested (left ++ right) order) :
    ∃ first second, t.Nested left first ∧ t.Nested right second ∧ order = first ++ second := by
  induction left generalizing order with
  | nil => exact ⟨[], order, .nil, h, rfl⟩
  | cons id left ih =>
      cases h with
      | @cons _ _ below behind hbelow hbehind =>
          obtain ⟨first, second, hfirst, hsecond, rfl⟩ := ih hbehind
          refine ⟨id :: (below ++ first), second, .cons hbelow hfirst, hsecond, ?_⟩
          rw [List.cons_append, List.append_assoc]

/-- **What is listed from pending rows is listed by recursion**: a row's children, once they are
    pending in front of its siblings, are done before them. -/
theorem Lists.nested {pending order : List RowId} (h : t.Lists pending order) :
    t.Nested pending order := by
  induction h with
  | done => exact .nil
  | visit _ ih =>
      obtain ⟨below, behind, hbelow, hbehind, rfl⟩ := ih.exists_append
      exact .cons hbelow hbehind

/-- The recursion has one outcome, so the depth-first order is the only one that it can describe. -/
theorem Nested.unique {ids order order' : List RowId} (h : t.Nested ids order)
    (h' : t.Nested ids order') : order = order' := by
  induction h generalizing order' with
  | nil =>
      cases h' with
      | nil => rfl
  | cons _ _ ihbelow ihbehind =>
      cases h' with
      | cons hbelow hbehind => rw [ihbelow hbelow, ihbehind hbehind]

/-- One row stands before another in the lexicographic order of paths, in which a path comes before
    those that it begins. -/
def Precedes (t : CostTree) (a b : RowId) : Prop :=
  ∃ p q, t.RowAt p a ∧ t.RowAt q b ∧ List.Lex Location.Before p q

/-- What siblings bring lies at or below one of them. -/
theorem Nested.exists_rowAt {ids order : List RowId} (h : t.Nested ids order)
    {path : List Location} {parent : Option RowId} (hpath : t.Leads path parent)
    (hids : ids ⊆ t.siblings parent) :
    ∀ k ∈ order, ∃ id ∈ ids, ∃ rest, t.RowAt (path ++ t.locationAt id :: rest) k := by
  induction h generalizing path parent with
  | nil => exact fun _ hk => nomatch hk
  | @cons id rest below behind _ _ ihbelow ihbehind =>
      obtain ⟨hid, hrest⟩ := List.cons_subset.1 hids
      have hrow : t.RowAt (path ++ [t.locationAt id]) id := .down hpath hid
      intro k hk
      rcases List.mem_cons.1 hk with rfl | hk
      · exact ⟨k, List.mem_cons_self, [], hrow⟩
      rcases List.mem_append.1 hk with hk | hk
      · obtain ⟨child, -, deeper, hdeeper⟩ := ihbelow hrow (List.Subset.refl _) k hk
        rw [List.append_assoc] at hdeeper
        exact ⟨id, List.mem_cons_self, _, hdeeper⟩
      · obtain ⟨sibling, hsibling, deeper, hdeeper⟩ := ihbehind hpath hrest k hk
        exact ⟨sibling, List.mem_cons_of_mem _ hsibling, deeper, hdeeper⟩

/-- **The recursive order is the order of the paths**, as long as siblings increase.  A row begins the
    paths of all that is below it, and two rows that part at some siblings stand as these do. -/
theorem Nested.pairwise_precedes (hi : t.Increasing) {ids order : List RowId}
    (h : t.Nested ids order) {path : List Location} {parent : Option RowId}
    (hpath : t.Leads path parent) (hids : ids.Sublist (t.siblings parent)) :
    order.Pairwise t.Precedes := by
  induction h generalizing path parent with
  | nil => exact List.Pairwise.nil
  | @cons id rest below behind hbelow hbehind ihbelow ihbehind =>
      have hid : id ∈ t.siblings parent := hids.subset List.mem_cons_self
      have hrest : rest.Sublist (t.siblings parent) := (List.sublist_cons_self id rest).trans hids
      have hrow : t.RowAt (path ++ [t.locationAt id]) id := .down hpath hid
      have hbefore : ∀ sibling ∈ rest, (t.locationAt id).Before (t.locationAt sibling) :=
        (List.pairwise_cons.1 ((hi parent).sublist hids)).1
      -- paths to rows below this one go through its location and on
      have hbeyond : ∀ a ∈ below, ∃ l deeper, t.RowAt (path ++ t.locationAt id :: l :: deeper) a := by
        intro a ha
        obtain ⟨child, -, deeper, hdeeper⟩ := hbelow.exists_rowAt hrow (List.Subset.refl _) a ha
        rw [List.append_assoc] at hdeeper
        exact ⟨_, deeper, hdeeper⟩
      have hinside : ∀ b ∈ below, t.Precedes id b := by
        intro b hb
        obtain ⟨l, deeper, hb⟩ := hbeyond b hb
        exact ⟨_, _, hrow, hb, List.Lex.append_left _ (.cons .nil) path⟩
      have hthrough : ∀ a ∈ id :: below, ∃ deeper, t.RowAt (path ++ t.locationAt id :: deeper) a := by
        refine List.forall_mem_cons.2 ⟨⟨[], hrow⟩, fun a ha => ?_⟩
        obtain ⟨l, deeper, ha⟩ := hbeyond a ha
        exact ⟨l :: deeper, ha⟩
      have hacross : ∀ a ∈ id :: below, ∀ b ∈ behind, t.Precedes a b := by
        intro a ha b hb
        obtain ⟨deeper, ha⟩ := hthrough a ha
        obtain ⟨sibling, hsibling, deeper', hb⟩ := hbehind.exists_rowAt hpath hrest.subset b hb
        exact ⟨_, _, ha, hb, List.Lex.append_left _ (.rel (hbefore sibling hsibling)) path⟩
      rw [← List.cons_append, List.pairwise_append, List.pairwise_cons]
      exact ⟨⟨hinside, ihbelow hrow (List.Sublist.refl _)⟩, ihbehind hpath hrest, hacross⟩

/-! ## The walk ends -/

theorem visitNext_reverse (t : CostTree) (listed : List RowId) (id : RowId) (pending : List RowId) :
    t.visitNext ⟨listed, (id :: pending).reverse⟩
      = some ⟨listed ++ [id], (t.children id ++ pending).reverse⟩ := by
  rw [visitNext, List.reverse_cons, List.getLast?_concat, List.dropLast_concat, List.reverse_append]
  rfl

/-- **The walk with a stack ends** where its pending rows are listed, and has listed them.  The stack is
    the list of pending rows, reversed. -/
theorem Lists.reaches {pending order : List RowId} (h : t.Lists pending order) (listed : List RowId) :
    StateTransition.Reaches t.visitNext ⟨listed, pending.reverse⟩ ⟨listed ++ order, []⟩ := by
  induction h generalizing listed with
  | done =>
      rw [List.append_nil]
      exact .refl
  | @visit id pending order _ ih =>
      have hrest := ih (listed ++ [id])
      rw [List.append_assoc] at hrest
      exact .head (visitNext_reverse t listed id pending) hrest

/-! ## The climb ends -/

namespace Way

variable {ids : List RowId} {id : RowId}

theorem exists_root (h : t.Way ids id) : ∃ root ∈ t.roots, ids.head? = some root := by
  induction h with
  | @root id hid => exact ⟨id, hid, rfl⟩
  | child _ _ ih =>
      obtain ⟨root, hroot, hhead⟩ := ih
      exact ⟨root, hroot, by rw [List.head?_append, hhead, Option.some_or]⟩

/-- Read from its end, a way follows the parent links. -/
theorem isChain_reverse (hl : t.Linked) (h : t.Way ids id) :
    ids.reverse.IsChain fun a b => (t.row a).parent = some b := by
  induction h with
  | root _ => exact .singleton _
  | @child ids parent id hway hid ih =>
      rw [List.reverse_append, List.reverse_singleton, List.singleton_append, List.isChain_cons]
      refine ⟨?_, ih⟩
      intro above habove
      rw [List.head?_reverse, hway.getLast?] at habove
      rw [hway.parent_eq hl hid, habove]

/-- **The climb without a bound ends** at the root, and has passed the way. -/
theorem reaches (hl : t.Linked) (h : t.Way ids id) (passed : List RowId) :
    StateTransition.Reaches t.ascendNext ⟨passed ++ [id], (t.row id).parent⟩
      ⟨passed ++ ids.reverse, none⟩ := by
  induction h generalizing passed with
  | @root id hid =>
      rw [hl.root_parent id hid]
      exact .refl
  | @child ids parent id hway hid ih =>
      have hrest := ih (passed ++ [id])
      rw [List.append_assoc, List.append_assoc] at hrest
      rw [hway.parent_eq hl hid, List.reverse_append]
      refine .head ?_ hrest
      rw [ascendNext, Option.map_some, List.append_assoc]
      rfl

end Way

/-! ## What the traversals of a forest are -/

/-- The depth-first order is what the walk with a stack ends with and what the recursion over siblings
    gives.  It has every row once, in the order of their paths, of which each row has exactly one; and
    the leaves are the rows without children, in the same order. -/
structure WalksInOrder (t : CostTree) : Prop where
  walk_ends : StateTransition.eval t.visitNext { stack := t.roots.reverse }
    = Part.some { listed := t.depthFirst, stack := [] }
  nested_iff : ∀ order, t.Nested t.roots order ↔ order = t.depthFirst
  once : t.depthFirst.Perm (List.range t.size)
  placed : ∀ id < t.size, ∃! path, t.RowAt path id
  increasing : t.depthFirst.Pairwise t.Precedes
  leaves_sublist : t.leaves.Sublist t.depthFirst
  mem_leaves_iff : ∀ id, id ∈ t.leaves ↔ id < t.size ∧ t.children id = []

/-- The ancestry of a row is what the climb along parent links ends with.  It begins with the row,
    meets no row twice, goes from each row to its parent and ends with a root; and read from its end it
    is the only way down from a root to the row. -/
structure ClimbsToRoot (t : CostTree) (id : RowId) : Prop where
  climb_ends : StateTransition.eval t.ascendNext { passed := [id], above := (t.row id).parent }
    = Part.some { passed := t.ancestry id, above := none }
  head : (t.ancestry id).head? = some id
  nodup : (t.ancestry id).Nodup
  links : (t.ancestry id).IsChain fun a b => (t.row a).parent = some b
  root : ∃ root ∈ t.roots, (t.ancestry id).getLast? = some root ∧ (t.row root).parent = none
  way_iff : ∀ ids, t.Way ids id ↔ ids = (t.ancestry id).reverse

theorem Shaped.mem_depthFirst_iff (hs : t.Shaped) (hl : t.Linked) (id : RowId) :
    id ∈ t.depthFirst ↔ id < t.size := by
  constructor
  · exact hl.lists.lt_size hs (fun root hroot => hs.lt_size (show root ∈ t.siblings none from hroot)) id
  · intro hid
    obtain ⟨path, hpath⟩ := exists_leads hs hid
    exact hl.mem_depthFirst hpath id rfl

/-- **The depth-first order of a linked forest** lists it row by row in the order of the paths. -/
theorem Shaped.walksInOrder (hs : t.Shaped) (hl : t.Linked) : t.WalksInOrder where
  walk_ends := Part.eq_some_iff.2 (StateTransition.mem_eval.2 ⟨hl.lists.reaches [], rfl⟩)
  nested_iff := by
    intro order
    constructor
    · exact fun h => h.unique hl.lists.nested
    · rintro rfl
      exact hl.lists.nested
  once := by
    refine (List.perm_ext_iff_of_nodup hl.nodup List.nodup_range).2 fun id => ?_
    rw [hs.mem_depthFirst_iff hl, List.mem_range]
  placed := by
    intro id hid
    obtain ⟨path, hpath⟩ := exists_leads hs hid
    exact ⟨path, hpath, fun _ h => h.path_unique hs hpath⟩
  increasing := hl.lists.nested.pairwise_precedes hs.increasing .top (List.Sublist.refl _)
  leaves_sublist := List.filter_sublist
  mem_leaves_iff := by
    intro id
    rw [leaves, List.mem_filter, hs.mem_depthFirst_iff hl, isLeaf, List.isEmpty_iff]

/-- **The ancestry of a row of a linked forest** is the way up to its root.  There is a way down to the
    row, and the climb reads it from its end. -/
theorem Shaped.climbsToRoot (hs : t.Shaped) (hl : t.Linked) {id : RowId} (hid : id < t.size) :
    t.ClimbsToRoot id := by
  obtain ⟨path, hpath⟩ := exists_leads hs hid
  obtain ⟨ids, hway, -⟩ := hpath.exists_way id rfl
  have hancestry : t.ancestry id = ids.reverse := hway.ancestry_eq hl
  constructor
  case climb_ends =>
    rw [hancestry]
    exact Part.eq_some_iff.2 (StateTransition.mem_eval.2 ⟨hway.reaches hl [], rfl⟩)
  case head => rw [hancestry, List.head?_reverse, hway.getLast?]
  case nodup => exact hancestry ▸ List.nodup_reverse.2 (hway.nodup hl)
  case links => exact hancestry ▸ hway.isChain_reverse hl
  case root =>
    obtain ⟨root, hroot, hhead⟩ := hway.exists_root
    exact ⟨root, hroot, by rw [hancestry, List.getLast?_reverse, hhead], hl.root_parent root hroot⟩
  case way_iff =>
    intro ids'
    constructor
    · intro h
      rw [h.ancestry_eq hl, List.reverse_reverse]
    · rintro rfl
      rwa [hancestry, List.reverse_reverse]

end CostTree

/-! ## Trees built by calls -/

namespace TreeBuilder

/-- A sound session is finished into a linked forest. -/
theorem Session.Sound.exists_forest {s : Session} (h : s.Sound) :
    ∃ t, s.builder.finish = .ok t ∧ t.Shaped ∧ t.Linked := by
  obtain ⟨t, ht⟩ := exists_finish h.shaped
  exact ⟨t, ht, (sameShape_finish ht).shaped h.shaped, finish_linked ht⟩

/-- **Trees built by calls are traversed canonically.**  After any calls on rows that there are, which
    are the ones handed out before, the builder can be finished; the depth-first order of the tree
    lists every row once in the order of the paths, and from every row the ancestry climbs the one way
    to its root.  Neither traversal is cut off by its bound. -/
theorem calls_build_traversable {calls : List Call} (hlegal : Session.Legal {} calls) :
    ∃ t, (calls.foldl Session.call {}).builder.finish = .ok t ∧ t.WalksInOrder ∧
      ∀ id < t.size, t.ClimbsToRoot id := by
  obtain ⟨t, ht, hs, hl⟩ := (Session.sound_calls Session.sound_empty hlegal).exists_forest
  exact ⟨t, ht, hs.walksInOrder hl, fun _ hid => hs.climbsToRoot hl hid⟩

/-- A function that calls itself, callees that are asked for in another order than they are listed in,
    a path that ends where others go on, and a second root that comes first. -/
def nestedCalls : List Call :=
  [.findOrInsert none { function := "main" }, .findOrInsert (some 0) { function := "work" },
    .findOrInsert (some 1) { function := "work" }, .findOrInsert (some 0) { function := "load" },
    .charge 1 { allocated := 8 }, .findOrInsert (some 2) { function := "work" },
    .findOrInsert none { function := "init" }, .findOrInsert (some 1) { function := "grow" },
    .findOrInsert (some 0) { function := "work" }]

theorem calls_build_traversable_sample :
    Session.Legal {} nestedCalls ∧
      ∃ t, (nestedCalls.foldl Session.call {}).builder.finish = .ok t ∧ t.WalksInOrder ∧
        (∀ id < t.size, t.ClimbsToRoot id) ∧ t.depthFirst = [5, 0, 3, 1, 6, 2, 4] ∧
        t.leaves = [5, 3, 6, 4] ∧ t.ancestry 4 = [4, 2, 1, 0] := by
  have hlegal : Session.Legal {} nestedCalls := by decide +kernel
  obtain ⟨t, ht, hwalks, hclimbs⟩ := calls_build_traversable hlegal
  have horders : (nestedCalls.foldl Session.call {}).builder.finish.toOption.map
      (fun t => (t.depthFirst, t.leaves, t.ancestry 4))
        = some ([5, 0, 3, 1, 6, 2, 4], [5, 3, 6, 4], [4, 2, 1, 0]) := by
    decide +kernel
  rw [ht, Except.toOption, Option.map_some, Option.some.injEq, Prod.mk.injEq, Prod.mk.injEq]
    at horders
  exact ⟨hlegal, t, ht, hwalks, hclimbs, horders⟩

end TreeBuilder

end HeapProfile
