import HeapProfile.Proofs.Growth

/-!
# Linking — finishing a forest gives every row its parent

`finish` goes once through the rows and writes down parents; a row that it meets twice, or siblings
out of order, make it fail.  Two facts about that pass carry everything that is said of finished
trees.

* **`finish_linked`** — whatever the builder was, a pass that succeeds has gone through the rows in
  depth-first order, met none of them twice, and left in every row the parent it was met under;
* **`exists_finish`** — over a forest in shape the pass succeeds.

The first is an induction on the pass that is packed up in `link_induction`.  The second needs an
invariant of a pass that is half done, `Halfway`: what is pending hangs below what is done.
-/

namespace HeapProfile

/-- A computation succeeds if its first half does, and its second half on what that one gave. -/
theorem bind_eq_ok {ε α β : Type} {first : Except ε α} {second : α → Except ε β} {b : β} :
    (first >>= second) = .ok b ↔ ∃ a, first = .ok a ∧ second a = .ok b := by
  cases first with
  | error _ => simp [bind, Except.bind]
  | ok _ => simp [bind, Except.bind]

namespace CostTree

/-- All rows below some pending ones, each row before its children and those before what was pending
    behind it. -/
inductive Lists (t : CostTree) : List RowId → List RowId → Prop where
  | done : Lists t [] []
  | visit {id : RowId} {pending order : List RowId} :
      Lists t (t.children id ++ pending) order → Lists t (id :: pending) (id :: order)

/-- The parent links of a tree agree with its lists of siblings. -/
structure Linked (t : CostTree) : Prop where
  lists : t.Lists t.roots t.depthFirst
  nodup : t.depthFirst.Nodup
  root_parent : ∀ id ∈ t.roots, (t.row id).parent = none
  child_parent : ∀ id ∈ t.depthFirst, ∀ c ∈ t.children id, (t.row c).parent = some id

/-- A tree that some builder finished. -/
def Finished (t : CostTree) : Prop := ∃ b : TreeBuilder, b.finish = .ok t

variable {t : CostTree}

theorem Lists.pending_subset {pending order : List RowId} (h : t.Lists pending order) :
    pending ⊆ order := by
  induction h with
  | done => exact List.Subset.refl _
  | visit _ ih =>
      intro x hx
      rcases List.mem_cons.1 hx with rfl | hx
      · exact List.mem_cons_self
      · exact List.mem_cons_of_mem _ (ih (List.mem_append_right _ hx))

theorem Lists.children_subset {pending order : List RowId} (h : t.Lists pending order) {id : RowId}
    (hid : id ∈ order) : t.children id ⊆ order := by
  induction h with
  | done => exact nomatch hid
  | visit hrest ih =>
      intro x hx
      rcases List.mem_cons.1 hid with rfl | hid
      · exact List.mem_cons_of_mem _ (hrest.pending_subset (List.mem_append_left _ hx))
      · exact List.mem_cons_of_mem _ (ih hid hx)

/-- A row that some path leads to is met in depth-first order. -/
theorem Linked.mem_depthFirst (hl : t.Linked) {path : List Location} {at' : Option RowId}
    (h : t.Leads path at') : ∀ id, at' = some id → id ∈ t.depthFirst := by
  induction h with
  | top => exact fun _ h => nomatch h
  | @down path parent id _ hid ih =>
      rintro _ ⟨⟩
      cases parent with
      | none => exact hl.lists.pending_subset hid
      | some p => exact hl.lists.children_subset (ih p rfl) hid

/-- A row knows the row it hangs below. -/
theorem Linked.parent_eq (hl : t.Linked) {path : List Location} {parent : Option RowId}
    (hpath : t.Leads path parent) {id : RowId} (hid : id ∈ t.siblings parent) :
    (t.row id).parent = parent := by
  cases parent with
  | none => exact hl.root_parent id hid
  | some p => exact hl.child_parent p (hl.mem_depthFirst hpath p rfl) id hid

end CostTree

namespace TreeBuilder

/-! ## What the pass leaves alone -/

/-- Rows that differ in their parent links only. -/
structure SameRows (rows rows' : Array Row) : Prop where
  size : rows'.size = rows.size
  location : ∀ id : RowId, ((rows'[id]?).getD {}).location = ((rows[id]?).getD {}).location
  cost : ∀ id : RowId, ((rows'[id]?).getD {}).cost = ((rows[id]?).getD {}).cost
  children : ∀ id : RowId, ((rows'[id]?).getD {}).children = ((rows[id]?).getD {}).children

theorem SameRows.refl (rows : Array Row) : SameRows rows rows :=
  ⟨rfl, fun _ => rfl, fun _ => rfl, fun _ => rfl⟩

theorem SameRows.symm {a b : Array Row} (h : SameRows a b) : SameRows b a where
  size := h.size.symm
  location := fun id => (h.location id).symm
  cost := fun id => (h.cost id).symm
  children := fun id => (h.children id).symm

theorem SameRows.trans {a b c : Array Row} (hab : SameRows a b) (hbc : SameRows b c) :
    SameRows a c where
  size := hbc.size.trans hab.size
  location := fun id => (hbc.location id).trans (hab.location id)
  cost := fun id => (hbc.cost id).trans (hab.cost id)
  children := fun id => (hbc.children id).trans (hab.children id)

theorem sameRows_modify_parent (rows : Array Row) (id : RowId) (parent : Option RowId) :
    SameRows rows (rows.modify id fun row => { row with parent }) := by
  constructor
  case size => exact Array.size_modify
  all_goals
    intro k
    rw [getD_modify]
    split <;> rfl

/-! ## One step of the pass -/

variable {fuel : Nat} {pending : List (RowId × Option RowId)} {visited : Array Bool}
  {rows rows' : Array Row}

theorem link_nil (fuel : Nat) (visited : Array Bool) (rows : Array Row) :
    link fuel [] visited rows = .ok rows := by
  cases fuel <;> rfl

/-- A pass that succeeds took its next row, which it had not met before.  Everything else about passes
    is an induction with this inversion as its step. -/
theorem link_cons {id : RowId} {parent : Option RowId}
    (h : link fuel ((id, parent) :: pending) visited rows = .ok rows') :
    ∃ n, fuel = n + 1 ∧ visited[id]? = some false ∧
      link n (((rows[id]?).getD {}).children.map (fun child => (child, some id)) ++ pending)
        (visited.setIfInBounds id true) (rows.modify id fun row => { row with parent })
        = .ok rows' := by
  cases fuel with
  | zero => exact nomatch h
  | succ n =>
      rw [link] at h
      cases hv : visited[id]? with
      | none => simp [hv] at h
      | some seen =>
          cases seen with
          | true => simp [hv] at h
          | false =>
              rw [hv] at h
              exact ⟨n, rfl, rfl, h⟩

/-- Linking changes parents only.  By induction on the fuel, as each step sets the parent of one row. -/
theorem link_sameRows (h : link fuel pending visited rows = .ok rows') : SameRows rows rows' := by
  induction fuel generalizing pending visited rows with
  | zero =>
      cases pending with
      | nil =>
          rw [link_nil] at h
          cases h
          exact SameRows.refl _
      | cons head rest => exact nomatch link_cons h
  | succ n ih =>
      cases pending with
      | nil =>
          rw [link_nil] at h
          cases h
          exact SameRows.refl _
      | cons head rest =>
          obtain ⟨n', hn, -, hrest⟩ := link_cons h
          obtain rfl : n = n' := by omega
          exact (sameRows_modify_parent _ _ _).trans (ih hrest)

/-- The children of a row, to be met under it. -/
def below (t : CostTree) (id : RowId) : List (RowId × Option RowId) :=
  (t.children id).map fun child => (child, some id)

variable {t : CostTree}

theorem map_fst_below (t : CostTree) (id : RowId) (pending : List (RowId × Option RowId)) :
    (below t id ++ pending).map Prod.fst = t.children id ++ pending.map Prod.fst := by
  rw [below, List.map_append, List.map_map]
  simp [Function.comp_def]

/-- **Induction on a pass that succeeds.**  Its steps read the children of a row off the tree that
    comes out, which has the same ones. -/
theorem link_induction
    {motive : Nat → List (RowId × Option RowId) → Array Bool → Array Row → Prop}
    (done : ∀ fuel visited, motive fuel [] visited t.rows)
    (visit : ∀ fuel id parent pending visited rows, visited[id]? = some false →
      link fuel (below t id ++ pending) (visited.setIfInBounds id true)
        (rows.modify id fun row => { row with parent }) = .ok t.rows →
      motive fuel (below t id ++ pending) (visited.setIfInBounds id true)
        (rows.modify id fun row => { row with parent }) →
      motive (fuel + 1) ((id, parent) :: pending) visited rows)
    (h : link fuel pending visited rows = .ok t.rows) : motive fuel pending visited rows := by
  induction fuel generalizing pending visited rows with
  | zero =>
      cases pending with
      | nil =>
          rw [link_nil] at h
          cases h
          exact done _ _
      | cons head rest =>
          obtain ⟨n, hn, -⟩ := link_cons h
          exact nomatch hn
  | succ n ih =>
      cases pending with
      | nil =>
          rw [link_nil] at h
          cases h
          exact done _ _
      | cons head rest =>
          have hchildren := (link_sameRows h).children head.1
          obtain ⟨n', hn, hfresh, hrest⟩ := link_cons h
          obtain rfl : n = n' := by omega
          rw [← hchildren] at hrest
          exact visit n head.1 head.2 rest visited rows hfresh hrest (ih hrest)

/-! ## What a pass that succeeds has done -/

/-- The pass goes through the rows in depth-first order, and ends only when nothing is pending.  So a
    pass that succeeds was not cut off by its bound. -/
theorem lists_of_link (h : link fuel pending visited rows = .ok t.rows) :
    t.Lists (pending.map Prod.fst) (t.preorder fuel (pending.map Prod.fst)) := by
  refine link_induction (motive := fun fuel pending _ _ =>
    t.Lists (pending.map Prod.fst) (t.preorder fuel (pending.map Prod.fst))) ?_ ?_ h
  · intro fuel _
    cases fuel <;> exact .done
  · intro fuel id parent pending _ _ _ _ ih
    rw [map_fst_below] at ih
    rw [List.map_cons, CostTree.preorder]
    exact .visit ih

/-- The rows on the way of the pass were not met before it: it stops with a fault at the first
    row that was. -/
theorem fresh_of_link (h : link fuel pending visited rows = .ok t.rows) :
    ∀ id ∈ t.preorder fuel (pending.map Prod.fst), visited[id]? = some false := by
  refine link_induction (motive := fun fuel pending visited _ =>
    ∀ id ∈ t.preorder fuel (pending.map Prod.fst), visited[id]? = some false) ?_ ?_ h
  · intro fuel _ id hid
    cases fuel <;> exact nomatch hid
  · intro fuel id parent pending visited _ hfresh _ ih k hk
    rw [map_fst_below] at ih
    rw [List.map_cons, CostTree.preorder, List.mem_cons] at hk
    rcases hk with rfl | hk
    · exact hfresh
    · have hk' := ih k hk
      rw [Array.getElem?_setIfInBounds] at hk'
      by_cases hki : id = k
      · rw [if_pos hki] at hk'
        split at hk' <;> simp at hk'
      · rwa [if_neg hki] at hk'

/-- No row is met twice: the one that is met is marked, and what is met behind it is not. -/
theorem nodup_of_link (h : link fuel pending visited rows = .ok t.rows) :
    (t.preorder fuel (pending.map Prod.fst)).Nodup := by
  refine link_induction (motive := fun fuel pending _ _ =>
    (t.preorder fuel (pending.map Prod.fst)).Nodup) ?_ ?_ h
  · intro fuel _
    cases fuel <;> exact List.nodup_nil
  · intro fuel id parent pending visited rows hfresh hrest ih
    have hlt : id < visited.size := (Array.getElem?_eq_some_iff.1 hfresh).1
    rw [map_fst_below] at ih
    rw [List.map_cons, CostTree.preorder, List.nodup_cons]
    refine ⟨?_, ih⟩
    -- the row itself is marked by now, and what follows is not
    intro hmem
    rw [← map_fst_below] at hmem
    have hfalse := fresh_of_link hrest id hmem
    rw [Array.getElem?_setIfInBounds_self_of_lt hlt] at hfalse
    simp at hfalse

/-- A row that was met before stays as it is. -/
theorem kept_of_link (h : link fuel pending visited rows = .ok t.rows) :
    ∀ id : RowId, visited[id]? = some true → t.rows[id]? = rows[id]? := by
  refine link_induction (motive := fun _ _ visited rows =>
    ∀ id : RowId, visited[id]? = some true → t.rows[id]? = rows[id]?) ?_ ?_ h
  · intro _ _ id _
    rfl
  · intro _ id _ _ visited _ hfresh _ ih k hk
    have hne : id ≠ k := by
      rintro rfl
      rw [hfresh] at hk
      simp at hk
    rw [← Array.getElem?_setIfInBounds_ne hne] at hk
    rw [ih k hk, Array.getElem?_modify, if_neg hne]

/-- What is pending gets the parent it is pending under, and keeps it: a row that is marked is not
    touched again. -/
theorem parent_of_link (h : link fuel pending visited rows = .ok t.rows)
    (hsize : visited.size = rows.size) : ∀ e ∈ pending, (t.row e.1).parent = e.2 := by
  refine link_induction (motive := fun _ pending visited rows =>
    visited.size = rows.size → ∀ e ∈ pending, (t.row e.1).parent = e.2) ?_ ?_ h hsize
  · intro _ _ _ e he
    exact nomatch he
  · intro _ id parent pending visited rows hfresh hrest ih hsize e he
    have hlt : id < visited.size := (Array.getElem?_eq_some_iff.1 hfresh).1
    rcases List.mem_cons.1 he with rfl | he
    · -- from here on the row counts as met and is not touched again
      have hkept := kept_of_link hrest id (Array.getElem?_setIfInBounds_self_of_lt hlt)
      rw [CostTree.row, hkept, getD_modify, if_pos ⟨rfl, hsize ▸ hlt⟩]
    · refine ih ?_ e (List.mem_append_right _ he)
      rw [Array.size_setIfInBounds, Array.size_modify, hsize]

/-- Every row that is met passes itself on to its children, and none of them is met a second time, so
    the link stays. -/
theorem child_parent_of_link (h : link fuel pending visited rows = .ok t.rows)
    (hsize : visited.size = rows.size) :
    ∀ id ∈ t.preorder fuel (pending.map Prod.fst), ∀ c ∈ t.children id,
      (t.row c).parent = some id := by
  refine link_induction (motive := fun fuel pending visited rows => visited.size = rows.size →
    ∀ id ∈ t.preorder fuel (pending.map Prod.fst), ∀ c ∈ t.children id,
      (t.row c).parent = some id) ?_ ?_ h hsize
  · intro fuel _ _ id hid
    cases fuel <;> exact nomatch hid
  · intro fuel id parent pending visited rows _ hrest ih hsize k hk c hc
    have hsize' : (visited.setIfInBounds id true).size
        = (rows.modify id fun row => { row with parent }).size := by
      rw [Array.size_setIfInBounds, Array.size_modify, hsize]
    rw [List.map_cons, CostTree.preorder, List.mem_cons, ← map_fst_below] at hk
    rcases hk with rfl | hk
    · have hmem : (c, some k) ∈ below t k ++ pending :=
        List.mem_append_left _ (List.mem_map_of_mem hc)
      exact parent_of_link hrest hsize' (c, some k) hmem
    · exact ih hsize' k hk c hc

/-! ## Finished trees -/

variable {b : TreeBuilder}

theorem link_of_finish (h : b.finish = .ok t) :
    t.roots = b.roots ∧
      link b.size (b.roots.map fun id => (id, none)) (Array.replicate b.size false) b.rows
        = .ok t.rows := by
  rw [finish] at h
  obtain ⟨rows', hlink, h⟩ := bind_eq_ok.1 h
  obtain ⟨_, -, h⟩ := bind_eq_ok.1 h
  obtain ⟨_, -, h⟩ := bind_eq_ok.1 h
  cases h
  exact ⟨rfl, hlink⟩

theorem sameRows_finish (h : b.finish = .ok t) : SameRows b.rows t.rows :=
  link_sameRows (link_of_finish h).2

theorem cost_finish (h : b.finish = .ok t) (id : RowId) : (t.row id).cost = (b.row id).cost :=
  (sameRows_finish h).cost id

/-- **Finishing changes no way down.**  It writes parent links, and the ways down never
    look at these. -/
theorem sameShape_finish (h : b.finish = .ok t) : CostTree.SameShape b.forest t where
  size := (sameRows_finish h).size
  siblings := by
    intro parent
    cases parent with
    | none => exact (link_of_finish h).1
    | some id => exact (sameRows_finish h).children id
  location := (sameRows_finish h).location

/-- **A finished tree is linked**, whatever the builder was.  The pass goes through the rows in
    depth-first order, stops with a fault at a row that it meets again, and writes the parent
    links on its way. -/
theorem finish_linked (h : b.finish = .ok t) : t.Linked := by
  obtain ⟨hroots, hlink⟩ := link_of_finish h
  have hsize : (Array.replicate b.size false).size = b.rows.size := Array.size_replicate
  have hdepth : t.depthFirst
      = t.preorder b.size ((b.roots.map fun id => (id, (none : Option RowId))).map Prod.fst) := by
    rw [CostTree.depthFirst, hroots, show t.size = b.size from (sameRows_finish h).size,
      List.map_map]
    simp [Function.comp_def]
  constructor
  case lists =>
    have hlists := lists_of_link hlink
    rw [← hdepth] at hlists
    rw [hroots]
    simpa [Function.comp_def] using hlists
  case nodup =>
    rw [hdepth]
    exact nodup_of_link hlink
  case root_parent =>
    intro id hid
    rw [hroots] at hid
    exact parent_of_link hlink hsize (id, none) (List.mem_map_of_mem hid)
  case child_parent =>
    rw [hdepth]
    exact child_parent_of_link hlink hsize

/-! ## Over a forest in shape the pass succeeds -/

/-- A pass that has met the rows `met` and has others pending: what is pending hangs below what was
    met and was not met itself, and above everything that was met everything was met. -/
structure Halfway (t : CostTree) (met : List RowId) (pending : List (RowId × Option RowId)) :
    Prop where
  met_nodup : met.Nodup
  met_lt : ∀ id ∈ met, id < t.size
  above_met : ∀ id ∈ met, ∀ p, id ∈ t.siblings (some p) → p ∈ met
  hangs : ∀ e ∈ pending, e.1 ∈ t.siblings e.2
  pending_nodup : (pending.map Prod.fst).Nodup
  pending_fresh : ∀ e ∈ pending, e.1 ∉ met
  above_pending : ∀ e ∈ pending, ∀ p, e.2 = some p → p ∈ met

theorem mem_below {t : CostTree} {id : RowId} {e : RowId × Option RowId} :
    e ∈ below t id ↔ e.1 ∈ t.children id ∧ e.2 = some id := by
  rw [below, List.mem_map]
  constructor
  · rintro ⟨child, hchild, rfl⟩
    exact ⟨hchild, rfl⟩
  · rintro ⟨hchild, hparent⟩
    exact ⟨e.1, hchild, by rw [← hparent]⟩

/-- At the beginning the roots are pending, below no parent, and nothing is met.  No root is pending
    twice, since siblings in a forest in shape are different. -/
theorem halfway_roots (hs : t.Shaped) :
    Halfway t [] (t.roots.map fun id => (id, none)) where
  met_nodup := List.nodup_nil
  met_lt := fun _ h => nomatch h
  above_met := fun _ h => nomatch h
  hangs := by
    intro e he
    obtain ⟨id, hid, rfl⟩ := List.mem_map.1 he
    exact hid
  pending_nodup := by
    have hroots : t.roots.Nodup := hs.nodup_siblings none
    rw [List.map_map]
    simpa [Function.comp_def] using hroots
  pending_fresh := fun _ _ h => nomatch h
  above_pending := by
    intro e he p hp
    obtain ⟨id, -, rfl⟩ := List.mem_map.1 he
    exact nomatch hp

/-- A child of the next row was not met before: the row itself would have been met then. -/
theorem Halfway.child_not_met {met : List RowId} {id child : RowId} {parent : Option RowId}
    (h : Halfway t met ((id, parent) :: pending)) (hchild : child ∈ t.siblings (some id)) :
    child ∉ met :=
  fun hmet => h.pending_fresh _ List.mem_cons_self (h.above_met child hmet id hchild)

/-- Nor is it pending already.  It would be pending under this row, and rows are pending under rows that
    were met. -/
theorem Halfway.child_not_pending (hs : t.Shaped) {met : List RowId} {id child : RowId}
    {parent : Option RowId} (h : Halfway t met ((id, parent) :: pending))
    (hchild : child ∈ t.siblings (some id)) : child ∉ pending.map Prod.fst := by
  intro hmem
  obtain ⟨e, he, rfl⟩ := List.mem_map.1 hmem
  have hrest : e ∈ (id, parent) :: pending := List.mem_cons_of_mem _ he
  have hparent := hs.parent_unique (h.hangs e hrest) hchild
  exact h.pending_fresh _ List.mem_cons_self (h.above_pending e hrest id hparent)

/-- **Meeting the next row** makes its children pending, each of them under this row, and leaves the
    other pending rows as they are. -/
theorem Halfway.meet (hs : t.Shaped) {met : List RowId} {id : RowId} {parent : Option RowId}
    (h : Halfway t met ((id, parent) :: pending)) :
    Halfway t (id :: met) (below t id ++ pending) := by
  have hfresh : id ∉ met := h.pending_fresh _ List.mem_cons_self
  have hrest : ∀ e ∈ pending, e ∈ (id, parent) :: pending := fun e he => List.mem_cons_of_mem _ he
  obtain ⟨hnotin, hnodup⟩ := List.nodup_cons.1 (List.map_cons ▸ h.pending_nodup)
  constructor
  case met_nodup => exact List.nodup_cons.2 ⟨hfresh, h.met_nodup⟩
  case met_lt =>
    intro k hk
    rcases List.mem_cons.1 hk with rfl | hk
    · exact hs.lt_size (h.hangs _ List.mem_cons_self)
    · exact h.met_lt k hk
  case above_met =>
    intro k hk p hp
    rcases List.mem_cons.1 hk with rfl | hk
    · have hparent := hs.parent_unique (h.hangs _ List.mem_cons_self) hp
      exact List.mem_cons_of_mem _ (h.above_pending _ List.mem_cons_self p hparent)
    · exact List.mem_cons_of_mem _ (h.above_met k hk p hp)
  case hangs =>
    intro e he
    rcases List.mem_append.1 he with he | he
    · obtain ⟨hchild, hparent⟩ := mem_below.1 he
      rw [hparent]
      exact hchild
    · exact h.hangs e (hrest e he)
  case pending_nodup =>
    rw [map_fst_below, List.nodup_append]
    refine ⟨hs.nodup_siblings (some id), hnodup, ?_⟩
    rintro child hchild _ hpending rfl
    exact h.child_not_pending hs hchild hpending
  case pending_fresh =>
    intro e he hmet
    rcases List.mem_append.1 he with he | he
    · have hchild : e.1 ∈ t.siblings (some id) := (mem_below.1 he).1
      rcases List.mem_cons.1 hmet with heq | hmet
      · exact absurd (heq ▸ hs.parent_lt hchild) (Nat.lt_irrefl _)
      · exact h.child_not_met hchild hmet
    · rcases List.mem_cons.1 hmet with heq | hmet
      · have hmem : e.1 ∈ pending.map Prod.fst := List.mem_map_of_mem he
        exact hnotin (heq ▸ hmem)
      · exact h.pending_fresh e (hrest e he) hmet
  case above_pending =>
    intro e he p hp
    rcases List.mem_append.1 he with he | he
    · rw [(mem_below.1 he).2, Option.some.injEq] at hp
      rw [hp]
      exact List.mem_cons_self
    · exact List.mem_cons_of_mem _ (h.above_pending e (hrest e he) p hp)

/-- While a row is pending, not all rows were met. -/
theorem Halfway.length_lt (hs : t.Shaped) {met : List RowId} {e : RowId × Option RowId}
    (h : Halfway t met (e :: pending)) : met.length < t.size := by
  have hnodup : (e.1 :: met).Nodup :=
    List.nodup_cons.2 ⟨h.pending_fresh e List.mem_cons_self, h.met_nodup⟩
  have hsub : e.1 :: met ⊆ List.range t.size := by
    intro k hk
    rw [List.mem_range]
    rcases List.mem_cons.1 hk with rfl | hk
    · exact hs.lt_size (h.hangs e List.mem_cons_self)
    · exact h.met_lt k hk
  have hle := (hnodup.subperm hsub).length_le
  rw [List.length_cons, List.length_range] at hle
  exact hle

/-- Marking the row that is met keeps the marks in step with what was met. -/
theorem marks_meet {met : List RowId} {id size : Nat} (hfresh : visited[id]? = some false)
    (hmarks : ∀ k < size, visited[k]? = some (decide (k ∈ met))) :
    ∀ k < size, (visited.setIfInBounds id true)[k]? = some (decide (k ∈ id :: met)) := by
  intro k hk
  by_cases hkid : id = k
  · subst hkid
    rw [Array.getElem?_setIfInBounds_self_of_lt (Array.getElem?_eq_some_iff.1 hfresh).1,
      decide_eq_true List.mem_cons_self]
  · have hiff : k ∈ id :: met ↔ k ∈ met := by
      rw [List.mem_cons]
      exact or_iff_right fun h => hkid h.symm
    rw [Array.getElem?_setIfInBounds_ne hkid, hmarks k hk, decide_eq_decide.2 hiff]

/-- **The rest of a pass succeeds**, if its steps suffice for the rows that were not met yet.
    The induction is on the steps; `Halfway` says that the pending rows are fresh and are
    followed by all others. -/
theorem exists_link (hs : t.Shaped) {met : List RowId} (h : Halfway t met pending)
    (hfuel : t.size ≤ fuel + met.length) (hrows : SameRows rows t.rows)
    (hmarks : ∀ id < t.size, visited[id]? = some (decide (id ∈ met))) :
    ∃ linked, link fuel pending visited rows = .ok linked := by
  induction fuel generalizing met pending visited rows with
  | zero =>
      cases pending with
      | nil => exact ⟨rows, link_nil _ _ _⟩
      | cons e rest =>
          have hlt := h.length_lt hs
          omega
  | succ n ih =>
      cases pending with
      | nil => exact ⟨rows, link_nil _ _ _⟩
      | cons e rest =>
          obtain ⟨id, parent⟩ := e
          have hid : id < t.size := hs.lt_size (h.hangs _ List.mem_cons_self)
          have hfresh : visited[id]? = some false := by
            rw [hmarks id hid, decide_eq_false (h.pending_fresh _ List.mem_cons_self)]
          have hchildren : ((rows[id]?).getD {}).children = t.children id :=
            (hrows.children id).symm
          rw [link, hfresh, hchildren]
          refine ih (h.meet hs) ?_ ?_ ?_
          · -- one step is spent, and one row more is met
            rw [List.length_cons]
            omega
          · exact (sameRows_modify_parent rows id parent).symm.trans hrows
          · exact marks_meet hfresh hmarks

/-- Siblings pass the check if they increase, and only then.  The check compares neighbours, which is
    enough because the order is transitive. -/
theorem checkSiblings_eq_ok_iff {ids : List RowId} :
    checkSiblings rows ids = .ok () ↔ ids.Pairwise fun x y =>
      ((rows[x]?).getD {}).location.Before ((rows[y]?).getD {}).location := by
  induction ids with
  | nil => exact iff_of_true rfl List.Pairwise.nil
  | cons left rest ih =>
      cases rest with
      | nil => exact iff_of_true rfl (List.pairwise_singleton _ _)
      | cons right rest =>
          rw [checkSiblings, List.pairwise_cons]
          by_cases hbefore : compare ((rows[left]?).getD {}).location
              ((rows[right]?).getD {}).location = .lt
          · rw [if_pos hbefore, ih]
            refine ⟨fun hrest => ⟨?_, hrest⟩, fun h => h.2⟩
            -- the check compares neighbours, and the order carries that further
            intro y hy
            rcases List.mem_cons.1 hy with rfl | hy
            · exact hbefore
            · exact Location.Before.trans hbefore ((List.pairwise_cons.1 hrest).1 y hy)
          · rw [if_neg hbefore]
            exact iff_of_false (by simp) fun h => hbefore (h.1 right List.mem_cons_self)

theorem forM_eq_ok_iff {check : Row → Except ShapeFault Unit} {items : List Row} :
    items.forM check = .ok () ↔ ∀ row ∈ items, check row = .ok () := by
  induction items with
  | nil => exact iff_of_true rfl (List.forall_mem_nil _)
  | cons head rest ih =>
      show (check head >>= fun _ => rest.forM check) = .ok () ↔ _
      rw [bind_eq_ok, List.forall_mem_cons, ← ih]
      constructor
      · rintro ⟨⟨⟩, hhead, hrest⟩
        exact ⟨hhead, hrest⟩
      · rintro ⟨hhead, hrest⟩
        exact ⟨(), hhead, hrest⟩

/-- **Siblings of a finished tree increase**, whatever the builder was: finishing checks every list of
    siblings, and the links that it writes change no location. -/
theorem increasing_of_finish (h : b.finish = .ok t) : t.Increasing := by
  rw [finish] at h
  obtain ⟨rows', -, h⟩ := bind_eq_ok.1 h
  obtain ⟨⟨⟩, hroots, h⟩ := bind_eq_ok.1 h
  obtain ⟨⟨⟩, hchildren, h⟩ := bind_eq_ok.1 h
  cases h
  intro parent
  cases parent with
  | none => exact checkSiblings_eq_ok_iff.1 hroots
  | some p =>
      by_cases hp : p < rows'.size
      · have hrow := forM_eq_ok_iff.1 hchildren rows'[p] (Array.getElem_mem_toList hp)
        have hmine : rows'[p].children
            = ({ rows := rows', roots := b.roots } : CostTree).children p := by
          rw [CostTree.children, CostTree.row, Array.getElem?_eq_getElem hp]
          rfl
        rw [hmine] at hrow
        exact checkSiblings_eq_ok_iff.1 hrow
      · rw [CostTree.siblings_of_size_le (Nat.le_of_not_lt hp)]
        exact List.Pairwise.nil

/-- **A forest in shape is finished without a fault.**  Its siblings increase, so the check passes, and
    its rows are met once each, so the pass succeeds. -/
theorem exists_finish (hs : b.forest.Shaped) : ∃ t, b.finish = .ok t := by
  have hmarks : ∀ id < b.size,
      (Array.replicate b.size false)[id]? = some (decide (id ∈ ([] : List RowId))) := by
    intro id hid
    rw [Array.getElem?_replicate, if_pos hid]
    simp
  obtain ⟨linked, hlinked⟩ := exists_link hs (halfway_roots hs) (Nat.le_add_right _ _)
    (SameRows.refl b.rows) hmarks
  have hsame := link_sameRows hlinked
  -- parents do not matter for the order of siblings
  have hinc : ∀ parent, (b.siblings parent).Pairwise fun x y =>
      ((linked[x]?).getD {}).location.Before ((linked[y]?).getD {}).location := by
    intro parent
    simp only [hsame.location]
    exact hs.increasing parent
  have hroots : checkSiblings linked b.roots = .ok () := checkSiblings_eq_ok_iff.2 (hinc none)
  have hchildren : linked.toList.forM (fun row => checkSiblings linked row.children) = .ok () := by
    refine forM_eq_ok_iff.2 ?_
    intro row hrow
    obtain ⟨id, hid, rfl⟩ := List.mem_iff_getElem.1 hrow
    have hmine : linked.toList[id].children = b.siblings (some id) := by
      have h := hsame.children id
      rw [Array.getElem?_eq_getElem (Array.length_toList ▸ hid)] at h
      exact h
    rw [hmine]
    exact checkSiblings_eq_ok_iff.2 (hinc (some id))
  refine ⟨{ rows := linked, roots := b.roots }, ?_⟩
  have hlink : link b.size (b.roots.map fun id => (id, none)) (Array.replicate b.size false) b.rows
      = .ok linked := hlinked
  rw [finish, hlink]
  simp only [bind, Except.bind, hroots, hchildren]
  rfl

end TreeBuilder

end HeapProfile
