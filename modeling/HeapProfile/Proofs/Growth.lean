import HeapProfile.Proofs.Forest

/-!
# Growth — what one step of a builder does to the forest

A builder changes its forest in two ways: it puts a new row among siblings, or it adds to the cost
of a row that is there.  `row_insert` and `row_charge` say what every row looks like afterwards, and
nothing below them opens the two operations again.

* **`shaped_insert`** — a row at a location that its siblings do not have keeps the forest in shape;
* **`leads_insert`** — it adds one path and no other way down changes;
* **`findOrInsert_spec`** — finding or inserting below the end of a path leads to the end of the
  longer path, whether the row was there or not;
* **`sameShape_charge`** — charging changes no way down.
-/

namespace HeapProfile

/-! ## Rows in an array -/

/-- Behind a push only the new number reads differently. -/
theorem getD_push (rows : Array Row) (new : Row) (id : RowId) :
    ((rows.push new)[id]?).getD {} = if id = rows.size then new else (rows[id]?).getD {} := by
  rw [Array.getElem?_push]
  split <;> rfl

/-- Behind a change only the row of that number reads differently, and only if there is one. -/
theorem getD_modify (rows : Array Row) (i id : RowId) (f : Row → Row) :
    ((rows.modify i f)[id]?).getD {} =
      if i = id ∧ id < rows.size then f ((rows[id]?).getD {}) else (rows[id]?).getD {} := by
  rw [Array.getElem?_modify]
  by_cases hi : i = id
  · by_cases hid : id < rows.size
    · rw [if_pos hi, if_pos ⟨hi, hid⟩, Array.getElem?_eq_getElem hid]
      rfl
    · rw [if_pos hi, if_neg (fun h => hid h.2), Array.getElem?_eq_none (Nat.le_of_not_lt hid)]
      rfl
  · rw [if_neg hi, if_neg (fun h => hi h.1)]

namespace TreeBuilder

/-- The forest so far, its rows without parent links. -/
def forest (b : TreeBuilder) : CostTree := { rows := b.rows, roots := b.roots }

variable {b : TreeBuilder} {parent : Option RowId} {location : Location}

/-- The forest so far has the rows of the builder. -/
@[simp] theorem row_forest (b : TreeBuilder) (id : RowId) : b.forest.row id = b.row id := rfl

/-- It has as many rows as the builder. -/
@[simp] theorem size_forest (b : TreeBuilder) : b.forest.size = b.size := rfl

/-- It has the lists of siblings of the builder. -/
@[simp] theorem siblings_forest (b : TreeBuilder) (parent : Option RowId) :
    b.forest.siblings parent = b.siblings parent := rfl

/-- And its rows lie at the locations of the builder. -/
theorem locationAt_forest (b : TreeBuilder) (id : RowId) :
    b.forest.locationAt id = (b.row id).location := rfl

/-! ## Among siblings -/

/-- A new row goes behind a sibling whose location comes before its own. -/
theorem place_cons_of_before {new head : RowId} {rest : List RowId}
    (h : (b.row head).location.Before location) :
    b.place location new (head :: rest) = head :: b.place location new rest :=
  if_pos h

/-- In front of the first sibling whose location does not, its place is found. -/
theorem place_cons_of_not_before {new head : RowId} {rest : List RowId}
    (h : ¬ (b.row head).location.Before location) :
    b.place location new (head :: rest) = new :: head :: rest :=
  if_neg h

/-- Placing a row among siblings adds this row and drops none. -/
theorem mem_place {new id : RowId} {ids : List RowId} :
    id ∈ b.place location new ids ↔ id = new ∨ id ∈ ids := by
  induction ids with
  | nil => rw [place, List.mem_singleton]; simp
  | cons head rest ih =>
      by_cases h : (b.row head).location.Before location
      · rw [place_cons_of_before h, List.mem_cons, ih, List.mem_cons]
        tauto
      · rw [place_cons_of_not_before h, List.mem_cons]

/-- A new location goes to its place in the order.  It stands behind all siblings that come before
    it, in front of the first that does not, and since no sibling has this location, the order is
    strict on both sides. -/
theorem increasing_place {new : RowId} {ids : List RowId} {at' : RowId → Location}
    (hnew : at' new = location) (hold : ∀ id ∈ ids, at' id = (b.row id).location)
    (hfresh : ∀ id ∈ ids, (b.row id).location ≠ location)
    (hinc : ids.Pairwise fun x y => (b.row x).location.Before (b.row y).location) :
    (b.place location new ids).Pairwise fun x y => (at' x).Before (at' y) := by
  induction ids with
  | nil => exact List.pairwise_singleton _ _
  | cons head rest ih =>
      obtain ⟨hhead, hrest⟩ := List.pairwise_cons.1 hinc
      have hatHead : at' head = (b.row head).location := hold head List.mem_cons_self
      have hatRest : ∀ id ∈ rest, at' id = (b.row id).location :=
        fun id hid => hold id (List.mem_cons_of_mem _ hid)
      by_cases h : (b.row head).location.Before location
      · rw [place_cons_of_before h]
        refine List.pairwise_cons.2 ⟨?_, ?_⟩
        · intro id hid
          rw [hatHead]
          rcases mem_place.1 hid with rfl | hid
          · rw [hnew]
            exact h
          · rw [hatRest id hid]
            exact hhead id hid
        · exact ih hatRest (fun id hid => hfresh id (List.mem_cons_of_mem _ hid)) hrest
      · -- the new row comes before the head, and the head before all others
        have hbefore : location.Before (b.row head).location :=
          Location.before_of_not_before h (hfresh head List.mem_cons_self)
        rw [place_cons_of_not_before h]
        refine List.pairwise_cons.2 ⟨?_, List.pairwise_cons.2 ⟨?_, ?_⟩⟩
        · intro id hid
          rw [hnew, hold id hid]
          rcases List.mem_cons.1 hid with rfl | hid
          · exact hbefore
          · exact hbefore.trans (hhead id hid)
        · intro id hid
          rw [hatHead, hatRest id hid]
          exact hhead id hid
        · refine hrest.imp_of_mem ?_
          intro x y hx hy hxy
          rw [hatRest x hx, hatRest y hy]
          exact hxy

/-! ## A new row -/

/-- Inserting adds one row. -/
@[simp] theorem size_insert (b : TreeBuilder) (parent : Option RowId) (location : Location) :
    (b.insert parent location).size = b.size + 1 := by
  cases parent with
  | none => simp [insert, size]
  | some p => simp [insert, size]

/-- Beyond the last row every number of a builder reads as an empty row. -/
theorem row_of_size_le {id : RowId} (h : b.size ≤ id) : b.row id = {} :=
  CostTree.row_eq_default (t := b.forest) h

/-- Every row after a new one was put below a parent: the new row itself, the parent with one child
    more, and all others as they were. -/
theorem row_insert (hparent : ∀ p, parent = some p → p < b.size) (id : RowId) :
    (b.insert parent location).row id =
      if id = b.size then { location }
      else if parent = some id then
        { b.row id with children := b.place location b.size (b.siblings parent) }
      else b.row id := by
  cases parent with
  | none =>
      show ((b.rows.push { location })[id]?).getD {} = _
      rw [getD_push]
      rfl
  | some p =>
      have hp : p < b.rows.size := hparent p rfl
      show (((b.rows.modify p _).push { location })[id]?).getD {} = _
      rw [getD_push, getD_modify, Array.size_modify, show b.size = b.rows.size from rfl]
      by_cases hid : id = b.rows.size
      · rw [if_pos hid, if_pos hid]
      · rw [if_neg hid, if_neg hid]
        by_cases hpid : p = id
        · rw [if_pos ⟨hpid, hpid ▸ hp⟩, if_pos (congrArg some hpid)]
          rfl
        · rw [if_neg (fun h => hpid h.1), if_neg (fun h => hpid (Option.some.inj h))]
          rfl

/-- Inserting changes one list of siblings, the one below the parent.  The new row itself has no
    children, as it had none before it was there. -/
theorem siblings_insert (hparent : ∀ p, parent = some p → p < b.size) (q : Option RowId) :
    (b.insert parent location).siblings q =
      if q = parent then b.place location b.size (b.siblings parent) else b.siblings q := by
  cases q with
  | none =>
      cases parent with
      | none => rfl
      | some p => rfl
  | some id =>
      show ((b.insert parent location).row id).children = _
      rw [row_insert hparent]
      by_cases hid : id = b.size
      · -- the new row has no children, and it had none before it was there
        have hne : some id ≠ parent := by
          rintro rfl
          exact absurd hid (Nat.ne_of_lt (hparent id rfl))
        rw [if_pos hid, if_neg hne]
        show [] = (b.row id).children
        rw [row_of_size_le (Nat.le_of_eq hid.symm)]
      · by_cases hq : parent = some id
        · rw [if_neg hid, if_pos hq, if_pos hq.symm]
        · rw [if_neg hid, if_neg hq, if_neg (fun h => hq h.symm)]
          rfl

/-- The new row is a sibling below its parent, and all others are where they were. -/
theorem mem_siblings_insert (hparent : ∀ p, parent = some p → p < b.size) {q : Option RowId}
    {id : RowId} : id ∈ (b.insert parent location).siblings q ↔
      (q = parent ∧ id = b.size) ∨ id ∈ b.siblings q := by
  rw [siblings_insert hparent]
  by_cases hq : q = parent
  · rw [if_pos hq, mem_place, hq]
    tauto
  · rw [if_neg hq]
    tauto

/-- The new row has the location that it was inserted with, and the others keep theirs. -/
theorem location_insert (hparent : ∀ p, parent = some p → p < b.size) (id : RowId) :
    ((b.insert parent location).row id).location =
      if id = b.size then location else (b.row id).location := by
  rw [row_insert hparent]
  by_cases hid : id = b.size
  · rw [if_pos hid, if_pos hid]
  · rw [if_neg hid, if_neg hid]
    split <;> rfl

/-- A new row costs nothing, and the others cost what they did. -/
theorem cost_insert (hparent : ∀ p, parent = some p → p < b.size) (id : RowId) :
    ((b.insert parent location).row id).cost = (b.row id).cost := by
  rw [row_insert hparent]
  by_cases hid : id = b.size
  · rw [if_pos hid, row_of_size_le (Nat.le_of_eq hid.symm)]
  · rw [if_neg hid]
    split <;> rfl

/-- Whoever was a sibling keeps its location. -/
theorem locationAt_insert_of_mem (hs : b.forest.Shaped)
    (hparent : ∀ p, parent = some p → p < b.size) {q : Option RowId} {id : RowId}
    (hid : id ∈ b.siblings q) :
    (b.insert parent location).forest.locationAt id = b.forest.locationAt id := by
  have hold : id ≠ b.size := Nat.ne_of_lt (hs.lt_size hid)
  rw [locationAt_forest, location_insert hparent, if_neg hold]
  rfl

/-- Every row is among siblings: the new one where it was put, the others where they were. -/
theorem exists_siblings_insert (hs : b.forest.Shaped) (hparent : ∀ p, parent = some p → p < b.size)
    {id : RowId} (hid : id < (b.insert parent location).size) :
    ∃ q, id ∈ (b.insert parent location).siblings q := by
  rw [size_insert] at hid
  simp only [mem_siblings_insert hparent]
  by_cases hnew : id = b.size
  · exact ⟨parent, Or.inl ⟨rfl, hnew⟩⟩
  · have hlt : id < b.size := Nat.lt_of_le_of_ne (Nat.le_of_lt_succ hid) hnew
    obtain ⟨q, hq⟩ := hs.placed hlt
    exact ⟨q, Or.inr hq⟩

/-- No row is among siblings twice.  The number of the new one is too large for it to have been a
    sibling anywhere before. -/
theorem parent_unique_insert (hs : b.forest.Shaped) (hparent : ∀ p, parent = some p → p < b.size)
    {q q' : Option RowId} {id : RowId} (hid : id ∈ (b.insert parent location).siblings q)
    (hid' : id ∈ (b.insert parent location).siblings q') : q = q' := by
  have hunused : ∀ {q : Option RowId}, b.size ∉ b.siblings q :=
    fun hmem => Nat.lt_irrefl b.size (hs.lt_size hmem)
  rw [mem_siblings_insert hparent] at hid hid'
  rcases hid with ⟨rfl, rfl⟩ | hid
  · rcases hid' with ⟨rfl, -⟩ | hid'
    · rfl
    · exact absurd hid' hunused
  · rcases hid' with ⟨rfl, rfl⟩ | hid'
    · exact absurd hid hunused
    · exact hs.parent_unique hid hid'

/-- Siblings still increase by location: the new row stands at its place, and the others keep their
    locations. -/
theorem increasing_insert (hs : b.forest.Shaped) (hparent : ∀ p, parent = some p → p < b.size)
    (hfresh : ∀ id ∈ b.siblings parent, (b.row id).location ≠ location) :
    (b.insert parent location).forest.Increasing := by
  intro q
  have hinc : (b.siblings q).Pairwise fun x y => (b.row x).location.Before (b.row y).location :=
    hs.increasing q
  have hkeep : ∀ id ∈ b.siblings q,
      ((b.insert parent location).row id).location = (b.row id).location :=
    fun _ hid => locationAt_insert_of_mem hs hparent hid
  simp only [siblings_forest, locationAt_forest]
  rw [siblings_insert hparent]
  by_cases hq : q = parent
  · subst hq
    rw [if_pos rfl]
    refine increasing_place ?_ hkeep hfresh hinc
    rw [location_insert hparent, if_pos rfl]
  · rw [if_neg hq]
    refine hinc.imp_of_mem ?_
    intro x y hx hy hxy
    rw [hkeep x hx, hkeep y hy]
    exact hxy

/-- **A row at a location of its own keeps the forest in shape.**  Its number is the next one, so it is
    greater than that of its parent and that of every row before. -/
theorem shaped_insert (hs : b.forest.Shaped) (hparent : ∀ p, parent = some p → p < b.size)
    (hfresh : ∀ id ∈ b.siblings parent, (b.row id).location ≠ location) :
    (b.insert parent location).forest.Shaped where
  lt_size := by
    intro q id hid
    rw [siblings_forest, mem_siblings_insert hparent] at hid
    rw [size_forest, size_insert]
    rcases hid with ⟨-, rfl⟩ | hid
    · exact Nat.lt_succ_self _
    · exact Nat.lt_succ_of_lt (hs.lt_size hid)
  parent_lt := by
    intro q id hid
    rw [siblings_forest, mem_siblings_insert hparent] at hid
    rcases hid with ⟨hq, rfl⟩ | hid
    · exact hparent q hq.symm
    · exact hs.parent_lt hid
  placed := exists_siblings_insert hs hparent
  parent_unique := parent_unique_insert hs hparent
  increasing := increasing_insert hs hparent hfresh

/-- Every way down that was there stays, since its rows keep their siblings and locations. -/
theorem leads_insert_of_leads (hs : b.forest.Shaped) (hparent : ∀ p, parent = some p → p < b.size)
    {path : List Location} {at' : Option RowId} (h : b.forest.Leads path at') :
    (b.insert parent location).forest.Leads path at' := by
  induction h with
  | top => exact .top
  | @down path q id _ hid ih =>
      rw [← locationAt_insert_of_mem hs hparent hid]
      refine .down ih ?_
      rw [siblings_forest, mem_siblings_insert hparent]
      exact Or.inr hid

/-- **A new row adds one path**, the one of its parent with its location behind it.  By induction on the
    way down: it cannot go on below the new row, which has no children. -/
theorem leads_insert (hs : b.forest.Shaped) (hparent : ∀ p, parent = some p → p < b.size)
    {path : List Location} {at' : Option RowId} :
    (b.insert parent location).forest.Leads path at' ↔
      b.forest.Leads path at' ∨
        (at' = some b.size ∧
          ∃ above, b.forest.Leads above parent ∧ path = above ++ [location]) := by
  have hnew : (b.insert parent location).forest.locationAt b.size = location := by
    rw [locationAt_forest, location_insert hparent, if_pos rfl]
  constructor
  · intro h
    induction h with
    | top => exact Or.inl .top
    | @down path q id _ hid ih =>
        rw [siblings_forest, mem_siblings_insert hparent] at hid
        rcases hid with ⟨rfl, rfl⟩ | hid
        · -- the way to the parent does not lead through the new row
          have hup : b.forest.Leads path q := by
            rcases ih with hup | ⟨hq, -⟩
            · exact hup
            · exact absurd (hparent _ hq) (Nat.lt_irrefl _)
          rw [hnew]
          exact Or.inr ⟨rfl, path, hup, rfl⟩
        · rw [locationAt_insert_of_mem hs hparent hid]
          rcases ih with hup | ⟨rfl, -⟩
          · exact Or.inl (.down hup hid)
          · -- nothing hangs below the new row
            have hnone := CostTree.siblings_of_size_le (t := b.forest) (Nat.le_refl b.size)
            rw [siblings_forest] at hnone
            rw [hnone] at hid
            exact nomatch hid
  · rintro (h | ⟨rfl, above, habove, rfl⟩)
    · exact leads_insert_of_leads hs hparent h
    · have hmem : b.size ∈ (b.insert parent location).forest.siblings parent := by
        rw [siblings_forest, mem_siblings_insert hparent]
        exact Or.inl ⟨rfl, rfl⟩
      have hdown := CostTree.Leads.down (leads_insert_of_leads hs hparent habove) hmem
      rw [hnew] at hdown
      exact hdown

/-! ## Finding or inserting, and charging -/

/-- **Finding or inserting** finds a sibling at the location and changes nothing, or there is none and a
    row is inserted.  The two cases exclude each other, and all that follows is said of each of them. -/
theorem findOrInsert_cases (b : TreeBuilder) (parent : Option RowId) (location : Location) :
    (∃ id ∈ b.siblings parent, (b.row id).location = location ∧
      b.findOrInsert parent location = (id, b)) ∨
    ((∀ id ∈ b.siblings parent, (b.row id).location ≠ location) ∧
      b.findOrInsert parent location = (b.size, b.insert parent location)) := by
  rw [findOrInsert]
  cases hfind : b.find? parent location with
  | some id =>
      rw [find?] at hfind
      exact Or.inl ⟨id, List.mem_of_find?_eq_some hfind,
        by simpa using List.find?_some hfind, rfl⟩
  | none =>
      rw [find?, List.find?_eq_none] at hfind
      exact Or.inr ⟨fun id hid => by simpa using hfind id hid, rfl⟩

/-- **The row at a location below the end of a path.**  It is reached by the longer path, which is
    the only path that may be new, and no cost changes. -/
theorem findOrInsert_spec (hs : b.forest.Shaped) {path : List Location}
    (hpath : b.forest.Leads path parent) {id : RowId} {grown : TreeBuilder}
    (h : b.findOrInsert parent location = (id, grown)) :
    grown.forest.Shaped ∧ id < grown.size ∧
      (∀ p at', grown.forest.Leads p at' ↔
        b.forest.Leads p at' ∨ (p = path ++ [location] ∧ at' = some id)) ∧
      ∀ k, (grown.row k).cost = (b.row k).cost := by
  have hparent : ∀ p, parent = some p → p < b.size := by
    rintro p rfl
    exact hpath.lt_size hs
  rcases findOrInsert_cases b parent location with ⟨found, hmem, hl, heq⟩ | ⟨hfresh, heq⟩
  · rw [heq, Prod.mk.injEq] at h
    obtain ⟨rfl, rfl⟩ := h
    have hmem' : found ∈ b.forest.siblings parent := hmem
    have hlead : b.forest.Leads (path ++ [location]) (some found) := by
      rw [← hl]
      exact .down hpath hmem'
    refine ⟨hs, hs.lt_size hmem', ?_, fun _ => rfl⟩
    intro p at'
    constructor
    · exact Or.inl
    · rintro (hp | ⟨rfl, rfl⟩)
      · exact hp
      · exact hlead
  · rw [heq, Prod.mk.injEq] at h
    obtain ⟨rfl, rfl⟩ := h
    refine ⟨shaped_insert hs hparent hfresh, ?_, ?_, cost_insert hparent⟩
    · rw [size_insert]
      exact Nat.lt_succ_self _
    · intro p at'
      rw [leads_insert hs hparent]
      constructor
      · rintro (hp | ⟨hat, above, habove, rfl⟩)
        · exact Or.inl hp
        · rw [habove.path_unique hs hpath]
          exact Or.inr ⟨rfl, hat⟩
      · rintro (hp | ⟨rfl, hat⟩)
        · exact Or.inl hp
        · exact Or.inr ⟨hat, path, hpath, rfl⟩

/-- Charging changes the cost of one row, and nothing if there is no such row.  Parent, children and
    location stay. -/
theorem row_charge (b : TreeBuilder) (id k : RowId) (cost : Cost) :
    (b.charge id cost).row k =
      if k = id ∧ id < b.size then { b.row k with cost := (b.row k).cost + cost } else b.row k := by
  show ((b.rows.modify id _)[k]?).getD {} = _
  rw [getD_modify]
  by_cases hk : k = id
  · subst hk
    by_cases hlt : k < b.rows.size
    · rw [if_pos ⟨rfl, hlt⟩, if_pos ⟨rfl, hlt⟩]
      rfl
    · rw [if_neg (fun h => hlt h.2), if_neg (fun h => hlt h.2)]
      rfl
  · rw [if_neg (fun h => hk h.1.symm), if_neg (fun h => hk h.1)]
    rfl

/-- The row that is charged costs more by the charge, and every other row what it did. -/
theorem cost_charge {id : RowId} (hid : id < b.size) (k : RowId) (cost : Cost) :
    ((b.charge id cost).row k).cost = if k = id then (b.row k).cost + cost else (b.row k).cost := by
  rw [row_charge]
  by_cases hk : k = id
  · rw [if_pos ⟨hk, hid⟩, if_pos hk]
  · rw [if_neg (fun h => hk h.1), if_neg hk]

/-- **Charging changes no way down.**  It only touches the cost of one row, so every statement about
    paths is carried over as it is. -/
theorem sameShape_charge (b : TreeBuilder) (id : RowId) (cost : Cost) :
    CostTree.SameShape b.forest (b.charge id cost).forest where
  size := by simp [charge, size]
  siblings := by
    intro parent
    rw [siblings_forest, siblings_forest]
    cases parent with
    | none => rfl
    | some p =>
        show ((b.charge id cost).row p).children = (b.row p).children
        rw [row_charge]
        split <;> rfl
  location := by
    intro k
    rw [locationAt_forest, locationAt_forest, row_charge]
    split <;> rfl

end TreeBuilder

end HeapProfile
