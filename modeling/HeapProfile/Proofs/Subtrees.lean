import HeapProfile.Proofs.Linking
import HeapProfile.Proofs.Saturation
import HeapProfile.TopDown

/-!
# Subtrees — what stands above and below a row of a finished tree

Whatever builder a tree came from, finishing it leaves two things behind: the depth-first order meets
no row twice and every row on it knows its parent (`Linked`), and siblings increase by location
(`Increasing`).  Numbers of rows need not increase on the way down, and rows that hang nowhere may lie
between the others.  This is enough for the ways up and for the rows below a row.

* **`Way.nodup`**, **`Linked.length_le`** — a way down meets no row twice, so a path has no more
  locations than the tree has rows, and a climb with that many steps never falls short;
* **`Way.ancestry_eq`**, **`Linked.pathUp_eq_reverse`** — the way up from a row is the way down to it,
  read from the end, row by row and location by location;
* **`Lists.exists_below`** — the rows below a row are listed in one piece, and
* **`mem_below_iff`** — they are the rows whose paths begin with its path;
* **`Linked.cost_eq_sum`** — where every row covers its children exactly, it costs what the rows below
  it, itself included, cost beyond their children.
-/

namespace HeapProfile

namespace CostTree

variable {t : CostTree}

/-! ## Ways up -/

/-- A row that knows its parent lies at one path only. -/
theorem Linked.path_unique (hl : t.Linked) {path path' : List Location} {a : Option RowId}
    (h : t.Leads path a) (h' : t.Leads path' a) : path = path' := by
  induction h generalizing path' with
  | top => exact (leads_none.1 h').symm
  | down hup hid ih =>
      cases h' with
      | down hup' hid' =>
          obtain rfl := (hl.parent_eq hup hid).symm.trans (hl.parent_eq hup' hid')
          rw [ih hup']

/-- Some path leads to every row that is listed, if some path leads to every row that was pending. -/
theorem Lists.exists_rowAt {pending order : List RowId} (h : t.Lists pending order)
    (hpending : ∀ id ∈ pending, ∃ path, t.RowAt path id) : ∀ id ∈ order, ∃ path, t.RowAt path id := by
  induction h with
  | done => exact hpending
  | @visit id pending order _ ih =>
      obtain ⟨hid, hrest⟩ := List.forall_mem_cons.1 hpending
      refine List.forall_mem_cons.2 ⟨hid, ih fun c hc => ?_⟩
      rcases List.mem_append.1 hc with hc | hc
      · obtain ⟨path, hpath⟩ := hid
        exact ⟨_, Leads.down hpath hc⟩
      · exact hrest c hc

/-- Some path leads to every row that is met in depth-first order. -/
theorem Linked.exists_rowAt (hl : t.Linked) {id : RowId} (hid : id ∈ t.depthFirst) :
    ∃ path, t.RowAt path id :=
  hl.lists.exists_rowAt (fun _ hroot => ⟨_, Leads.down .top hroot⟩) id hid

theorem length_preorder_le (t : CostTree) (fuel : Nat) (ids : List RowId) :
    (t.preorder fuel ids).length ≤ fuel := by
  induction fuel generalizing ids with
  | zero => exact Nat.le_refl 0
  | succ fuel ih =>
      cases ids with
      | nil => exact Nat.zero_le _
      | cons id pending => exact Nat.succ_le_succ (ih _)

/-- The rows on the way from a root down to a row, each one a child of the one before. -/
inductive Way (t : CostTree) : List RowId → RowId → Prop where
  | root {id : RowId} : id ∈ t.roots → Way t [id] id
  | child {ids : List RowId} {parent id : RowId} :
      Way t ids parent → id ∈ t.children parent → Way t (ids ++ [id]) id

/-- A path of locations is gone from row to row.  Locations may repeat along it while the rows do not,
    which is why bounds are proved of ways. -/
theorem Leads.exists_way {path : List Location} {at' : Option RowId} (h : t.Leads path at') :
    ∀ id, at' = some id → ∃ ids, t.Way ids id ∧ ids.map t.locationAt = path := by
  induction h with
  | top => exact fun _ h => nomatch h
  | @down path parent id hup hid ih =>
      rintro _ ⟨⟩
      cases parent with
      | none =>
          obtain rfl := leads_none.1 hup
          exact ⟨[id], .root hid, rfl⟩
      | some parent =>
          obtain ⟨ids, hway, rfl⟩ := ih parent rfl
          exact ⟨ids ++ [id], .child hway hid, List.map_append⟩

namespace Way

variable {ids : List RowId} {id : RowId}

theorem rowAt (h : t.Way ids id) : t.RowAt (ids.map t.locationAt) id := by
  induction h with
  | root hid => exact .down .top hid
  | child _ hid ih =>
      rw [List.map_append]
      exact .down ih hid

theorem getLast? (h : t.Way ids id) : ids.getLast? = some id := by
  cases h with
  | root _ => rfl
  | child _ _ => exact List.getLast?_concat

theorem length_pos (h : t.Way ids id) : 0 < ids.length :=
  List.length_pos_of_mem (List.mem_of_getLast? h.getLast?)

/-- To every row on a way there is a way, and it is no longer. -/
theorem exists_of_mem (h : t.Way ids id) :
    ∀ k ∈ ids, ∃ above, t.Way above k ∧ above.length ≤ ids.length := by
  induction h with
  | @root id hid => exact List.forall_mem_singleton.2 ⟨[id], .root hid, Nat.le_refl _⟩
  | @child ids parent id hway hid ih =>
      intro k hk
      rcases List.mem_append.1 hk with hk | hk
      · obtain ⟨above, habove, hle⟩ := ih k hk
        exact ⟨above, habove, hle.trans (List.sublist_append_left ids [id]).length_le⟩
      · obtain rfl := List.mem_singleton.1 hk
        exact ⟨ids ++ [k], .child hway hid, Nat.le_refl _⟩

/-- **A way meets no row twice**, since it would lie at paths of two lengths. -/
theorem nodup (hl : t.Linked) (h : t.Way ids id) : ids.Nodup := by
  induction h with
  | root _ => exact List.nodup_singleton _
  | @child ids parent id hway hid ih =>
      have hnew : id ∉ ids := by
        intro hmem
        obtain ⟨above, habove, hle⟩ := hway.exists_of_mem id hmem
        have hlength := congrArg List.length (hl.path_unique habove.rowAt (Way.child hway hid).rowAt)
        rw [List.length_map, List.length_map, List.length_append, List.length_singleton] at hlength
        omega
      refine List.nodup_append.2 ⟨ih, List.nodup_singleton id, ?_⟩
      rintro k hk _ hlast rfl
      exact hnew (List.mem_singleton.1 hlast ▸ hk)

/-- The last row on the way down to a child is its parent. -/
theorem parent_eq (hl : t.Linked) {parent : RowId} (h : t.Way ids parent)
    (hid : id ∈ t.children parent) : (t.row id).parent = some parent :=
  hl.parent_eq h.rowAt (show id ∈ t.siblings (some parent) from hid)

/-- **A climb reads the way down from its end**, if it may take a step for every row but the last.  The
    induction is on the way, whose last step is the first one of the climb. -/
theorem climb_eq (hl : t.Linked) {fuel : Nat} (h : t.Way ids id) (hfuel : ids.length ≤ fuel + 1) :
    t.climb fuel id = ids.reverse := by
  induction h generalizing fuel with
  | @root id hid =>
      cases fuel with
      | zero => rfl
      | succ fuel => rw [climb, hl.root_parent id hid, List.reverse_singleton]
  | @child ids parent id hway hid ih =>
      rw [List.length_append, List.length_singleton] at hfuel
      cases fuel with
      | zero =>
          have hpos := hway.length_pos
          omega
      | succ fuel =>
          rw [climb, hway.parent_eq hl hid, List.reverse_append]
          show id :: t.climb fuel parent = _
          rw [ih (by omega)]
          rfl

end Way

/-- **A path has no more locations than the tree has rows.**  The rows on the way are all different,
    and all of them are met in depth-first order. -/
theorem Linked.length_le (hl : t.Linked) {path : List Location} {id : RowId}
    (h : t.RowAt path id) : path.length ≤ t.size := by
  obtain ⟨ids, hway, rfl⟩ := h.exists_way id rfl
  have hsub : ids ⊆ t.depthFirst := by
    intro k hk
    obtain ⟨above, habove, -⟩ := hway.exists_of_mem k hk
    exact hl.mem_depthFirst habove.rowAt k rfl
  have hle := ((hway.nodup hl).subperm hsub).length_le
  rw [List.length_map]
  exact hle.trans (length_preorder_le t _ _)

/-- **The way up from a row is the way down to it, reversed.** -/
theorem Way.ancestry_eq (hl : t.Linked) {ids : List RowId} {id : RowId} (h : t.Way ids id) :
    t.ancestry id = ids.reverse := by
  have hlength := hl.length_le h.rowAt
  rw [List.length_map] at hlength
  exact h.climb_eq hl (hlength.trans (Nat.le_succ _))

/-- **Read off as locations, it is the path of the row, reversed.** -/
theorem Linked.pathUp_eq_reverse (hl : t.Linked) {path : List Location} {id : RowId}
    (hpath : t.RowAt path id) : t.pathUp id = path.reverse := by
  obtain ⟨ids, hway, rfl⟩ := hpath.exists_way id rfl
  rw [pathUp, hway.ancestry_eq hl, ← List.map_reverse]
  rfl

/-- A way down passes through a row at each of its beginnings. -/
theorem Leads.exists_rowAt {path path' : List Location} {at' : Option RowId} (h : t.Leads path' at')
    (hpre : path <+: path') (hne : path ≠ []) : ∃ id, t.RowAt path id := by
  induction h with
  | top => exact absurd (List.prefix_nil.1 hpre) hne
  | @down shorter parent id hup hid ih =>
      rcases List.prefix_concat_iff.1 hpre with rfl | hpre
      · exact ⟨id, .down hup hid⟩
      · exact ih hpre

/-! ## Rows below a row -/

/-- What is listed for pending rows is listed piece by piece: first all that the left ones bring, then
    all that the right ones bring. -/
theorem Lists.exists_append {left right order : List RowId} (h : t.Lists (left ++ right) order) :
    ∃ first second, t.Lists left first ∧ t.Lists right second ∧ order = first ++ second := by
  generalize hpending : left ++ right = pending at h
  induction h generalizing left with
  | done =>
      obtain ⟨rfl, rfl⟩ := List.append_eq_nil_iff.1 hpending
      exact ⟨[], [], .done, .done, rfl⟩
  | @visit id pending order hrest ih =>
      cases left with
      | nil =>
          obtain rfl : right = id :: pending := hpending
          exact ⟨[], _, .done, .visit hrest, rfl⟩
      | cons head left =>
          obtain ⟨rfl, rfl⟩ := List.cons.inj hpending
          obtain ⟨first, second, hfirst, hsecond, rfl⟩ := ih (List.append_assoc _ _ _)
          exact ⟨_, second, .visit hfirst, hsecond, rfl⟩

/-- **The rows below a row are listed in one piece**, the row itself at their head.  They are the piece
    that is listed until the siblings behind the row are next. -/
theorem Lists.exists_below {pending order : List RowId} (h : t.Lists pending order) {id : RowId}
    (hid : id ∈ order) : ∃ below, t.Lists [id] below ∧ below.Sublist order := by
  induction h with
  | done => exact nomatch hid
  | @visit k pending order hrest ih =>
      rcases List.mem_cons.1 hid with rfl | hid
      · obtain ⟨first, second, hfirst, -, rfl⟩ := hrest.exists_append
        refine ⟨id :: first, .visit ?_, (List.sublist_append_left first second).cons_cons id⟩
        rwa [List.append_nil]
      · obtain ⟨below, hbelow, hsub⟩ := ih hid
        exact ⟨below, hbelow, hsub.cons k⟩

/-- **The rows below a row are those whose paths begin with its path.**  Down from the row every step
    adds a location, and two rows at one path are the same row. -/
theorem mem_below_iff (hl : t.Linked) (hi : t.Increasing) {path : List Location} {id : RowId}
    (hpath : t.RowAt path id) {below : List RowId} (hbelow : t.Lists [id] below)
    {path' : List Location} {k : RowId} (hk : t.RowAt path' k) : k ∈ below ↔ path <+: path' := by
  constructor
  · -- whatever is listed hangs below what was pending
    have hlisted : ∀ {pending order : List RowId}, t.Lists pending order →
        (∀ k ∈ pending, ∃ p, t.RowAt p k ∧ path <+: p) →
        ∀ k ∈ order, ∃ p, t.RowAt p k ∧ path <+: p := by
      intro pending order h hpending
      induction h with
      | done => exact hpending
      | @visit id pending order _ ih =>
          obtain ⟨hid, hrest⟩ := List.forall_mem_cons.1 hpending
          refine List.forall_mem_cons.2 ⟨hid, ih fun c hc => ?_⟩
          rcases List.mem_append.1 hc with hc | hc
          · obtain ⟨p, hp, hpre⟩ := hid
            exact ⟨_, Leads.down hp hc, hpre.trans (List.prefix_append _ _)⟩
          · exact hrest c hc
    intro hmem
    obtain ⟨p, hp, hpre⟩ := hlisted hbelow
      (List.forall_mem_singleton.2 ⟨path, hpath, List.prefix_refl _⟩) k hmem
    rwa [hl.path_unique hk hp]
  · have hdown : ∀ {p : List Location} {at' : Option RowId}, t.Leads p at' →
        ∀ k, at' = some k → path <+: p → k ∈ below := by
      intro p at' hleads
      induction hleads with
      | top => exact fun _ hnone => nomatch hnone
      | @down shorter parent k hup hk ih =>
          rintro _ ⟨⟩ hpre
          rcases List.prefix_concat_iff.1 hpre with rfl | hpre
          · have hsame := Option.some.inj (hi.row_unique (.down hup hk) hpath)
            exact hbelow.pending_subset (hsame ▸ List.mem_singleton_self _)
          · cases parent with
            | none =>
                obtain rfl := leads_none.1 hup
                exact absurd (List.prefix_nil.1 hpre) (rowAt_ne_nil hpath)
            | some p => exact hbelow.children_subset (ih p rfl hpre) hk
    exact hdown hk k rfl

/-! ## Costs below a row -/

/-- The costs of some rows. -/
def costs (t : CostTree) (ids : List RowId) : List Cost := ids.map fun id => (t.row id).cost

/-- Every row costs at least the exact sum over its children. -/
def CoveringExactly (t : CostTree) : Prop :=
  ∀ id < t.size, ∀ f, Cost.amount f (t.costs (t.children id)) ≤ ((t.row id).cost.get f).toNat

/-- What a row costs beyond its children, and what these cost, are what the row costs. -/
theorem CoveringExactly.selfCost_add (hc : t.CoveringExactly) (id : RowId) (f : CostField) :
    ((t.selfCost id).get f).toNat + Cost.amount f (t.costs (t.children id))
      = ((t.row id).cost.get f).toNat := by
  have hcovers : Cost.amount f (t.costs (t.children id)) ≤ ((t.row id).cost.get f).toNat := by
    by_cases hid : id < t.size
    · exact hc id hid f
    · rw [children, row_eq_default (Nat.le_of_not_lt hid)]
      exact Nat.zero_le _
  have hword := toNat_le_wordMax ((t.row id).cost.get f)
  have hbelow : ((t.costOf (t.children id)).get f).toNat
      = min (Cost.amount f (t.costs (t.children id))) wordMax := Cost.toNat_total f _
  rw [selfCost, Cost.get_sub, UInt64.toNat_satSub, hbelow]
  omega

/-- What is listed costs beyond its children what was pending costs.  Each visit trades a row for its
    own share and its children, and the sum of the two is what the row costs. -/
theorem Lists.sum_selfCost (hc : t.CoveringExactly) {pending order : List RowId}
    (h : t.Lists pending order) (f : CostField) :
    (order.map fun id => ((t.selfCost id).get f).toNat).sum = Cost.amount f (t.costs pending) := by
  induction h with
  | done => rfl
  | @visit id pending order _ ih =>
      have hrow := hc.selfCost_add id f
      rw [costs, List.map_append, Cost.amount_append] at ih
      rw [List.map_cons, List.sum_cons, ih, costs, List.map_cons, Cost.amount_cons, ← hrow]
      exact (Nat.add_assoc _ _ _).symm

/-- **A row costs what the rows below it cost beyond their children**, where every row covers its
    children exactly. -/
theorem Linked.cost_eq_sum (hl : t.Linked) (hi : t.Increasing) (hc : t.CoveringExactly)
    {path : List Location} {id : RowId} (hpath : t.RowAt path id) (f : CostField) :
    ((t.row id).cost.get f).toNat
      = ((t.depthFirst.filter fun k => path <+: (t.pathUp k).reverse).map fun k =>
          ((t.selfCost k).get f).toNat).sum := by
  obtain ⟨below, hbelow, hsub⟩ := hl.lists.exists_below (hl.mem_depthFirst hpath id rfl)
  have hperm : below.Perm (t.depthFirst.filter fun k => path <+: (t.pathUp k).reverse) := by
    refine (List.perm_ext_iff_of_nodup (hsub.nodup hl.nodup) (hl.nodup.filter _)).2 fun k => ?_
    rw [List.mem_filter, decide_eq_true_iff]
    refine ⟨fun hk => ⟨hsub.subset hk, ?_⟩, fun hk => ?_⟩
    · obtain ⟨p, hp⟩ := hl.exists_rowAt (hsub.subset hk)
      rw [hl.pathUp_eq_reverse hp, List.reverse_reverse]
      exact (mem_below_iff hl hi hpath hbelow hp).1 hk
    · obtain ⟨p, hp⟩ := hl.exists_rowAt hk.1
      rw [hl.pathUp_eq_reverse hp, List.reverse_reverse] at hk
      exact (mem_below_iff hl hi hpath hbelow hp).2 hk.2
  rw [← (hperm.map _).sum_eq, hbelow.sum_selfCost hc]
  exact (Nat.add_zero _).symm

end CostTree

end HeapProfile
