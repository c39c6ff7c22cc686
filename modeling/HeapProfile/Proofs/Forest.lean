import Mathlib
import HeapProfile.Tree.Builder

/-!
# Forests — rows by the way that leads to them

A cost tree stores rows by number, and its meaning is a set of location paths.  `Leads` is the
bridge: it goes down from above the roots, one sibling at a time, and collects the locations on its
way.

`Shaped` says what makes an arena of numbered rows a forest: every row hangs in exactly one list of
siblings, a child has a larger number than its parent, and the siblings of a list increase by
location.  In a shaped tree the way to a row and the row at the end of a way determine each other:

* **`Increasing.row_unique`** — at most one row lies at the end of a path;
* **`Leads.path_unique`** — at most one path leads to a row;
* **`exists_leads`** — some path leads to every row.

A forest under construction is read as a tree as well (`TreeBuilder.forest`), so all of this holds
while rows are still being added.
-/

namespace HeapProfile

/-! ## The order of locations is strict and total -/

namespace Location

/-- The order of locations is the lexicographic one of its four fields.  The laws of an order are
    inherited along this equation. -/
theorem compare_eq_compareLex :
    (compare : Location → Location → Ordering) =
      compareLex (compareOn Location.function) (compareLex (compareOn Location.file)
        (compareLex (compareOn Location.module) (compareOn Location.line))) := by
  funext a b
  rfl

instance : Std.TransOrd Location := by
  unfold Std.TransOrd
  rw [compare_eq_compareLex]
  infer_instance

instance : Std.LawfulEqOrd Location where
  eq_of_compare := by
    intro a b h
    rw [compare_eq_compareLex] at h
    simp only [compareLex_eq_eq, compareOn] at h
    obtain ⟨hfunction, hfile, hmodule, hline⟩ := h
    cases a
    cases b
    rw [mk.injEq]
    exact ⟨Std.LawfulEqOrd.eq_of_compare hfunction, Std.LawfulEqOrd.eq_of_compare hfile,
      Std.LawfulEqOrd.eq_of_compare hmodule, Std.LawfulEqOrd.eq_of_compare hline⟩

/-- One location comes before another in the order of siblings. -/
def Before (a b : Location) : Prop := compare a b = .lt

/-- Standing before is transitive. -/
theorem Before.trans {a b c : Location} (hab : a.Before b) (hbc : b.Before c) : a.Before c :=
  Std.TransCmp.lt_trans hab hbc

/-- A location does not stand before itself. -/
theorem Before.ne {a b : Location} (h : a.Before b) : a ≠ b := by
  rintro rfl
  have hself : compare a a = .eq := Std.ReflOrd.compare_self
  rw [Before, hself] at h
  exact Ordering.noConfusion h

/-- Of two different locations one comes before the other. -/
theorem before_of_not_before {a b : Location} (h : ¬ a.Before b) (hne : a ≠ b) : b.Before a := by
  rw [Before, ← Std.OrientedCmp.gt_iff_lt]
  cases hc : compare a b with
  | lt => exact absurd hc h
  | eq => exact absurd (Std.LawfulEqOrd.eq_of_compare hc) hne
  | gt => rfl

end Location

/-! ## Ways down a tree -/

namespace CostTree

/-- The location of a row. -/
def locationAt (t : CostTree) (id : RowId) : Location := (t.row id).location

/-- The roots, or the children of a row. -/
def siblings (t : CostTree) : Option RowId → List RowId
  | none => t.roots
  | some parent => t.children parent

/-- Going down along a path of locations ends at a row; the empty path stays above the roots. -/
inductive Leads (t : CostTree) : List Location → Option RowId → Prop where
  | top : Leads t [] none
  | down {path : List Location} {parent : Option RowId} {id : RowId} :
      Leads t path parent → id ∈ t.siblings parent → Leads t (path ++ [t.locationAt id]) (some id)

/-- A row lies at the end of a path of locations from the roots. -/
def RowAt (t : CostTree) (path : List Location) (id : RowId) : Prop := t.Leads path (some id)

/-- The rows form a forest: each of them is one sibling among others in location order, below a row
    that was there before it. -/
structure Shaped (t : CostTree) : Prop where
  lt_size : ∀ {parent id}, id ∈ t.siblings parent → id < t.size
  parent_lt : ∀ {parent id}, id ∈ t.siblings (some parent) → parent < id
  placed : ∀ {id}, id < t.size → ∃ parent, id ∈ t.siblings parent
  parent_unique : ∀ {parent parent' id}, id ∈ t.siblings parent → id ∈ t.siblings parent' →
    parent = parent'
  increasing : ∀ parent, (t.siblings parent).Pairwise fun a b =>
    (t.locationAt a).Before (t.locationAt b)

/-- Roots and the children of every row increase by location. -/
def Increasing (t : CostTree) : Prop :=
  ∀ parent, (t.siblings parent).Pairwise fun a b => (t.locationAt a).Before (t.locationAt b)

/-- Two trees have the same rows in the same places; costs and parent links may differ. -/
structure SameShape (t u : CostTree) : Prop where
  size : u.size = t.size
  siblings : ∀ parent, u.siblings parent = t.siblings parent
  location : ∀ id, u.locationAt id = t.locationAt id

variable {t u : CostTree}

/-- Beyond the last row every number reads as an empty row. -/
theorem row_eq_default {id : RowId} (h : t.size ≤ id) : t.row id = {} := by
  rw [row, Array.getElem?_eq_none h]
  rfl

/-- Where there is no row, there are no children either. -/
theorem siblings_of_size_le {id : RowId} (h : t.size ≤ id) : t.siblings (some id) = [] := by
  show (t.row id).children = []
  rw [row_eq_default h]

/-- The empty path leads above the roots and nowhere else. -/
theorem leads_nil {at' : Option RowId} : t.Leads [] at' ↔ at' = none := by
  constructor
  · intro h
    generalize hp : ([] : List Location) = path at h
    cases h with
    | top => rfl
    | down _ _ => exact absurd hp.symm (by simp)
  · rintro rfl
    exact .top

/-- **The last step of a way**: where a longer path leads, a row with its last location hangs among the
    siblings below the end of the shorter one. -/
theorem leads_concat {path : List Location} {l : Location} {at' : Option RowId} :
    t.Leads (path ++ [l]) at' ↔
      ∃ parent id, t.Leads path parent ∧ id ∈ t.siblings parent ∧ t.locationAt id = l ∧
        at' = some id := by
  constructor
  · intro h
    -- a path that ends with `l` is no pattern of the constructors, so it is named first
    generalize hp : path ++ [l] = whole at h
    cases h with
    | top => exact absurd hp (by simp)
    | down hup hid =>
        obtain ⟨rfl, hl⟩ := List.append_inj' hp rfl
        exact ⟨_, _, hup, hid, (List.singleton_inj.1 hl).symm, rfl⟩
  · rintro ⟨parent, id, hup, hid, rfl, rfl⟩
    exact .down hup hid

/-- Above the roots leads the empty path alone. -/
theorem leads_none {path : List Location} : t.Leads path none ↔ path = [] := by
  constructor
  · intro h
    cases h with
    | top => rfl
  · rintro rfl
    exact .top

/-- The path of a row has at least the location of the row. -/
theorem rowAt_ne_nil {path : List Location} {id : RowId} (h : t.RowAt path id) : path ≠ [] := by
  rintro rfl
  exact absurd (leads_nil.1 h) (by simp)

/-! ## Paths and rows determine each other -/

/-- Siblings at one location are one row. -/
theorem Increasing.sibling_unique (hi : t.Increasing) {parent : Option RowId} {a b : RowId}
    (ha : a ∈ t.siblings parent) (hb : b ∈ t.siblings parent)
    (hl : t.locationAt a = t.locationAt b) : a = b := by
  by_contra hne
  have hdiff : (t.siblings parent).Pairwise fun a b => t.locationAt a ≠ t.locationAt b :=
    (hi parent).imp Location.Before.ne
  have hsymm : Std.Symm fun a b : RowId => t.locationAt a ≠ t.locationAt b :=
    ⟨fun _ _ h => h.symm⟩
  exact hdiff.forall ha hb hne hl

/-- **At most one row lies at the end of a path**, as long as siblings increase. -/
theorem Increasing.row_unique (hi : t.Increasing) {path : List Location} {a b : Option RowId}
    (ha : t.Leads path a) (hb : t.Leads path b) : a = b := by
  induction ha generalizing b with
  | top => exact (leads_nil.1 hb).symm
  | down _ hid ih =>
      obtain ⟨parent, id, hup, hid', hl, rfl⟩ := leads_concat.1 hb
      obtain rfl := ih hup
      rw [hi.sibling_unique hid hid' hl.symm]

namespace Shaped

/-- Two siblings at one location are one row. -/
theorem sibling_unique (hs : t.Shaped) {parent : Option RowId} {a b : RowId}
    (ha : a ∈ t.siblings parent) (hb : b ∈ t.siblings parent)
    (hl : t.locationAt a = t.locationAt b) : a = b :=
  Increasing.sibling_unique hs.increasing ha hb hl

/-- No list of siblings has a row twice, because locations increase along it. -/
theorem nodup_siblings (hs : t.Shaped) (parent : Option RowId) : (t.siblings parent).Nodup := by
  refine (hs.increasing parent).imp ?_
  rintro a b h rfl
  exact h.ne rfl

end Shaped

/-- In a shaped tree a path leads to one place, above the roots or not. -/
theorem Leads.row_unique (hs : t.Shaped) {path : List Location} {a b : Option RowId}
    (ha : t.Leads path a) (hb : t.Leads path b) : a = b :=
  Increasing.row_unique hs.increasing ha hb

/-- **At most one path leads to a row.** -/
theorem Leads.path_unique (hs : t.Shaped) {path path' : List Location} {a : Option RowId}
    (h : t.Leads path a) (h' : t.Leads path' a) : path = path' := by
  induction h generalizing path' with
  | top => exact (leads_none.1 h').symm
  | down _ hid ih =>
      cases h' with
      | down hup hid' =>
          obtain rfl := hs.parent_unique hid hid'
          rw [ih hup]

/-- Paths lead to rows that there are. -/
theorem Leads.lt_size (hs : t.Shaped) {path : List Location} {id : RowId}
    (h : t.Leads path (some id)) : id < t.size := by
  cases h with
  | down _ hid => exact hs.lt_size hid

/-- **Some path leads to every row.**  Parents have smaller numbers, so the climb to a root ends. -/
theorem exists_leads (hs : t.Shaped) {id : RowId} (hid : id < t.size) :
    ∃ path, t.Leads path (some id) := by
  induction id using Nat.strong_induction_on with
  | _ id ih =>
      obtain ⟨parent, hmem⟩ := hs.placed hid
      cases parent with
      | none => exact ⟨_, .down .top hmem⟩
      | some parent =>
          -- the climb goes on from a smaller number
          have hlt := hs.parent_lt hmem
          obtain ⟨path, hpath⟩ := ih parent hlt (Nat.lt_trans hlt hid)
          exact ⟨_, .down hpath hmem⟩

/-! ## Costs and parent links do not matter for the shape -/

namespace SameShape

/-- Having the same shape goes both ways. -/
theorem symm (h : SameShape t u) : SameShape u t where
  size := h.size.symm
  siblings := fun parent => (h.siblings parent).symm
  location := fun id => (h.location id).symm

/-- A path of one tree leads to the same place in another one of the same shape. -/
theorem leads (h : SameShape t u) {path : List Location} {at' : Option RowId}
    (hp : t.Leads path at') : u.Leads path at' := by
  induction hp with
  | top => exact .top
  | @down path parent id _ hid ih =>
      rw [← h.location id]
      refine .down ih ?_
      rw [h.siblings parent]
      exact hid

/-- Trees of the same shape have the same ways down. -/
theorem leads_iff (h : SameShape t u) {path : List Location} {at' : Option RowId} :
    u.Leads path at' ↔ t.Leads path at' :=
  ⟨h.symm.leads, h.leads⟩

/-- Being in shape is a matter of the shape, not of costs or parent links.  Each condition speaks of
    sizes, siblings and locations alone. -/
theorem shaped (h : SameShape t u) (hs : t.Shaped) : u.Shaped where
  lt_size := by
    intro parent id hid
    rw [h.siblings parent] at hid
    rw [h.size]
    exact hs.lt_size hid
  parent_lt := by
    intro parent id hid
    rw [h.siblings] at hid
    exact hs.parent_lt hid
  placed := by
    intro id hid
    rw [h.size] at hid
    obtain ⟨parent, hmem⟩ := hs.placed hid
    exact ⟨parent, (h.siblings parent).symm ▸ hmem⟩
  parent_unique := by
    intro parent parent' id hid hid'
    rw [h.siblings] at hid hid'
    exact hs.parent_unique hid hid'
  increasing := by
    intro parent
    rw [h.siblings parent]
    simp only [h.location]
    exact hs.increasing parent

end SameShape

end CostTree

end HeapProfile
