import HeapProfile.Proofs.Inversion

/-!
# Renumbering — one forest under different row numbers

Rows are numbered in the order in which they were created, so forests that grew in different orders
may be the same forest under different numbers.  `Renumbers` says so of two trees down to their links:
a map of numbers takes the roots to the roots and every row to a row that differs from it in its links
only, which are mapped along.

* **`exists_renumbers`** — linked trees that have the same rows at the same paths are renumberings of
  each other: siblings stand in the order of their locations, so their lists have to agree;
* **`Renumbers.inverted_eq`** — inverting never looks at a number.  It takes rows in depth-first order
  and charges them to paths, so renumbered trees charge the same, and in the same order.
-/

namespace HeapProfile

namespace CostTree

/-- The tree `u` is the tree `t` with the rows renumbered by `σ`. -/
structure Renumbers (σ : RowId → RowId) (t u : CostTree) : Prop where
  size : u.size = t.size
  lt_size : ∀ {id}, id < t.size → σ id < u.size
  injective : ∀ {id id'}, id < t.size → id' < t.size → σ id = σ id' → id = id'
  roots : u.roots = t.roots.map σ
  row : ∀ {id}, id < t.size → u.row (σ id) =
    { location := (t.row id).location, cost := (t.row id).cost,
      parent := (t.row id).parent.map σ, children := (t.row id).children.map σ }

variable {t u : CostTree} {σ : RowId → RowId}

/-! ## Trees with the same rows at the same paths -/

/-- Being the same forest goes both ways. -/
theorem SameForest.symm (h : t.SameForest u) : u.SameForest t :=
  fun path cost => (h path cost).symm

/-- A row has a counterpart at its own path, with its own cost. -/
theorem SameForest.exists_rowAt (h : t.SameForest u) {path : List Location} {id : RowId}
    (hid : t.RowAt path id) :
    ∃ id', u.RowAt path id' ∧ (u.row id').cost = (t.row id).cost :=
  (h path _).1 ⟨id, hid, rfl⟩

/-- Some map takes every row to the row at the same path. -/
theorem SameForest.exists_map (h : t.SameForest u) (ht : t.Shaped) :
    ∃ σ : RowId → RowId, ∀ {path id}, t.RowAt path id → u.RowAt path (σ id) := by
  have hchoice : ∀ id, ∃ id', ∀ path, t.RowAt path id → u.RowAt path id' := by
    intro id
    by_cases hid : ∃ path, t.RowAt path id
    · obtain ⟨path, hpath⟩ := hid
      obtain ⟨id', hid', -⟩ := h.exists_rowAt hpath
      refine ⟨id', fun path' hpath' => ?_⟩
      rw [Leads.path_unique ht hpath' hpath]
      exact hid'
    · exact ⟨0, fun path hpath => absurd ⟨path, hpath⟩ hid⟩
  choose σ hσ using hchoice
  exact ⟨σ, fun {path id} hid => hσ id path hid⟩

section OverOnePath

variable (ht : t.Shaped) (hu : u.Shaped) (hsame : t.SameForest u)
  (hσ : ∀ {path id}, t.RowAt path id → u.RowAt path (σ id))

include ht hu hσ in
/-- A map that keeps paths sends different rows to different rows, because their paths differ. -/
theorem injective_of_rowAt {id id' : RowId} (hid : id < t.size) (hid' : id' < t.size)
    (heq : σ id = σ id') : id = id' := by
  obtain ⟨path, hpath⟩ := exists_leads ht hid
  obtain ⟨path', hpath'⟩ := exists_leads ht hid'
  have hrow := hσ hpath
  rw [heq] at hrow
  rw [Leads.path_unique hu hrow (hσ hpath')] at hpath
  exact Option.some.inj (Leads.row_unique ht hpath hpath')

include ht hu hσ in
/-- So the other tree has at least as many rows; with the map back it has as many. -/
theorem size_le_of_rowAt : t.size ≤ u.size := by
  have hlt : ∀ id : Fin t.size, σ id < u.size := fun id =>
    (hσ (exists_leads ht id.isLt).choose_spec).lt_size hu
  have hcard := Fintype.card_le_of_injective (fun id : Fin t.size => (⟨σ id, hlt id⟩ : Fin u.size))
    fun a b hab => Fin.ext (injective_of_rowAt ht hu hσ a.isLt b.isLt (congrArg Fin.val hab))
  rwa [Fintype.card_fin, Fintype.card_fin] at hcard

include hσ in
/-- Where a path leads in one tree, it leads to the mapped row in the other one. -/
theorem leads_map {path : List Location} {at' : Option RowId} (h : t.Leads path at') :
    u.Leads path (at'.map σ) := by
  cases at' with
  | none =>
      obtain rfl := leads_none.1 h
      exact .top
  | some id => exact hσ h

include hσ in
/-- A row and its image lie at one location, the last of their path. -/
theorem location_map {path : List Location} {id : RowId} (h : t.RowAt path id) :
    u.locationAt (σ id) = t.locationAt id := by
  cases h with
  | down hup hid =>
      obtain ⟨_, _, -, -, hl, hrow⟩ := leads_concat.1 (hσ (.down hup hid))
      rw [← hl, Option.some.inj hrow]

include ht hu hsame hσ in
/-- **Lists of siblings agree**: they have the same members, and both increase by location.  Two lists
    of that kind are equal, as lists and not only up to their order. -/
theorem siblings_map {path : List Location} {parent : Option RowId} (h : t.Leads path parent) :
    u.siblings (parent.map σ) = (t.siblings parent).map σ := by
  have hparent := leads_map hσ h
  have hmem : ∀ id', id' ∈ u.siblings (parent.map σ) ↔ id' ∈ (t.siblings parent).map σ := by
    intro id'
    rw [List.mem_map]
    constructor
    · intro hid'
      have hrow' := Leads.down hparent hid'
      obtain ⟨id, hrow, -⟩ := hsame.symm.exists_rowAt hrow'
      obtain ⟨above, below, habove, hbelow, -, heq⟩ := leads_concat.1 hrow
      rw [← Option.some.inj heq, Leads.row_unique ht habove h] at hbelow
      exact ⟨id, hbelow, Option.some.inj (Leads.row_unique hu (hσ hrow) hrow')⟩
    · rintro ⟨id, hid, rfl⟩
      obtain ⟨above, below, habove, hbelow, -, heq⟩ := leads_concat.1 (hσ (.down h hid))
      rw [← Option.some.inj heq, Leads.row_unique hu habove hparent] at hbelow
      exact hbelow
  have hincreasing : ((t.siblings parent).map σ).Pairwise fun a b =>
      (u.locationAt a).Before (u.locationAt b) := by
    rw [List.pairwise_map]
    refine (ht.increasing parent).imp_of_mem ?_
    intro a b ha hb hab
    rwa [location_map hσ (.down h ha), location_map hσ (.down h hb)]
  have hperm : (u.siblings (parent.map σ)).Perm ((t.siblings parent).map σ) := by
    refine (List.perm_ext_iff_of_nodup (hu.nodup_siblings _) ?_).2 hmem
    refine hincreasing.imp ?_
    rintro a b hab rfl
    exact hab.ne rfl
  refine List.Perm.eq_of_pairwise ?_ (hu.increasing _) hincreasing hperm
  intro a b _ _ hab hba
  exact absurd rfl (hab.trans hba).ne

end OverOnePath

/-- **Trees with the same rows at the same paths are renumberings of each other.**  The map takes a row
    to the row at its path; links are mapped along because sibling lists agree. -/
theorem exists_renumbers (ht : t.Shaped) (htl : t.Linked) (hu : u.Shaped) (hul : u.Linked)
    (hsame : t.SameForest u) : ∃ σ, Renumbers σ t u := by
  obtain ⟨σ, hσ⟩ := hsame.exists_map ht
  obtain ⟨_, hback⟩ := hsame.symm.exists_map hu
  refine ⟨σ, ?_, ?_, ?_, siblings_map ht hu hsame hσ .top, ?_⟩
  · exact Nat.le_antisymm (size_le_of_rowAt hu ht hback) (size_le_of_rowAt ht hu hσ)
  · intro id hid
    obtain ⟨path, hpath⟩ := exists_leads ht hid
    exact (hσ hpath).lt_size hu
  · exact injective_of_rowAt ht hu hσ
  · intro id hid
    obtain ⟨path, hpath⟩ := exists_leads ht hid
    have hlocation : (u.row (σ id)).location = (t.row id).location := location_map hσ hpath
    have hchildren : (u.row (σ id)).children = (t.row id).children.map σ :=
      siblings_map ht hu hsame hσ hpath
    have hcost : (u.row (σ id)).cost = (t.row id).cost := by
      obtain ⟨id', hid', hcost⟩ := hsame.exists_rowAt hpath
      rwa [← Option.some.inj (Leads.row_unique hu (hσ hpath) hid')] at hcost
    have hparent : (u.row (σ id)).parent = (t.row id).parent.map σ := by
      cases hpath with
      | down hup hmem =>
          have hmem' : σ id ∈ u.siblings (Option.map σ _) :=
            siblings_map ht hu hsame hσ hup ▸ List.mem_map_of_mem hmem
          rw [hul.parent_eq (leads_map hσ hup) hmem', htl.parent_eq hup hmem]
    cases hrow : u.row (σ id) with
    | mk location cost parent children => simp_all

/-! ## What does not look at numbers -/

namespace Renumbers

variable (h : Renumbers σ t u) (hs : t.Shaped)

include h

/-- The children of an image are the images of the children, in order. -/
theorem children {id : RowId} (hid : id < t.size) :
    u.children (σ id) = (t.children id).map σ := by
  rw [CostTree.children, h.row hid]
  rfl

/-- Some rows and their images cost the same together. -/
theorem costOf {ids : List RowId} (hids : ∀ id ∈ ids, id < t.size) :
    u.costOf (ids.map σ) = t.costOf ids := by
  rw [CostTree.costOf, CostTree.costOf, List.map_map]
  refine congrArg Cost.total (List.map_congr_left ?_)
  intro id hid
  show (u.row (σ id)).cost = _
  rw [h.row (hids id hid)]

include hs

/-- A row and its image cost the same beyond their children. -/
theorem selfCost {id : RowId} (hid : id < t.size) : u.selfCost (σ id) = t.selfCost id := by
  have hbelow : ∀ c ∈ t.children id, c < t.size := fun c hc =>
    hs.lt_size (show c ∈ t.siblings (some id) from hc)
  rw [CostTree.selfCost, h.children hid, h.costOf hbelow, h.row hid, CostTree.selfCost]

/-- With the same number of steps, the images are listed in the order of the rows.  The induction is on
    the steps, and both trees take the same ones. -/
theorem preorder (fuel : Nat) {ids : List RowId} (hids : ∀ id ∈ ids, id < t.size) :
    u.preorder fuel (ids.map σ) = (t.preorder fuel ids).map σ := by
  induction fuel generalizing ids with
  | zero => rfl
  | succ fuel ih =>
      cases ids with
      | nil => rfl
      | cons id pending =>
          have hid := hids id List.mem_cons_self
          have hbelow : ∀ c ∈ t.children id ++ pending, c < t.size := by
            intro c hc
            rcases List.mem_append.1 hc with hc | hc
            · exact hs.lt_size (show c ∈ t.siblings (some id) from hc)
            · exact hids c (List.mem_cons_of_mem _ hc)
          show σ id :: u.preorder fuel (u.children (σ id) ++ pending.map σ) = _
          rw [h.children hid, ← List.map_append, ih hbelow]
          rfl

/-- The depth-first order is mapped as a whole: the trees have equally many rows, so their bounds
    are the same. -/
theorem depthFirst : u.depthFirst = t.depthFirst.map σ := by
  rw [CostTree.depthFirst, h.size, h.roots]
  exact h.preorder hs _ fun id hid => hs.lt_size (show id ∈ t.siblings none from hid)

/-- Climbing from a row and from its image passes the same locations. -/
theorem locations_climb (hl : t.Linked) (fuel : Nat) {id : RowId} (hid : id < t.size) :
    (u.climb fuel (σ id)).map u.locationAt = (t.climb fuel id).map t.locationAt := by
  have hlocation : ∀ {k}, k < t.size → u.locationAt (σ k) = t.locationAt k := by
    intro k hk
    rw [locationAt, h.row hk]
    rfl
  induction fuel generalizing id with
  | zero => exact congrArg (· :: []) (hlocation hid)
  | succ fuel ih =>
      have hparent : (u.row (σ id)).parent = (t.row id).parent.map σ := by rw [h.row hid]
      rw [climb, climb, hparent, List.map_cons, List.map_cons, hlocation hid]
      cases hup : (t.row id).parent with
      | none => rfl
      | some p =>
          -- the parent of a row is a row
          have hp : p < t.size := by
            obtain ⟨path, hpath⟩ := exists_leads hs hid
            cases hpath with
            | down habove hmem =>
                rw [hl.parent_eq habove hmem] at hup
                exact (hup ▸ habove).lt_size hs
          exact congrArg (t.locationAt id :: ·) (ih hp)

/-- So the path up from a row is that of its image. -/
theorem pathUp (hl : t.Linked) {id : RowId} (hid : id < t.size) :
    u.pathUp (σ id) = t.pathUp id := by
  rw [CostTree.pathUp, CostTree.pathUp, ancestry, ancestry, h.size]
  exact h.locations_climb hs hl _ hid

/-- **Inverting never looks at a number**: renumbered trees charge the same, in the same order.  Both go
    through their rows in depth-first order and read the path up from each. -/
theorem inverted_eq (hl : t.Linked) : u.inverted = t.inverted := by
  have hrows : ∀ id ∈ t.depthFirst, id < t.size :=
    hl.lists.lt_size hs fun _ hid => hs.lt_size (show _ ∈ t.siblings none from hid)
  have hkept : (t.depthFirst.filter fun id => !(u.selfCost (σ id)).isZero)
      = t.depthFirst.filter fun id => !(t.selfCost id).isZero :=
    List.filter_congr fun id hid => by rw [h.selfCost hs (hrows id hid)]
  rw [inverted, inverted, h.depthFirst hs, List.filter_map, List.map_map]
  show (t.depthFirst.filter fun id => !(u.selfCost (σ id)).isZero).map _ = _
  rw [hkept]
  refine List.map_congr_left fun id hid => ?_
  have hid := hrows id (List.mem_filter.1 hid).1
  show (u.pathUp (σ id), u.selfCost (σ id)) = _
  rw [h.pathUp hs hl hid, h.selfCost hs hid]

/-- **Renumbered trees have one inversion**, to the last number: it is built from the charges, and
    these are equal. -/
theorem invert_eq (hl : t.Linked) : u.invert = t.invert := by
  rw [CostTree.invert_eq, CostTree.invert_eq, h.inverted_eq hs hl]

end Renumbers

end CostTree

end HeapProfile
