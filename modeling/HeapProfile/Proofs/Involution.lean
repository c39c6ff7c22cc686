import HeapProfile.Proofs.Inversion

/-!
# Involution — a forest that is inverted twice

Inverting a forest drops how it was built: what a row costs beyond its children is charged to the way
up from it, and a row that only stands between others charges nothing.  Where every row covers its
children exactly, the shares below a row add up to what it costs, so nothing is lost in this, and
inverting the inverted forest leads back.

The first inversion is the trie of the shares at the ways up, as every forest of charges is, and by
`isTrieOf_invert` the second is the trie of the same shares at the ways down.  It remains to read that
trie off the first forest.

* **`amount_down_inverted`** — the shares at the ways down through a row add up to what it costs;
* **`isTrieOf_invert_invert`** — the second inversion is the trie of the shares at the ways down;
* **`invert_invert`** — it is the first forest without the rows that cost nothing.
-/

namespace HeapProfile

namespace CostTree

variable {t d u : CostTree}

/-- The same paths have rows, except those whose rows cost nothing, and rows at the same path cost the
    same; numbers of rows may differ. -/
def WithoutZeros (t u : CostTree) : Prop :=
  ∀ path cost, (∃ id, u.RowAt path id ∧ (u.row id).cost = cost) ↔
    (∃ id, t.RowAt path id ∧ (t.row id).cost = cost) ∧ cost.isZero = false

/-- Every share stands at a path of the forest, once it is read from the root.  Inverting reads paths
    upwards, so they have to be reversed here. -/
theorem Linked.exists_rowAt_of_mem (hl : t.Linked) {e : Charge} (he : e ∈ Charge.reversed t.inverted) :
    ∃ id, t.RowAt e.1 id := by
  obtain ⟨_, hcharge, rfl⟩ := List.mem_map.1 he
  obtain ⟨id, hid, rfl⟩ := List.mem_map.1 hcharge
  obtain ⟨path, hpath⟩ := hl.exists_rowAt (List.mem_filter.1 hid).1
  refine ⟨id, ?_⟩
  rwa [hl.pathUp_eq_reverse hpath, List.reverse_reverse]

/-- **The shares at the ways down through a row** add up to what the row costs.  They are the shares of
    the rows below it, which the depth-first order lists in one piece. -/
theorem amount_down_inverted (hl : t.Linked) (hi : t.Increasing) (hc : t.CoveringExactly)
    {path : List Location} {id : RowId} (hpath : t.RowAt path id) (f : CostField) :
    Cost.amount f (Charge.through path (Charge.reversed t.inverted))
      = ((t.row id).cost.get f).toNat := by
  rw [Charge.through_reversed, t.amount_inverted f fun up => path <+: up.reverse,
    hl.cost_eq_sum hi hc hpath]

/-- **Inverting twice yields the trie of the shares at the ways down**, as long as the roots fit into a
    word together. -/
theorem isTrieOf_invert_invert (hl : t.Linked) (hc : t.CoveringExactly)
    (hfits : ∀ f, Cost.amount f (t.costs t.roots) ≤ wordMax) (hd : t.invert = .ok d)
    (hu : d.invert = .ok u) : u.IsTrieOf (Charge.reversed t.inverted) := by
  obtain ⟨hs, hlinked, htrie⟩ := TreeBuilder.trie_of_finish (finish_of_invert hd)
  have hshares : ∀ f, Cost.amount f (t.inverted.map Prod.snd) ≤ wordMax := by
    intro f
    rw [amount_inverted_all, hl.lists.sum_selfCost hc]
    exact hfits f
  have hagain := isTrieOf_invert hs hlinked htrie hshares hu
  rwa [List.filter_eq_self.2 fun e he => by rw [isZero_of_mem_inverted e he, Bool.not_false]] at hagain

/-- A trie of the shares at the ways down is the forest itself, but for rows that cost nothing.  Such
    rows have no share and nothing below them has, so nobody charges them. -/
theorem withoutZeros_of_isTrieOf (hl : t.Linked) (hi : t.Increasing) (hc : t.CoveringExactly)
    (htrie : u.IsTrieOf (Charge.reversed t.inverted)) : t.WithoutZeros u := by
  have hcharged : ∀ e ∈ Charge.reversed t.inverted, e.2.isZero = false := by
    intro e he
    obtain ⟨e', he', rfl⟩ := List.mem_map.1 he
    exact isZero_of_mem_inverted e' he'
  have hcost : ∀ {path id id'}, t.RowAt path id → u.RowAt path id' →
      (u.row id').cost = (t.row id).cost := by
    intro path id id' hid hid'
    refine Cost.ext_toNat fun f => ?_
    rw [htrie.cost hid', amount_down_inverted hl hi hc hid]
    exact Nat.min_eq_left (toNat_le_wordMax _)
  have hrow : ∀ {path id}, t.RowAt path id →
      ((∃ id', u.RowAt path id') ↔ (t.row id).cost.isZero = false) := by
    intro path id hid
    rw [htrie.rowAt_iff path (rowAt_ne_nil hid), exists_prefix_iff_amount hcharged,
      ← Bool.not_eq_true, Cost.isZero_iff, not_forall]
    exact exists_congr fun f => by rw [amount_down_inverted hl hi hc hid]
  intro path cost
  constructor
  · rintro ⟨id', hid', rfl⟩
    -- some share leads through the path, so the first forest has a row there as well
    obtain ⟨e, he, hpre⟩ := (htrie.rowAt_iff path (rowAt_ne_nil hid')).1 ⟨id', hid'⟩
    obtain ⟨below, hbelow⟩ := hl.exists_rowAt_of_mem he
    obtain ⟨id, hid⟩ := hbelow.exists_rowAt hpre (rowAt_ne_nil hid')
    rw [hcost hid hid']
    exact ⟨⟨id, hid, rfl⟩, (hrow hid).1 ⟨id', hid'⟩⟩
  · rintro ⟨⟨id, hid, rfl⟩, hpositive⟩
    obtain ⟨id', hid'⟩ := (hrow hid).2 hpositive
    exact ⟨id', hid', hcost hid hid'⟩

/-- **Inverting twice leads back.**  Every finished tree in which each row costs at least the exact sum
    over its children, and whose roots fit into a word together, can be inverted twice; the result is
    a forest with the rows of the tree that cost something, at the same paths and with the same
    costs. -/
theorem invert_invert (ht : t.Finished) (hc : t.CoveringExactly)
    (hfits : ∀ f, Cost.amount f (t.costs t.roots) ≤ wordMax) :
    ∃ d u, t.invert = .ok d ∧ d.invert = .ok u ∧ u.Shaped ∧ t.WithoutZeros u := by
  obtain ⟨b, hb⟩ := ht
  have hl := TreeBuilder.finish_linked hb
  obtain ⟨d, hd⟩ := t.exists_invert
  obtain ⟨u, hu⟩ := d.exists_invert
  exact ⟨d, u, hd, hu, (TreeBuilder.trie_of_finish (finish_of_invert hu)).1,
    withoutZeros_of_isTrieOf hl (TreeBuilder.increasing_of_finish hb) hc
      (isTrieOf_invert_invert hl hc hfits hd hu)⟩

/-- A function that calls itself directly and through another one, which has no share of its own; a
    path that reads the same from both ends; and two rows that cost nothing.  Children need not have
    larger numbers than their parents, and one row hangs nowhere. -/
def twiceInverted : CostTree where
  rows := #[
    { location := { function := "grow" }, cost := { allocations := 2, allocated := 5 },
      parent := some 3 },
    { location := { function := "idle" } },
    { location := { function := "grow" }, cost := { allocations := 3, peak := 4, allocated := 9 },
      children := [4, 3, 6] },
    { location := { function := "main" }, cost := { allocations := 2, allocated := 5 },
      parent := some 2, children := [0] },
    { location := { function := "grow" }, cost := { peak := 4, allocated := 1 }, parent := some 2 },
    { location := { function := "lost" }, cost := { allocations := 1 } },
    { location := { function := "stop" }, parent := some 2 }]
  roots := [2, 1]

theorem invert_invert_sample :
    twiceInverted.Finished ∧ twiceInverted.CoveringExactly ∧
      (∀ f, Cost.amount f (twiceInverted.costs twiceInverted.roots) ≤ wordMax) ∧
      ∃ d u, twiceInverted.invert = .ok d ∧ d.invert = .ok u ∧ u.Shaped ∧
        twiceInverted.WithoutZeros u := by
  have hfinished : twiceInverted.Finished :=
    ⟨{ rows := twiceInverted.rows, roots := twiceInverted.roots }, by rfl⟩
  have hcovering : twiceInverted.CoveringExactly := by
    intro id hid f
    revert id
    cases f <;> decide
  have hfits : ∀ f, Cost.amount f (twiceInverted.costs twiceInverted.roots) ≤ wordMax := by
    intro f
    cases f <;> decide
  exact ⟨hfinished, hcovering, hfits, invert_invert hfinished hcovering hfits⟩

end CostTree

end HeapProfile
