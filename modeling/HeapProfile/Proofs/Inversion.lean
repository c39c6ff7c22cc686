import HeapProfile.Proofs.MergedTrie
import HeapProfile.Proofs.Subtrees

/-!
# Inversion — the same costs seen from the callers

Inverting a forest charges what every row costs beyond its children to the way up from that row.
The inversion sees rows only, never what was charged to them, and two things are said of it.

* **`totalCost_invert`** — the roots cost together what they did before.  Nothing is asked of the
  tree but that no row costs less than its children, so this holds after saturation as well, when
  the costs of rows say little about single paths.  The proof goes along the depth-first order: in
  `Lists.clamp_selfCost` a row that is taken off the pending ones leaves its own share and its
  children behind.
* **`isTrieOf_invert`** — as long as nothing was cut off, the inverted forest is the trie of the
  reversed paths.  What a row costs beyond its children is then what was charged to the path that
  ends at it, so every charge is found again at exactly one row.
-/

namespace HeapProfile

namespace CostTree

/-- What inverting charges: the cost of every row beyond its children, to its way up. -/
def inverted (t : CostTree) : List Charge :=
  (t.depthFirst.filter fun id => !(t.selfCost id).isZero).map fun id => (t.pathUp id, t.selfCost id)

variable {t d : CostTree}

theorem foldl_chargeInverted (t : CostTree) (ids : List RowId) (b : TreeBuilder) :
    ids.foldl t.chargeInverted b =
      ((ids.filter fun id => !(t.selfCost id).isZero).map fun id =>
        (t.pathUp id, t.selfCost id)).foldl (fun b e => b.chargePath e.2 none e.1) b := by
  induction ids generalizing b with
  | nil => rfl
  | cons id rest ih =>
      rw [List.foldl_cons, ih, chargeInverted]
      by_cases h : (t.selfCost id).isZero
      · simp [h]
      · simp [h]

theorem invert_eq (t : CostTree) :
    t.invert = (TreeBuilder.chargeAll t.inverted).finish.mapError Violation.shape := by
  rw [invert, foldl_chargeInverted]
  rfl

theorem finish_of_invert (h : t.invert = .ok d) :
    (TreeBuilder.chargeAll t.inverted).finish = .ok d := by
  rw [invert_eq] at h
  exact mapError_eq_ok.1 h

/-- **Every tree can be inverted.**  Inverting is building from charges, and every list of charges
    can be built. -/
theorem exists_invert (t : CostTree) : ∃ d, t.invert = .ok d := by
  obtain ⟨d, hd⟩ := TreeBuilder.exists_trie t.inverted
  exact ⟨d, by rw [invert_eq, mapError_eq_ok, hd]⟩

/-- Inverting charges no costs of nothing. -/
theorem isZero_of_mem_inverted : ∀ e ∈ t.inverted, e.2.isZero = false := by
  intro e he
  obtain ⟨id, hid, rfl⟩ := List.mem_map.1 he
  simpa using (List.mem_filter.1 hid).2

/-- What inverting charges to some of the ways up: the shares of their rows.  Rows without a share are
    left out, which changes no sum. -/
theorem amount_inverted (t : CostTree) (f : CostField) (among : List Location → Prop)
    [DecidablePred among] :
    Cost.amount f ((t.inverted.filter fun e => among e.1).map Prod.snd)
      = ((t.depthFirst.filter fun id => among (t.pathUp id)).map fun id =>
          ((t.selfCost id).get f).toNat).sum := by
  have hcharged : (t.inverted.filter fun e => among e.1).map Prod.snd
      = ((t.depthFirst.filter fun id => among (t.pathUp id)).filter fun id =>
          !(t.selfCost id).isZero).map t.selfCost := by
    rw [inverted, List.filter_map, List.map_map, List.filter_filter, List.filter_filter]
    refine congrArg (List.map _) (List.filter_congr ?_)
    intro id _
    exact Bool.and_comm _ _
  rw [hcharged, Cost.amount_filter_not_isZero, Cost.amount, List.map_map]
  rfl

/-- All that inverting charges. -/
theorem amount_inverted_all (t : CostTree) (f : CostField) :
    Cost.amount f (t.inverted.map Prod.snd)
      = (t.depthFirst.map fun id => ((t.selfCost id).get f).toNat).sum := by
  simpa using t.amount_inverted f fun _ => True

/-! ## The total is kept -/

theorem pathUp_ne_nil (t : CostTree) (id : RowId) : t.pathUp id ≠ [] := by
  rw [pathUp, ancestry]
  cases t.size with
  | zero => exact List.cons_ne_nil _ _
  | succ n => exact List.cons_ne_nil _ _

/-- A number without a row costs nothing and has no children. -/
theorem Covering.costOf_children_le (hc : t.Covering) (id : RowId) (f : CostField) :
    (t.costOf (t.children id)).get f ≤ (t.row id).cost.get f := by
  by_cases hid : id < t.size
  · exact hc id hid f
  · have hrow := row_eq_default (t := t) (Nat.le_of_not_lt hid)
    rw [children, hrow]
    exact UInt64.le_refl _

/-- **A row leaves its own share and its children.**  Along the depth-first order the shares add up
    to the pending costs, cut off at the largest word. -/
theorem Lists.clamp_selfCost (hc : t.Covering) {pending order : List RowId}
    (h : t.Lists pending order) (f : CostField) :
    min (order.map fun id => ((t.selfCost id).get f).toNat).sum wordMax
      = min (pending.map fun id => ((t.row id).cost.get f).toNat).sum wordMax := by
  induction h with
  | done => rfl
  | @visit id pending order _ ih =>
      have hchildren := UInt64.le_iff_toNat_le.1 (hc.costOf_children_le id f)
      have hrow := toNat_le_wordMax ((t.row id).cost.get f)
      have hself : ((t.selfCost id).get f).toNat
          = ((t.row id).cost.get f).toNat - ((t.costOf (t.children id)).get f).toNat := by
        rw [selfCost, Cost.get_sub, UInt64.toNat_satSub]
      have hbelow := toNat_costOf t (t.children id) f
      rw [List.map_append, List.sum_append] at ih
      rw [List.map_cons, List.map_cons, List.sum_cons, List.sum_cons, hself]
      -- if the children were cut off, so was the row, and its own share is zero
      omega

/-- **Inverting keeps the total**, whether costs were cut off or not.  Both totals are the sum of the
    shares along the depth-first order, and both are clamped at its end alone. -/
theorem totalCost_invert (hl : t.Linked) (hc : t.Covering) (h : t.invert = .ok d) :
    d.totalCost = t.totalCost := by
  obtain ⟨hs, -, htrie⟩ := TreeBuilder.trie_of_finish (finish_of_invert h)
  have hne : ∀ e ∈ t.inverted, e.1 ≠ [] := by
    intro e he
    obtain ⟨id, -, rfl⟩ := List.mem_map.1 he
    exact pathUp_ne_nil t id
  refine Cost.ext_toNat ?_
  intro f
  rw [htrie.toNat_totalCost hs hne, amount_inverted_all, hl.lists.clamp_selfCost hc, totalCost, toNat_costOf]

/-- What inverting yields is a finished tree in which no row costs less than its children. -/
theorem finished_covering_of_invert (h : t.invert = .ok d) : d.Finished ∧ d.Covering := by
  have hfinish := finish_of_invert h
  obtain ⟨hs, -, htrie⟩ := TreeBuilder.trie_of_finish hfinish
  exact ⟨⟨_, hfinish⟩, htrie.covering hs⟩

end CostTree

/-- The same holds of what merging yields. -/
theorem BottomUp.finished_covering_of_merge {tables : Tables} {stop : StringIndex → Bool}
    {records : List Record} {resolver : Resolver} {t : CostTree}
    (h : (merge tables stop records resolver).2 = .ok t) : t.Finished ∧ t.Covering := by
  have hfinish := (charges_of_merge h).2
  obtain ⟨hs, -, htrie⟩ := TreeBuilder.trie_of_finish hfinish
  exact ⟨⟨_, hfinish⟩, htrie.covering hs⟩

/-- **Inversion conserves the total cost.**  Every finished tree in which no row costs less than its
    children can be inverted, and the roots cost the same in every field; and merging and inverting
    yield nothing but such trees. -/
theorem CostTree.invert_conserves_totalCost :
    (∀ t : CostTree, t.Finished → t.Covering →
        ∃ d, t.invert = .ok d ∧ d.totalCost = t.totalCost) ∧
      (∀ tables stop records resolver t,
        (BottomUp.merge tables stop records resolver).2 = .ok t → t.Finished ∧ t.Covering) ∧
      ∀ t d : CostTree, t.invert = .ok d → d.Finished ∧ d.Covering := by
  refine ⟨?_, ?_, ?_⟩
  · rintro t ⟨b, hb⟩ hc
    obtain ⟨d, hd⟩ := t.exists_invert
    exact ⟨d, hd, totalCost_invert (TreeBuilder.finish_linked hb) hc hd⟩
  · intro _ _ _ _ _ h
    exact BottomUp.finished_covering_of_merge h
  · intro _ _ h
    exact finished_covering_of_invert h

/-- A total that was cut off: the share of the longer path is gone, and the roots still agree. -/
theorem CostTree.invert_conserves_totalCost_sample :
    ∃ t d, (BottomUp.merge BottomUp.sampleTables BottomUp.sampleStop
        (BottomUp.sampleRecords UInt64.largest) {}).2 = .ok t ∧
      (t.Finished ∧ t.Covering) ∧ t.invert = .ok d ∧ d.totalCost = t.totalCost := by
  obtain ⟨t, ht⟩ : ∃ t, (BottomUp.merge BottomUp.sampleTables BottomUp.sampleStop
      (BottomUp.sampleRecords UInt64.largest) {}).2 = .ok t := ⟨_, by rfl⟩
  have htree := CostTree.invert_conserves_totalCost.2.1 _ _ _ _ t ht
  obtain ⟨d, hd, htotal⟩ := CostTree.invert_conserves_totalCost.1 t htree.1 htree.2
  exact ⟨t, d, ht, htree, hd, htotal⟩

/-! ## The charges are found again -/

namespace CostTree

variable {t d : CostTree} {charges : List Charge}

/-- What a trie says of its charges depends on their prefixes and sums only.  So charges may be
    reordered, split or merged as long as these stay. -/
theorem IsTrieOf.congr {charges' : List Charge} (h : t.IsTrieOf charges)
    (hbegins : ∀ path, path ≠ [] → ((∃ e ∈ charges, path <+: e.1) ↔ ∃ e ∈ charges', path <+: e.1))
    (hamount : ∀ path, path ≠ [] → ∀ f, Cost.amount f (Charge.through path charges)
      = Cost.amount f (Charge.through path charges')) : t.IsTrieOf charges' where
  rowAt_iff := fun path hpath => (h.rowAt_iff path hpath).trans (hbegins path hpath)
  row_unique := h.row_unique
  path_unique := h.path_unique
  reached := h.reached
  cost := by
    intro path id hrow f
    rw [h.cost hrow, hamount path (rowAt_ne_nil hrow)]

end CostTree

namespace Charge

variable {charges : List Charge}

/-- The charges with their paths read from the other end. -/
def reversed (charges : List Charge) : List Charge := charges.map fun e => (e.1.reverse, e.2)

theorem through_reversed (path : List Location) (charges : List Charge) :
    through path (reversed charges)
      = (charges.filter fun e => path <+: e.1.reverse).map Prod.snd := by
  rw [through, reversed, List.filter_map, List.map_map]
  rfl

/-- A part of some charges is no more than all of them. -/
theorem amount_filter_le (f : CostField) (p : Charge → Prop) [DecidablePred p]
    (charges : List Charge) :
    Cost.amount f ((charges.filter p).map Prod.snd) ≤ Cost.amount f (charges.map Prod.snd) := by
  induction charges with
  | nil => exact Nat.le_refl _
  | cons e rest ih =>
      by_cases h : p e
      · simp [h, ih]
      · simp [h]
        omega

end Charge

namespace CostTree

variable {t d : CostTree} {charges : List Charge}

theorem Lists.lt_size (hs : t.Shaped) {pending order : List RowId} (h : t.Lists pending order)
    (hpending : ∀ id ∈ pending, id < t.size) : ∀ id ∈ order, id < t.size := by
  induction h with
  | done => exact hpending
  | @visit id pending order _ ih =>
      intro k hk
      rcases List.mem_cons.1 hk with rfl | hk
      · exact hpending k List.mem_cons_self
      · refine ih ?_ k hk
        intro c hc
        rcases List.mem_append.1 hc with hc | hc
        · exact hs.lt_size (show c ∈ t.siblings (some id) from hc)
        · exact hpending c (List.mem_cons_of_mem _ hc)

/-- **Every charge is found again.**  The shares of the rows whose way up begins with a path add up
    to the charges whose reversed path begins with it: a charge belongs to the one row at its
    end. -/
theorem amount_through_inverted (hs : t.Shaped) (hl : t.Linked) (htrie : t.IsTrieOf charges)
    (f : CostField) (hfits : Cost.amount f (charges.map Prod.snd) ≤ wordMax)
    {path : List Location} (hpath : path ≠ []) :
    Cost.amount f (Charge.through path t.inverted)
      = Cost.amount f (Charge.through path (Charge.reversed charges)) := by
  have hself : ∀ id ∈ t.depthFirst.filter fun id => path <+: t.pathUp id,
      ((t.selfCost id).get f).toNat
        = Cost.amount f ((charges.filter fun e => e.1.reverse = t.pathUp id).map Prod.snd) := by
    intro id hid
    obtain ⟨p, hp⟩ := hl.exists_rowAt (List.mem_filter.1 hid).1
    have hle : Cost.amount f (Charge.through p charges) ≤ wordMax :=
      Nat.le_trans (Charge.amount_filter_le f _ charges) hfits
    rw [htrie.toNat_selfCost hs hp hle, hl.pathUp_eq_reverse hp]
    simp only [List.reverse_inj]
    rfl
  rw [Charge.through, amount_inverted, List.map_congr_left hself, Charge.through_reversed]
  refine sum_amount_filter (hl.nodup.filter _) f
    (fun id (e : Charge) => e.1.reverse = t.pathUp id) (fun e => path <+: e.1.reverse) ?_ ?_
  · -- a charge with the prefix belongs to the row at the end of its own path
    intro e he hpre
    have hne : e.1 ≠ [] := by
      intro hnil
      rw [hnil, List.reverse_nil, List.prefix_nil] at hpre
      exact hpath hpre
    obtain ⟨id, hid⟩ := (htrie.rowAt_iff e.1 hne).2 ⟨e, he, List.prefix_refl _⟩
    have hup := hl.pathUp_eq_reverse hid
    refine ⟨id, List.mem_filter.2 ⟨hl.mem_depthFirst hid id rfl, ?_⟩, hup.symm, ?_⟩
    · rw [hup]
      exact decide_eq_true hpre
    · intro k hk hkup
      obtain ⟨p, hp⟩ := hl.exists_rowAt (List.mem_filter.1 hk).1
      rw [hl.pathUp_eq_reverse hp, List.reverse_inj] at hkup
      rw [← hkup] at hp
      exact htrie.row_unique hp hid
  · -- and the other way round, rows on the left only have charges with the prefix
    intro e _ id hid hup
    rw [hup]
    exact of_decide_eq_true (List.mem_filter.1 hid).2

/-- Leaving out charges of nothing changes no sum. -/
theorem amount_through_reversed_filter (f : CostField) (path : List Location)
    (charges : List Charge) :
    Cost.amount f (Charge.through path (Charge.reversed (charges.filter fun e => !e.2.isZero)))
      = Cost.amount f (Charge.through path (Charge.reversed charges)) := by
  rw [Charge.through_reversed, Charge.through_reversed, List.filter_comm,
    Cost.amount_filter_not_isZero]

/-- Among charges that are not of nothing, those with a prefix show in the sums over it.  So a forest
    that is known by its sums is known by its rows. -/
theorem exists_prefix_iff_amount {path : List Location}
    (hcharges : ∀ e ∈ charges, e.2.isZero = false) :
    (∃ e ∈ charges, path <+: e.1) ↔ ∃ f, Cost.amount f (Charge.through path charges) ≠ 0 := by
  constructor
  · rintro ⟨e, he, hpre⟩
    have hpositive : ∃ f, (e.2.get f).toNat ≠ 0 := by
      by_contra hall
      have hzero := (Cost.isZero_iff e.2).2 fun f => not_not.1 fun hf => hall ⟨f, hf⟩
      rw [hcharges e he] at hzero
      exact Bool.noConfusion hzero
    obtain ⟨f, hf⟩ := hpositive
    refine ⟨f, ?_⟩
    rw [Charge.through, Charge.amount_filter, Ne, List.sum_eq_zero_iff]
    intro hall
    have hmine := hall _ (List.mem_map_of_mem he)
    rw [if_pos hpre] at hmine
    exact hf hmine
  · rintro ⟨f, hf⟩
    by_contra hnone
    refine hf ?_
    rw [Charge.through, List.filter_eq_nil_iff.2]
    · rfl
    · intro e he hpre
      exact hnone ⟨e, he, of_decide_eq_true hpre⟩

/-- **The inverted forest is the trie of the reversed paths**, as long as nothing was cut off.
    Charges of nothing leave no trace in it. -/
theorem isTrieOf_invert (hs : t.Shaped) (hl : t.Linked) (htrie : t.IsTrieOf charges)
    (hfits : ∀ f, Cost.amount f (charges.map Prod.snd) ≤ wordMax) (h : t.invert = .ok d) :
    d.IsTrieOf (Charge.reversed (charges.filter fun e => !e.2.isZero)) := by
  obtain ⟨-, -, hd⟩ := TreeBuilder.trie_of_finish (finish_of_invert h)
  have hamount : ∀ path, path ≠ [] → ∀ f, Cost.amount f (Charge.through path t.inverted)
      = Cost.amount f (Charge.through path
          (Charge.reversed (charges.filter fun e => !e.2.isZero))) := by
    intro path hpath f
    rw [amount_through_inverted hs hl htrie f (hfits f) hpath, amount_through_reversed_filter]
  have hreversed : ∀ e ∈ Charge.reversed (charges.filter fun e => !e.2.isZero),
      e.2.isZero = false := by
    intro e he
    obtain ⟨e', he', rfl⟩ := List.mem_map.1 he
    simpa using (List.mem_filter.1 he').2
  -- no charge on either side is of nothing, so equal sums mean equal prefixes
  refine hd.congr ?_ hamount
  intro path hpath
  rw [exists_prefix_iff_amount isZero_of_mem_inverted, exists_prefix_iff_amount hreversed]
  exact exists_congr fun f => by rw [hamount path hpath]

/-- The same paths have rows, and rows at the same path cost the same; numbers of rows may
    differ. -/
def SameForest (t u : CostTree) : Prop :=
  ∀ path cost, (∃ id, t.RowAt path id ∧ (t.row id).cost = cost) ↔
    ∃ id, u.RowAt path id ∧ (u.row id).cost = cost

/-- Two tries of the same charges are the same forest: each path has a row in both or in neither, and
    the costs are the same sums. -/
theorem IsTrieOf.sameForest {u : CostTree} (ht : t.IsTrieOf charges) (hu : u.IsTrieOf charges) :
    t.SameForest u := by
  have hcost : ∀ {path id id'}, t.RowAt path id → u.RowAt path id' →
      (t.row id).cost = (u.row id').cost := by
    intro path id id' hid hid'
    refine Cost.ext_toNat ?_
    intro f
    rw [ht.cost hid, hu.cost hid']
  have hrow : ∀ {path}, (∃ id, t.RowAt path id) ↔ ∃ id, u.RowAt path id := by
    intro path
    by_cases hpath : path = []
    · subst hpath
      constructor
      · rintro ⟨id, hid⟩
        exact absurd rfl (rowAt_ne_nil hid)
      · rintro ⟨id, hid⟩
        exact absurd rfl (rowAt_ne_nil hid)
    · rw [ht.rowAt_iff path hpath, hu.rowAt_iff path hpath]
  intro path cost
  constructor
  · rintro ⟨id, hid, rfl⟩
    obtain ⟨id', hid'⟩ := hrow.1 ⟨id, hid⟩
    exact ⟨id', hid', (hcost hid hid').symm⟩
  · rintro ⟨id', hid', rfl⟩
    obtain ⟨id, hid⟩ := hrow.2 ⟨id', hid'⟩
    exact ⟨id, hid, hcost hid hid'⟩

end CostTree

end HeapProfile
