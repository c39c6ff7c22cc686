import HeapProfile.Proofs.Linking
import HeapProfile.Proofs.Saturation

/-!
# Tries — a forest as the sum of what was charged to it

A charge is a path of locations and a cost for every row along it.  A forest that was grown from a
list of charges is the trie of their paths: its rows are the prefixes of the paths, and a row costs
the sum of the charges that lead through it.

* **`chargePath_holds`** — charging one path keeps that statement, by one step per location;
* **`exists_trie`** — every list of charges can be built and finished, into a tree that is its trie;
* **`amount_siblings`** — the charges that go on below a row are shared out among its children;
* **`IsTrieOf.covering`**, **`IsTrieOf.toNat_totalCost`**, **`IsTrieOf.toNat_selfCost`** — hence no
  row costs less than its children, the roots cost what was charged, and what a row costs beyond its
  children is what was charged to paths that end at it.
-/

namespace HeapProfile

/-- A path of locations from the roots, and a cost for every row along it. -/
abbrev Charge := List Location × Cost

namespace Charge

/-- The costs of the charges that lead through the end of a path. -/
def through (path : List Location) (charges : List Charge) : List Cost :=
  (charges.filter fun e => path <+: e.1).map Prod.snd

/-- The costs of the charges that end where a path ends. -/
def ending (path : List Location) (charges : List Charge) : List Cost :=
  (charges.filter fun e => e.1 = path).map Prod.snd

/-- The costs of the charges that go on where a path ends. -/
def beyond (path : List Location) (charges : List Charge) : List Cost :=
  (charges.filter fun e => path <+: e.1 ∧ e.1 ≠ path).map Prod.snd

/-- The sum over some charges, as a sum over all of them. -/
theorem amount_filter (f : CostField) (p : Charge → Prop) [DecidablePred p]
    (charges : List Charge) :
    Cost.amount f ((charges.filter p).map Prod.snd)
      = (charges.map fun e => if p e then (e.2.get f).toNat else 0).sum := by
  induction charges with
  | nil => rfl
  | cons e rest ih =>
      by_cases h : p e
      · simp [h, ih]
      · simp [h, ih]

theorem through_concat (path : List Location) (charges : List Charge) (e : Charge) :
    through path (charges ++ [e]) = through path charges ++ if path <+: e.1 then [e.2] else [] := by
  rw [through, List.filter_append, List.map_append, through]
  by_cases h : path <+: e.1
  · simp [h]
  · simp [h]

/-- What leads through the end of a path either ends there or goes on. -/
theorem amount_through (f : CostField) (path : List Location) (charges : List Charge) :
    Cost.amount f (through path charges)
      = Cost.amount f (ending path charges) + Cost.amount f (beyond path charges) := by
  rw [through, ending, beyond, amount_filter, amount_filter, amount_filter, ← List.sum_map_add]
  refine congrArg List.sum (List.map_congr_left ?_)
  intro e _
  by_cases hend : e.1 = path
  · simp [hend]
  · simp [hend]

end Charge

/-! ## Sums with one term -/

/-- A sum over different items of which exactly one counts is what this item counts for.  By induction
    on the items: in front of it and behind it every term is zero. -/
theorem sum_ite_unique {α : Type} {items : List α} (hnodup : items.Nodup) (p : α → Prop)
    [DecidablePred p] {a : α} (ha : a ∈ items) (hp : p a) (honly : ∀ b ∈ items, p b → b = a)
    (x : Nat) : (items.map fun b => if p b then x else 0).sum = x := by
  induction items with
  | nil => exact nomatch ha
  | cons head rest ih =>
      obtain ⟨hhead, hrest⟩ := List.nodup_cons.1 hnodup
      rw [List.map_cons, List.sum_cons]
      rcases List.mem_cons.1 ha with rfl | ha
      · have hzero : ∀ b ∈ rest, (if p b then x else 0) = 0 := by
          intro b hb
          refine if_neg fun hpb => hhead ?_
          rw [← honly b (List.mem_cons_of_mem _ hb) hpb]
          exact hb
        rw [if_pos hp, List.map_congr_left hzero]
        simp
      · have hskip : ¬ p head := by
          intro hph
          obtain rfl := honly head List.mem_cons_self hph
          exact hhead ha
        rw [if_neg hskip, Nat.zero_add]
        exact ih hrest ha fun b hb => honly b (List.mem_cons_of_mem _ hb)

/-- A sum of which no item counts. -/
theorem sum_ite_none {α : Type} {items : List α} (p : α → Prop) [DecidablePred p]
    (hnone : ∀ b ∈ items, ¬ p b) (x : Nat) : (items.map fun b => if p b then x else 0).sum = 0 := by
  have hzero : ∀ b ∈ items, (if p b then x else 0) = 0 := fun b hb => if_neg (hnone b hb)
  rw [List.map_congr_left hzero]
  simp

/-- **Counting charges item by item.**  If every charge with some property belongs to exactly one
    item, and no other charge to any, then the items together have the charges with that
    property. -/
theorem sum_amount_filter {α : Type} {items : List α} (hnodup : items.Nodup) (f : CostField)
    (belongs : α → Charge → Prop) [∀ a, DecidablePred (belongs a)]
    (counts : Charge → Prop) [DecidablePred counts] {charges : List Charge}
    (hcounts : ∀ e ∈ charges, counts e →
      ∃ a ∈ items, belongs a e ∧ ∀ b ∈ items, belongs b e → b = a)
    (honly : ∀ e ∈ charges, ∀ a ∈ items, belongs a e → counts e) :
    (items.map fun a => Cost.amount f ((charges.filter (belongs a)).map Prod.snd)).sum
      = Cost.amount f ((charges.filter counts).map Prod.snd) := by
  simp only [Charge.amount_filter]
  induction charges with
  | nil => simp
  | cons e rest ih =>
      have ih' := ih (fun e' he' => hcounts e' (List.mem_cons_of_mem _ he'))
        (fun e' he' => honly e' (List.mem_cons_of_mem _ he'))
      simp only [List.map_cons, List.sum_cons, List.sum_map_add, ih', Nat.add_right_cancel_iff]
      by_cases hc : counts e
      · obtain ⟨a, ha, hbelongs, hunique⟩ := hcounts e List.mem_cons_self hc
        rw [if_pos hc]
        exact sum_ite_unique hnodup (fun b => belongs b e) ha hbelongs hunique _
      · rw [if_neg hc]
        refine sum_ite_none (fun b => belongs b e) ?_ _
        intro a ha hbelongs
        exact hc (honly e List.mem_cons_self a ha hbelongs)

/-! ## Growing a trie -/

namespace TreeBuilder

/-- The builder that was charged one by one. -/
def chargeAll (charges : List Charge) : TreeBuilder :=
  charges.foldl (fun b e => b.chargePath e.2 none e.1) {}

/-- The forest so far is the trie of some charges. -/
structure Holds (b : TreeBuilder) (charges : List Charge) : Prop where
  shaped : b.forest.Shaped
  rowAt_iff : ∀ path, path ≠ [] →
    ((∃ id, b.forest.RowAt path id) ↔ ∃ e ∈ charges, path <+: e.1)
  cost : ∀ {path id}, b.forest.RowAt path id →
    (b.row id).cost = Cost.total (Charge.through path charges)

variable {b : TreeBuilder} {charges : List Charge} {cost : Cost}

/-- **The empty forest is the trie of no charges.**  No row is listed anywhere in it, so no path
    leads to one. -/
theorem holds_empty : ({} : TreeBuilder).Holds [] := by
  have hnone : ∀ {parent : Option RowId} {id : RowId},
      id ∉ ({} : TreeBuilder).forest.siblings parent := by
    intro parent id hid
    cases parent with
    | none => exact nomatch hid
    | some p =>
        rw [CostTree.siblings_of_size_le (Nat.zero_le p)] at hid
        exact nomatch hid
  have hrow : ∀ {path : List Location} {id : RowId},
      ¬ ({} : TreeBuilder).forest.RowAt path id := by
    intro path id h
    cases h with
    | down _ hid => exact hnone hid
  constructor
  case shaped =>
    constructor
    case lt_size => exact fun hid => absurd hid hnone
    case parent_lt => exact fun hid => absurd hid hnone
    case placed => exact fun hid => absurd hid (Nat.not_lt_zero _)
    case parent_unique => exact fun hid => absurd hid hnone
    case increasing =>
      intro parent
      rw [List.eq_nil_iff_forall_not_mem.2 fun id => hnone]
      exact List.Pairwise.nil
  case rowAt_iff =>
    intro path _
    constructor
    · rintro ⟨id, h⟩
      exact absurd h hrow
    · rintro ⟨e, he, -⟩
      exact nomatch he
  case cost => exact fun h => absurd h hrow

/-- A charge with an empty path changes nothing. -/
theorem Holds.concat_nil (h : b.Holds charges) (cost : Cost) :
    b.Holds (charges ++ [([], cost)]) where
  shaped := h.shaped
  rowAt_iff := by
    intro path hpath
    rw [h.rowAt_iff path hpath]
    simp [hpath]
  cost := by
    intro path id hrow
    have hpath := CostTree.rowAt_ne_nil hrow
    rw [h.cost hrow, Charge.through_concat, if_neg (by simpa using hpath), List.append_nil]

/-- The row at the end of the longer path, before it gets the cost of a charge that has not come so
    far: if it was there it has the other charges, and if it is new there are none. -/
theorem Holds.cost_before {path : List Location} {location : Location} {id : RowId}
    {grown : TreeBuilder} (h : b.Holds (charges ++ [(path, cost)])) (hshaped : grown.forest.Shaped)
    (hleads : ∀ p at', grown.forest.Leads p at' ↔
      b.forest.Leads p at' ∨ (p = path ++ [location] ∧ at' = some id)) :
    (b.row id).cost = Cost.total (Charge.through (path ++ [location]) charges) := by
  have hnew : grown.forest.Leads (path ++ [location]) (some id) :=
    (hleads _ _).2 (Or.inr ⟨rfl, rfl⟩)
  have hlong : ¬ path ++ [location] <+: path := by
    intro hpre
    have hle := hpre.length_le
    rw [List.length_append, List.length_singleton] at hle
    omega
  by_cases hold : b.forest.RowAt (path ++ [location]) id
  · rw [h.cost hold, Charge.through_concat, if_neg hlong, List.append_nil]
  · have hsize : b.size ≤ id := by
      refine Nat.le_of_not_lt fun hlt => hold ?_
      obtain ⟨p, hp⟩ := CostTree.exists_leads h.shaped hlt
      obtain rfl := ((hleads _ _).2 (Or.inl hp)).path_unique hshaped hnew
      exact hp
    have hnone : Charge.through (path ++ [location]) charges = [] := by
      rw [Charge.through, List.map_eq_nil_iff, List.filter_eq_nil_iff]
      intro e he hpre
      obtain ⟨k, hk⟩ := (h.rowAt_iff (path ++ [location]) (by simp)).2
        ⟨e, List.mem_append_left _ he, by simpa using hpre⟩
      have hk' := ((hleads _ _).2 (Or.inl hk)).row_unique hshaped hnew
      exact hold (Option.some.inj hk' ▸ hk)
    rw [row_of_size_le hsize, hnone]
    rfl

/-- Growing by one location adds one path.  It is the path of the charge from now on, and what the
    shorter one led through before, the longer one leads through as well. -/
theorem Holds.rowAt_step {path : List Location} {location : Location} {parent : Option RowId}
    (h : b.Holds (charges ++ [(path, cost)])) (hpath : b.forest.Leads path parent)
    {id : RowId} {grown : TreeBuilder} (hfind : b.findOrInsert parent location = (id, grown))
    {p : List Location} (hp : p ≠ []) : (∃ k, grown.forest.RowAt p k) ↔
      ∃ e ∈ charges ++ [(path ++ [location], cost)], p <+: e.1 := by
  obtain ⟨-, -, hleads, -⟩ := findOrInsert_spec h.shaped hpath hfind
  have hrows : (∃ k, grown.forest.RowAt p k) ↔
      (∃ k, b.forest.RowAt p k) ∨ p = path ++ [location] := by
    simp only [CostTree.RowAt, hleads]
    constructor
    · rintro ⟨k, hk | ⟨rfl, -⟩⟩
      · exact Or.inl ⟨k, hk⟩
      · exact Or.inr rfl
    · rintro (⟨k, hk⟩ | rfl)
      · exact ⟨k, Or.inl hk⟩
      · exact ⟨id, Or.inr ⟨rfl, rfl⟩⟩
  rw [hrows, h.rowAt_iff p hp]
  simp only [List.mem_append, List.mem_singleton, or_and_right, exists_or, exists_eq_left,
    List.prefix_concat_iff]
  exact or_assoc.trans (or_congr_right or_comm)

/-- The row at the end of the longer path gets the cost; every other row has it already, if its path
    begins the shorter one, or never will. -/
theorem Holds.cost_step {path : List Location} {location : Location} {parent : Option RowId}
    (h : b.Holds (charges ++ [(path, cost)])) (hpath : b.forest.Leads path parent)
    {id : RowId} {grown : TreeBuilder} (hfind : b.findOrInsert parent location = (id, grown))
    {p : List Location} {k : RowId} (hk : grown.forest.RowAt p k) :
    ((grown.charge id cost).row k).cost
      = Cost.total (Charge.through p (charges ++ [(path ++ [location], cost)])) := by
  obtain ⟨hshaped, hid, hleads, hcost⟩ := findOrInsert_spec h.shaped hpath hfind
  have hnew : grown.forest.Leads (path ++ [location]) (some id) :=
    (hleads _ _).2 (Or.inr ⟨rfl, rfl⟩)
  rw [cost_charge hid, hcost, Charge.through_concat]
  by_cases hkid : k = id
  · -- the row itself: what it cost before, and the new charge
    subst hkid
    obtain rfl := hk.path_unique hshaped hnew
    rw [if_pos rfl, if_pos (List.prefix_refl _), h.cost_before hshaped hleads, Cost.total,
      Cost.total, List.foldl_append]
    rfl
  · -- any other row: its path is a prefix of the longer path only if it was one of the shorter
    have hp : p ≠ path ++ [location] := by
      rintro rfl
      exact hkid (Option.some.inj (hk.row_unique hshaped hnew))
    have hold : b.forest.RowAt p k := by
      rcases (hleads _ _).1 hk with hold | ⟨heq, -⟩
      · exact hold
      · exact absurd heq hp
    rw [if_neg hkid, h.cost hold, Charge.through_concat]
    simp only [List.prefix_concat_iff, hp, false_or]

/-- **One step of a charge.**  A charge that has come to the end of a path goes on to one location
    more, where there is a row from now on. -/
theorem Holds.step {path : List Location} {location : Location} {parent : Option RowId}
    (h : b.Holds (charges ++ [(path, cost)])) (hpath : b.forest.Leads path parent)
    {id : RowId} {grown : TreeBuilder} (hfind : b.findOrInsert parent location = (id, grown)) :
    (grown.charge id cost).Holds (charges ++ [(path ++ [location], cost)]) ∧
      (grown.charge id cost).forest.Leads (path ++ [location]) (some id) := by
  obtain ⟨hshaped, -, hleads, -⟩ := findOrInsert_spec h.shaped hpath hfind
  have hsame := sameShape_charge grown id cost
  refine ⟨⟨hsame.shaped hshaped, fun p hp => ?_, fun hk => ?_⟩, ?_⟩
  · simp only [CostTree.RowAt, hsame.leads_iff]
    exact h.rowAt_step hpath hfind hp
  · exact h.cost_step hpath hfind (hsame.leads_iff.1 hk)
  · exact hsame.leads ((hleads _ _).2 (Or.inr ⟨rfl, rfl⟩))

/-- **Charging a path**, from the end of one that was charged already.  The induction is on what is left
    of the path; each location is found or inserted and charged in turn. -/
theorem chargePath_holds {rest path : List Location} {parent : Option RowId}
    (h : b.Holds (charges ++ [(path, cost)])) (hpath : b.forest.Leads path parent) :
    (b.chargePath cost parent rest).Holds (charges ++ [(path ++ rest, cost)]) := by
  induction rest generalizing b path parent with
  | nil =>
      rw [List.append_nil]
      exact h
  | cons location rest ih =>
      obtain ⟨hholds, hleads⟩ :=
        h.step hpath (Prod.mk.eta (p := b.findOrInsert parent location)).symm
      have hrest := ih hholds hleads
      rw [List.append_assoc, List.singleton_append] at hrest
      exact hrest

/-- Charging some more paths, from a builder that holds others. -/
theorem Holds.foldl_chargePath {before : List Charge} (h : b.Holds before) (more : List Charge) :
    (more.foldl (fun b e => b.chargePath e.2 none e.1) b).Holds (before ++ more) := by
  induction more generalizing b before with
  | nil =>
      rw [List.append_nil]
      exact h
  | cons e rest ih =>
      have hcharged : (b.chargePath e.2 none e.1).Holds (before ++ [e]) :=
        chargePath_holds (h.concat_nil e.2) .top
      rw [List.foldl_cons, List.append_cons]
      exact ih hcharged

/-- **A builder holds what was charged to it.**  This is the run of the step above, from the
    empty builder on. -/
theorem chargeAll_holds (charges : List Charge) : (chargeAll charges).Holds charges :=
  holds_empty.foldl_chargePath charges

end TreeBuilder

/-! ## Finished tries -/

namespace CostTree

/-- The rows of a forest are the prefixes of the charged paths, one row for each of them and no
    others, and a row costs the sum of all charges that lead through it, cut off at the largest
    word. -/
structure IsTrieOf (t : CostTree) (charges : List Charge) : Prop where
  rowAt_iff : ∀ path, path ≠ [] → ((∃ id, t.RowAt path id) ↔ ∃ e ∈ charges, path <+: e.1)
  row_unique : ∀ {path id id'}, t.RowAt path id → t.RowAt path id' → id = id'
  path_unique : ∀ {path path' id}, t.RowAt path id → t.RowAt path' id → path = path'
  reached : ∀ {id}, id < t.size ↔ ∃ path, t.RowAt path id
  cost : ∀ {path id}, t.RowAt path id → ∀ f,
    ((t.row id).cost.get f).toNat = min (Cost.amount f (Charge.through path charges)) wordMax

/-- No row costs less than its children together. -/
def Covering (t : CostTree) : Prop :=
  ∀ id < t.size, ∀ f, (t.costOf (t.children id)).get f ≤ (t.row id).cost.get f

variable {t : CostTree} {charges : List Charge}

theorem toNat_costOf (t : CostTree) (ids : List RowId) (f : CostField) :
    ((t.costOf ids).get f).toNat
      = min (ids.map fun id => ((t.row id).cost.get f).toNat).sum wordMax := by
  rw [costOf, Cost.toNat_total, Cost.amount, List.map_map]
  rfl

/-- **The charges that go on below a row are shared out among its children.**  Each of them goes
    on to exactly one child, because the children have different locations and every longer path
    has its row. -/
theorem IsTrieOf.amount_siblings (htrie : t.IsTrieOf charges) (hs : t.Shaped)
    {path : List Location} {parent : Option RowId} (hpath : t.Leads path parent) (f : CostField) :
    ((t.siblings parent).map fun c =>
        Cost.amount f (Charge.through (path ++ [t.locationAt c]) charges)).sum
      = Cost.amount f (Charge.beyond path charges) := by
  refine sum_amount_filter (hs.nodup_siblings parent) f
    (fun c (e : Charge) => path ++ [t.locationAt c] <+: e.1)
    (fun e : Charge => path <+: e.1 ∧ e.1 ≠ path) ?_ ?_
  · rintro e he ⟨⟨rest, hrest⟩, hne⟩
    cases rest with
    | nil => exact absurd (by rw [← hrest, List.append_nil]) hne
    | cons l rest =>
        -- the next location of the charge has a row, and that row is a child of this one
        have hnext : path ++ [l] <+: e.1 := ⟨rest, by rw [← hrest]; simp⟩
        obtain ⟨id, hid⟩ := (htrie.rowAt_iff (path ++ [l]) (by simp)).2 ⟨e, he, hnext⟩
        obtain ⟨parent', c, hup, hc, rfl, -⟩ := leads_concat.1 hid
        obtain rfl := hpath.row_unique hs hup
        refine ⟨c, hc, hnext, ?_⟩
        intro c' hc' hpre
        have heq := List.prefix_of_prefix_length_le hpre hnext (by simp)
        have hlast := heq.eq_of_length (by simp)
        rw [List.append_cancel_left_eq, List.singleton_inj] at hlast
        exact hs.sibling_unique hc' hc hlast
  · intro e _ c _ hpre
    refine ⟨(List.prefix_append _ _).trans hpre, ?_⟩
    intro heq
    have hle := hpre.length_le
    rw [heq, List.length_append, List.length_singleton] at hle
    omega

/-- Siblings together cost what goes on below their parent. -/
theorem IsTrieOf.toNat_costOf_siblings (htrie : t.IsTrieOf charges) (hs : t.Shaped)
    {path : List Location} {parent : Option RowId} (hpath : t.Leads path parent) (f : CostField) :
    ((t.costOf (t.siblings parent)).get f).toNat
      = min (Cost.amount f (Charge.beyond path charges)) wordMax := by
  have hcosts : ∀ c ∈ t.siblings parent, ((t.row c).cost.get f).toNat
      = min (Cost.amount f (Charge.through (path ++ [t.locationAt c]) charges)) wordMax :=
    fun c hc => htrie.cost (.down hpath hc) f
  rw [toNat_costOf, List.map_congr_left hcosts, clamp_sum_clamp, htrie.amount_siblings hs hpath]

/-- **The roots together cost what was charged.**  A charge counts for the root that its path begins
    with, so empty paths have to be excluded. -/
theorem IsTrieOf.toNat_totalCost (htrie : t.IsTrieOf charges) (hs : t.Shaped)
    (hne : ∀ e ∈ charges, e.1 ≠ []) (f : CostField) :
    (t.totalCost.get f).toNat = min (Cost.amount f (charges.map Prod.snd)) wordMax := by
  have hall : Charge.beyond [] charges = charges.map Prod.snd := by
    rw [Charge.beyond, List.filter_eq_self.2]
    intro e he
    simpa using hne e he
  have hroots := htrie.toNat_costOf_siblings hs .top f
  rw [hall] at hroots
  exact hroots

/-- **No row of a trie costs less than its children.**  What goes through a child goes through the row,
    and cutting both sums off at the largest word keeps the order. -/
theorem IsTrieOf.covering (htrie : t.IsTrieOf charges) (hs : t.Shaped) : t.Covering := by
  intro id hid f
  obtain ⟨path, hpath⟩ := htrie.reached.1 hid
  have hbelow : ((t.costOf (t.children id)).get f).toNat
      = min (Cost.amount f (Charge.beyond path charges)) wordMax :=
    htrie.toNat_costOf_siblings hs hpath f
  have hsplit := Charge.amount_through f path charges
  rw [UInt64.le_iff_toNat_le, hbelow, htrie.cost hpath]
  omega

/-- **What a row costs beyond its children is what was charged to paths that end at it**, as long as
    nothing was cut off. -/
theorem IsTrieOf.toNat_selfCost (htrie : t.IsTrieOf charges) (hs : t.Shaped)
    {path : List Location} {id : RowId} (hpath : t.RowAt path id) {f : CostField}
    (hfits : Cost.amount f (Charge.through path charges) ≤ wordMax) :
    ((t.selfCost id).get f).toNat = Cost.amount f (Charge.ending path charges) := by
  have hbelow : ((t.costOf (t.children id)).get f).toNat
      = min (Cost.amount f (Charge.beyond path charges)) wordMax :=
    htrie.toNat_costOf_siblings hs hpath f
  have hsplit := Charge.amount_through f path charges
  rw [selfCost, Cost.get_sub, UInt64.toNat_satSub, htrie.cost hpath, hbelow]
  omega

end CostTree

/-- **A finished builder is the trie of what was charged to it.**  Finishing adds the parent links and
    checks the costs; the ways down stay, so what the builder holds is carried over. -/
theorem TreeBuilder.trie_of_finish {charges : List Charge} {t : CostTree}
    (h : (chargeAll charges).finish = .ok t) : t.Shaped ∧ t.Linked ∧ t.IsTrieOf charges := by
  have hholds := chargeAll_holds charges
  have hsame := sameShape_finish h
  have hs := hsame.shaped hholds.shaped
  refine ⟨hs, finish_linked h, ?_⟩
  constructor
  case rowAt_iff =>
    intro path hpath
    rw [← hholds.rowAt_iff path hpath]
    exact exists_congr fun id => hsame.leads_iff
  case row_unique => exact fun hid hid' => Option.some.inj (hid.row_unique hs hid')
  case path_unique => exact fun hpath hpath' => hpath.path_unique hs hpath'
  case reached =>
    intro id
    constructor
    · exact CostTree.exists_leads hs
    · rintro ⟨path, hpath⟩
      exact hpath.lt_size hs
  case cost =>
    intro path id hrow f
    rw [cost_finish h, hholds.cost (hsame.leads_iff.1 hrow), Cost.toNat_total]

/-- **Every list of charges can be built.**  The check at the end never fails, since a builder holds a
    trie before it is finished. -/
theorem TreeBuilder.exists_trie (charges : List Charge) :
    ∃ t, (chargeAll charges).finish = .ok t :=
  exists_finish (chargeAll_holds charges).shaped

end HeapProfile
