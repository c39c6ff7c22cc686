import HeapProfile.Proofs.EndlessWalks

/-!
# Truncation — the same records under more stops

More stops end a walk earlier, or leave it as it is.  The frame of a stop belongs to its path, so a walk
that met anything still meets the same frame first, and then a part of what it met before.  Every record
is therefore charged to a beginning of its former path, and to the same root.

* **`Walks.exists_cut`** — under more stops a walk that ended still ends, and is a beginning of itself;
* **`IsTrieOf.cut_le`** — where paths are cut short no row is new, and none costs more than before;
* **`IsTrieOf.cut_roots`** — the roots are the same, and cost the same;
* **`merge_truncates`** — so merging under more stops cuts off callers and moves no cost.
-/

namespace HeapProfile

/-- Under more stops a walk that ends is a beginning of what it was, and is empty only if it was.  By
    induction on the walk, which may end earlier and never goes another way. -/
theorem Tables.Walks.exists_cut {tables : Tables} {stop stop' : StringIndex → Bool}
    (hstop : ∀ i, stop i = true → stop' i = true) {index : TraceIndex} {frames : List Ip}
    (h : tables.Walks stop index frames) :
    ∃ frames', tables.Walks stop' index frames' ∧ frames' <+: frames ∧ (frames' = [] → frames = []) := by
  induction h with
  | outside hnone => exact ⟨[], .outside hnone, List.prefix_refl _, id⟩
  | stopped hnode hstopped =>
      exact ⟨_, .stopped hnode (hstop _ hstopped), List.prefix_refl _, id⟩
  | @onward index node frames hnode _ _ ih =>
      cases hstopped : stop' (tables.frameIp node).function with
      | true =>
          refine ⟨_, .stopped hnode hstopped, ?_, fun hnil => nomatch hnil⟩
          exact ⟨frames, rfl⟩
      | false =>
          obtain ⟨frames', hframes', hprefix, -⟩ := ih
          refine ⟨_, .onward hnode hstopped hframes', ?_, fun hnil => nomatch hnil⟩
          exact (List.prefix_cons_inj _).2 hprefix

/-! ## Charges to shorter paths -/

namespace Charge

/-- A charge is cut to another one: its path ends earlier, but not before its first location. -/
structure CutTo (e e' : Charge) : Prop where
  isPrefix : e'.1 <+: e.1
  nonempty : e'.1 = [] → e.1 = []
  cost : e'.2 = e.2

variable {e e' : Charge} {charges charges' : List Charge}

/-- A path of one location leads to a cut charge if it leads to the whole one. -/
theorem CutTo.singleton_prefix_iff (h : CutTo e e') (l : Location) : [l] <+: e'.1 ↔ [l] <+: e.1 := by
  refine ⟨fun hl => hl.trans h.isPrefix, fun hl => ?_⟩
  obtain ⟨rest, hrest⟩ := hl
  cases hpath : e'.1 with
  | nil =>
      rw [h.nonempty hpath] at hrest
      exact nomatch hrest
  | cons l' path =>
      obtain ⟨more, hmore⟩ := h.isPrefix
      rw [hpath, ← hrest] at hmore
      rw [(List.cons.inj hmore).1]
      exact ⟨path, rfl⟩

/-- Cut charges lead through the end of a path with no more than the whole ones, charge by charge. -/
theorem amount_through_cut_le (h : List.Forall₂ CutTo charges charges') (path : List Location)
    (f : CostField) : Cost.amount f (through path charges') ≤ Cost.amount f (through path charges) := by
  rw [through, through, amount_filter, amount_filter]
  induction h with
  | nil => exact Nat.le_refl _
  | @cons e e' charges charges' hcut _ ih =>
      have hhead : (if path <+: e'.1 then (e'.2.get f).toNat else 0)
          ≤ if path <+: e.1 then (e.2.get f).toNat else 0 := by
        by_cases hpath : path <+: e'.1
        · rw [if_pos hpath, if_pos (hpath.trans hcut.isPrefix), hcut.cost]
        · rw [if_neg hpath]
          exact Nat.zero_le _
      rw [List.map_cons, List.sum_cons, List.map_cons, List.sum_cons]
      exact Nat.add_le_add hhead ih

/-- Through a first location cut charges lead like the whole ones. -/
theorem through_singleton_cut (h : List.Forall₂ CutTo charges charges') (l : Location) :
    through [l] charges' = through [l] charges := by
  rw [through, through]
  induction h with
  | nil => rfl
  | @cons e e' charges charges' hcut _ ih =>
      have hiff := hcut.singleton_prefix_iff l
      by_cases hl : [l] <+: e.1
      · rw [List.filter_cons_of_pos (by simpa using hiff.2 hl), List.filter_cons_of_pos (by simpa using hl),
          List.map_cons, List.map_cons, hcut.cost, ih]
      · rw [List.filter_cons_of_neg (by simpa using mt hiff.1 hl),
          List.filter_cons_of_neg (by simpa using hl), ih]

/-- Where a cut charge leads a whole one leads too. -/
theorem exists_prefix_of_cut (h : List.Forall₂ CutTo charges charges') {path : List Location}
    (hpath : ∃ e ∈ charges', path <+: e.1) : ∃ e ∈ charges, path <+: e.1 := by
  induction h with
  | nil => exact hpath
  | cons hcut _ ih =>
      obtain ⟨e', he', hprefix⟩ := hpath
      rcases List.mem_cons.1 he' with rfl | he'
      · exact ⟨_, List.mem_cons_self, hprefix.trans hcut.isPrefix⟩
      · obtain ⟨e, he, hprefix⟩ := ih ⟨e', he', hprefix⟩
        exact ⟨e, List.mem_cons_of_mem _ he, hprefix⟩

theorem exists_singleton_prefix_of_cut (h : List.Forall₂ CutTo charges charges') (l : Location) :
    (∃ e ∈ charges', [l] <+: e.1) ↔ ∃ e ∈ charges, [l] <+: e.1 := by
  have hthrough (charges : List Charge) :
      (∃ e ∈ charges, [l] <+: e.1) ↔ through [l] charges ≠ [] := by
    rw [through, Ne, List.map_eq_nil_iff, List.filter_eq_nil_iff]
    simp
  rw [hthrough, hthrough, through_singleton_cut h]

end Charge

/-! ## Tries of shorter paths -/

namespace CostTree

/-- The roots of a tree in their order, each with its location and its cost. -/
def rootEntries (t : CostTree) : List (Location × Cost) :=
  t.roots.map fun id => (t.locationAt id, (t.row id).cost)

variable {t t' : CostTree} {charges charges' : List Charge}

theorem mem_rootEntries {l : Location} {cost : Cost} :
    (l, cost) ∈ t.rootEntries ↔ ∃ id, t.RowAt [l] id ∧ (t.row id).cost = cost := by
  rw [rootEntries, List.mem_map]
  constructor
  · rintro ⟨id, hid, heq⟩
    cases heq
    exact ⟨id, .down .top hid, rfl⟩
  · rintro ⟨id, hrow, rfl⟩
    obtain ⟨parent, id', hup, hid, rfl, heq⟩ := (@leads_concat t [] l (some id)).1 hrow
    cases heq
    rw [leads_nil.1 hup] at hid
    exact ⟨id, hid, rfl⟩

/-- Roots increase by location, so they are told by which of them there are. -/
theorem rootEntries_eq (hs : t.Shaped) (hs' : t'.Shaped)
    (h : ∀ e, e ∈ t'.rootEntries ↔ e ∈ t.rootEntries) : t'.rootEntries = t.rootEntries := by
  have hincreasing {t : CostTree} (hs : t.Shaped) :
      t.rootEntries.Pairwise fun a b => a.1.Before b.1 := by
    rw [rootEntries, List.pairwise_map]
    exact hs.increasing none
  have hnodup {t : CostTree} (hs : t.Shaped) : t.rootEntries.Nodup := by
    refine (hincreasing hs).imp ?_
    rintro a b hab rfl
    exact hab.ne rfl
  have hperm := (List.perm_ext_iff_of_nodup (hnodup hs') (hnodup hs)).2 h
  refine List.Perm.eq_of_pairwise ?_ (hincreasing hs') (hincreasing hs) hperm
  intro a b _ _ hab hba
  exact absurd rfl (hab.trans hba).ne

/-- The roots of a tree cost what their entries say. -/
theorem totalCost_eq (t : CostTree) : t.totalCost = Cost.total (t.rootEntries.map Prod.snd) := by
  rw [rootEntries, List.map_map]
  rfl

/-- **Where paths are cut short** no row is new, and none costs more than before.  A prefix of a
    beginning is a prefix of the whole path, and fewer paths go through it. -/
theorem IsTrieOf.cut_le (h : t.IsTrieOf charges) (h' : t'.IsTrieOf charges')
    (hcut : List.Forall₂ Charge.CutTo charges charges') {path : List Location} {id' : RowId}
    (hrow : t'.RowAt path id') :
    ∃ id, t.RowAt path id ∧ ∀ f, (t'.row id').cost.get f ≤ (t.row id).cost.get f := by
  have hne := rowAt_ne_nil hrow
  obtain ⟨id, hid⟩ := (h.rowAt_iff path hne).2
    (Charge.exists_prefix_of_cut hcut ((h'.rowAt_iff path hne).1 ⟨id', hrow⟩))
  refine ⟨id, hid, fun f => ?_⟩
  have hle := Charge.amount_through_cut_le hcut path f
  rw [UInt64.le_iff_toNat_le, h.cost hid, h'.cost hrow]
  omega

/-- **The roots are the same,** and cost the same.  A path that is cut short keeps its first location,
    and an empty one was empty before. -/
theorem IsTrieOf.cut_roots (hs : t.Shaped) (hs' : t'.Shaped) (h : t.IsTrieOf charges)
    (h' : t'.IsTrieOf charges') (hcut : List.Forall₂ Charge.CutTo charges charges') :
    t'.rootEntries = t.rootEntries := by
  have hcost {l : Location} {id id' : RowId} (hid : t.RowAt [l] id) (hid' : t'.RowAt [l] id') :
      (t'.row id').cost = (t.row id).cost := by
    refine Cost.ext_toNat fun f => ?_
    rw [h.cost hid, h'.cost hid', Charge.through_singleton_cut hcut]
  have hrows (l : Location) : (∃ id, t'.RowAt [l] id) ↔ ∃ id, t.RowAt [l] id := by
    rw [h.rowAt_iff _ (List.cons_ne_nil _ _), h'.rowAt_iff _ (List.cons_ne_nil _ _)]
    exact Charge.exists_singleton_prefix_of_cut hcut l
  refine rootEntries_eq hs hs' fun e => ?_
  obtain ⟨l, cost⟩ := e
  rw [mem_rootEntries, mem_rootEntries]
  constructor
  · rintro ⟨id', hid', rfl⟩
    obtain ⟨id, hid⟩ := (hrows l).1 ⟨id', hid'⟩
    exact ⟨id, hid, (hcost hid hid').symm⟩
  · rintro ⟨id, hid, rfl⟩
    obtain ⟨id', hid'⟩ := (hrows l).2 ⟨id, hid⟩
    exact ⟨id', hid', hcost hid hid'⟩

end CostTree

/-! ## Merging under more stops -/

namespace BottomUp

variable {tables : Tables} {stop stop' : StringIndex → Bool} {records : List Record}
  {resolver : Resolver} {t : CostTree}

/-- The bounded walk ends under more stops as well, and is a beginning of what it was. -/
theorem walk_truncates (hstop : ∀ i, stop i = true → stop' i = true) {index : TraceIndex}
    (h : (tables.walk stop index).ended = true) :
    (tables.walk stop' index).ended = true ∧
      (tables.walk stop' index).frames <+: (tables.walk stop index).frames ∧
      ((tables.walk stop' index).frames = [] → (tables.walk stop index).frames = []) := by
  obtain ⟨frames', hframes', hprefix, hnil⟩ := (Tables.walks_of_ended _ _ h).exists_cut hstop
  have hended : (tables.walk stop' index).ended = true := hframes'.ended_walkWithin hframes'.length_le
  obtain rfl := hframes'.frames_unique (Tables.walks_of_ended _ _ hended)
  exact ⟨hended, hprefix, hnil⟩

/-- Under more stops the records are charged to beginnings of their paths. -/
theorem charges_truncate (hstop : ∀ i, stop i = true → stop' i = true)
    (h : ∀ record ∈ records, (tables.walk stop record.trace).ended = true) :
    List.Forall₂ Charge.CutTo (charges tables stop resolver records)
      (charges tables stop' resolver records) := by
  rw [charges, charges, List.forall₂_map_left_iff, List.forall₂_map_right_iff, List.forall₂_same]
  intro record hrecord
  obtain ⟨-, hprefix, hnil⟩ := walk_truncates hstop (h record hrecord)
  refine ⟨List.IsPrefix.map _ hprefix, fun hpath => ?_, rfl⟩
  exact List.map_eq_nil_iff.2 (hnil (List.map_eq_nil_iff.1 hpath))

/-- **More stops only truncate.**  What merged under some stops merges under more of them.  Every record is
charged to a beginning of its former path.  The roots are the same and cost the same, so the forest costs as
much as before; and a path that has a row had one before, which cost at least as much. -/
theorem merge_truncates (hstop : ∀ i, stop i = true → stop' i = true)
    (h : (merge tables stop records resolver).2 = .ok t) :
    ∃ t', (merge tables stop' records resolver).2 = .ok t' ∧
      (∀ record ∈ records,
        walkedPath tables stop' resolver record <+: walkedPath tables stop resolver record) ∧
      t'.rootEntries = t.rootEntries ∧ t'.totalCost = t.totalCost ∧
      ∀ path id', t'.RowAt path id' →
        ∃ id, t.RowAt path id ∧ ∀ f, (t'.row id').cost.get f ≤ (t.row id).cost.get f := by
  obtain ⟨hended, hfinish⟩ := charges_of_merge h
  have hended' : ∀ record ∈ records, (tables.walk stop' record.trace).ended = true :=
    fun record hrecord => (walk_truncates hstop (hended record hrecord)).1
  obtain ⟨t', ht'⟩ : ∃ t', (merge tables stop' records resolver).2 = .ok t' :=
    exists_merge_iff.2 hended'
  obtain ⟨hs, -, htrie⟩ := TreeBuilder.trie_of_finish hfinish
  obtain ⟨hs', -, htrie'⟩ := TreeBuilder.trie_of_finish (charges_of_merge ht').2
  have hcut : List.Forall₂ Charge.CutTo (charges tables stop resolver records)
      (charges tables stop' resolver records) := charges_truncate hstop hended
  have hroots := CostTree.IsTrieOf.cut_roots hs hs' htrie htrie' hcut
  refine ⟨t', ht', fun record hrecord => ?_, hroots, ?_, fun path id' => htrie.cut_le htrie' hcut⟩
  · exact (walk_truncates hstop (hended record hrecord)).2.1.map _
  · rw [CostTree.totalCost_eq, CostTree.totalCost_eq, hroots]

/-- The samples without a stop, and with the stop that cuts off whoever called `main`. -/
theorem merge_truncates_sample :
    ∃ t t', (merge sampleTables (fun _ => false) (sampleRecords UInt64.largest) {}).2 = .ok t ∧
      (merge sampleTables sampleStop (sampleRecords UInt64.largest) {}).2 = .ok t' ∧
      t.size = 8 ∧ t'.size = 6 ∧ t'.rootEntries = t.rootEntries ∧ t'.totalCost = t.totalCost := by
  obtain ⟨t, ht, hsize⟩ : ∃ t,
      (merge sampleTables (fun _ => false) (sampleRecords UInt64.largest) {}).2 = .ok t ∧ t.size = 8 :=
    ⟨_, by rfl, by rfl⟩
  have hstop : ∀ i, (fun _ : StringIndex => false) i = true → sampleStop i = true :=
    fun _ hnone => Bool.noConfusion hnone
  obtain ⟨t', ht', -, hroots, htotal, -⟩ := merge_truncates hstop ht
  have hsize' : (merge sampleTables sampleStop (sampleRecords UInt64.largest) {}).2.toOption.map
      CostTree.size = some 6 := by rfl
  rw [ht'] at hsize'
  exact ⟨t, t', ht, ht', hsize, Option.some.inj hsize', hroots, htotal⟩

end BottomUp

end HeapProfile
