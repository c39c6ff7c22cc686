import HeapProfile.Proofs.OrderIndependence

/-!
# Endless walks — when merging gives up

`NeverEnds` says of a trace node that its walk goes on for ever, by an endless sequence of frames each
of which calls the one before it.  The walk of the program is bounded by the size of the table.  The
bound is exact: a walk that ends meets no node twice, since from a node that it met again it would go
the same way once more, so it ends within as many frames as there are nodes.  A walk that has used them
up therefore never ends, and that is the only thing that merging refuses.

* **`Walks.length_le`** — a walk that ends meets each node of the table once at most;
* **`neverEnds_iff`** — the walk from a node goes on for ever, or it meets finitely many frames;
* **`ended_walk_iff`** — the bounded walk comes to an end if the unbounded one does;
* **`merge_fails_iff_neverEnds`** — merging fails for the first record whose walk never ends, and for
  nothing else.
-/

namespace HeapProfile

namespace Tables

variable (tables : Tables) (stop : StringIndex → Bool)

/-- The walk from a trace node goes on for ever. -/
def NeverEnds (index : TraceIndex) : Prop :=
  ∃ met : Nat → TraceIndex, met 0 = index ∧ ∀ n, tables.caller? stop (met n) = some (met (n + 1))

/-- One node is reached from another along parent links, over stops as well. -/
def LinksTo : TraceIndex → TraceIndex → Prop :=
  Relation.ReflTransGen fun index outer => tables.caller? (fun _ => false) index = some outer

variable {tables stop} {index outer : TraceIndex} {node : TraceNode} {frames : List Ip}

/-! ## One step outwards -/

theorem caller?_of_outside (h : tables.trace? index = none) : tables.caller? stop index = none := by
  rw [caller?, h]
  rfl

theorem caller?_of_stopped (h : tables.trace? index = some node)
    (hstop : stop (tables.frameIp node).function = true) : tables.caller? stop index = none := by
  rw [caller?, h]
  exact if_pos hstop

theorem caller?_of_onward (h : tables.trace? index = some node)
    (hstop : stop (tables.frameIp node).function = false) :
    tables.caller? stop index = (tables.trace? node.parent).map fun _ => node.parent := by
  have hgo : ¬ stop (tables.frameIp node).function = true := by rw [hstop]; exact Bool.false_ne_true
  rw [caller?, h]
  refine (if_neg hgo).trans ?_
  cases tables.trace? node.parent <;> rfl

/-- Whoever has a caller is a node that is no stop, and the caller is its parent. -/
theorem caller?_eq_some (h : tables.caller? stop index = some outer) :
    ∃ node, tables.trace? index = some node ∧ stop (tables.frameIp node).function = false ∧
      node.parent = outer := by
  cases hnode : tables.trace? index with
  | none => rw [caller?_of_outside hnode] at h; exact nomatch h
  | some node =>
      cases hstop : stop (tables.frameIp node).function with
      | true => rw [caller?_of_stopped hnode hstop] at h; exact nomatch h
      | false =>
          rw [caller?_of_onward hnode hstop, Option.map_eq_some_iff] at h
          obtain ⟨_, -, hparent⟩ := h
          exact ⟨node, rfl, hstop, hparent⟩

/-! ## A walk ends, or it goes on for ever -/

/-- A walk that met finitely many frames does not go on for ever. -/
theorem Walks.not_neverEnds (h : tables.Walks stop index frames) : ¬ tables.NeverEnds stop index := by
  rintro ⟨met, hfirst, hmet⟩
  induction h generalizing met with
  | outside hnone =>
      have hstep := hmet 0
      rw [hfirst, caller?_of_outside hnone] at hstep
      exact nomatch hstep
  | stopped hnode hstop =>
      have hstep := hmet 0
      rw [hfirst, caller?_of_stopped hnode hstop] at hstep
      exact nomatch hstep
  | onward hnode _ _ ih =>
      -- the same frames without the first one go on for ever from its parent
      refine ih (fun n => met (n + 1)) ?_ (fun n => hmet (n + 1))
      have hstep := hmet 0
      rw [hfirst] at hstep
      obtain ⟨node', hnode', -, hparent⟩ := caller?_eq_some hstep
      rw [hnode, Option.some.injEq] at hnode'
      rw [hnode', ← hparent]

/-- A walk that does not end goes on from a node to its parent, and does not end there either. -/
theorem exists_caller_of_not_walks (h : ¬ ∃ frames, tables.Walks stop index frames) :
    ∃ outer, tables.caller? stop index = some outer ∧ ¬ ∃ frames, tables.Walks stop outer frames := by
  cases hnode : tables.trace? index with
  | none => exact absurd ⟨[], .outside hnode⟩ h
  | some node =>
      cases hstop : stop (tables.frameIp node).function with
      | true => exact absurd ⟨_, .stopped hnode hstop⟩ h
      | false =>
          have hparent : ¬ ∃ frames, tables.Walks stop node.parent frames := by
            rintro ⟨frames, hframes⟩
            exact h ⟨_, .onward hnode hstop hframes⟩
          refine ⟨node.parent, ?_, hparent⟩
          cases houter : tables.trace? node.parent with
          | none => exact absurd ⟨[], .outside houter⟩ hparent
          | some _ => rw [caller?_of_onward hnode hstop, houter]; rfl

/-- **The walk from a node goes on for ever,** or it meets finitely many frames.  One direction builds
    the endless walk step by step, from a node that no finite walk leaves to the next one. -/
theorem neverEnds_iff : tables.NeverEnds stop index ↔ ¬ ∃ frames, tables.Walks stop index frames := by
  constructor
  · rintro hnever ⟨frames, hframes⟩
    exact hframes.not_neverEnds hnever
  · intro h
    -- every node on the way has a caller from which the walk does not end, so it is never stuck
    have hstep (i : { i // ¬ ∃ frames, tables.Walks stop i frames }) :
        ∃ outer : { i // ¬ ∃ frames, tables.Walks stop i frames },
          tables.caller? stop i = some outer.1 := by
      obtain ⟨outer, hcaller, houter⟩ := exists_caller_of_not_walks i.2
      exact ⟨⟨outer, houter⟩, hcaller⟩
    choose next hnext using hstep
    refine ⟨fun n => (next^[n] ⟨index, h⟩).1, rfl, fun n => ?_⟩
    show _ = some (next^[n + 1] ⟨index, h⟩).1
    rw [Function.iterate_succ_apply']
    exact hnext _

/-- A walk that comes upon a stop along parent links ends there at the latest. -/
theorem LinksTo.exists_walks {last : TraceIndex} (h : tables.LinksTo index last)
    (hlast : tables.trace? last = some node) (hstop : stop (tables.frameIp node).function = true) :
    ∃ frames, tables.Walks stop index frames := by
  induction h using Relation.ReflTransGen.head_induction_on with
  | refl => exact ⟨_, .stopped hlast hstop⟩
  | @head index outer hlink _ ih =>
      obtain ⟨node', hnode', -, rfl⟩ := caller?_eq_some hlink
      obtain ⟨frames, hframes⟩ := ih
      -- it may have ended at a stop before that one
      cases hstop' : stop (tables.frameIp node').function with
      | true => exact ⟨_, .stopped hnode' hstop'⟩
      | false => exact ⟨_, .onward hnode' hstop' hframes⟩

/-! ## The bound of the walk -/

/-- The nodes of a walk that ends: one for each frame, all different, and the walk from any of them is
no longer than the whole. -/
theorem Walks.exists_nodes (h : tables.Walks stop index frames) :
    ∃ nodes : List TraceIndex, nodes.length = frames.length ∧ nodes.Nodup ∧
      ∀ i ∈ nodes, tables.trace? i ≠ none ∧
        ∃ onward, tables.Walks stop i onward ∧ onward.length ≤ frames.length := by
  induction h with
  | outside _ => exact ⟨[], rfl, List.nodup_nil, fun _ h => nomatch h⟩
  | @stopped index node hnode hstop =>
      refine ⟨[index], rfl, List.nodup_singleton index, ?_⟩
      rw [List.forall_mem_singleton, hnode]
      exact ⟨Option.some_ne_none node, _, .stopped hnode hstop, Nat.le_refl 1⟩
  | @onward index node frames hnode hstop hrest ih =>
      obtain ⟨nodes, hlength, hnodup, hnodes⟩ := ih
      have hwalk : tables.Walks stop index (tables.frameIp node :: frames) :=
        .onward hnode hstop hrest
      -- from a node that is met again the walk would be both longer and not
      have hnew : index ∉ nodes := by
        intro hmem
        obtain ⟨-, onward, honward, hle⟩ := hnodes index hmem
        rw [← hwalk.frames_unique honward, List.length_cons] at hle
        exact Nat.not_succ_le_self _ hle
      refine ⟨index :: nodes, congrArg (· + 1) hlength, List.nodup_cons.2 ⟨hnew, hnodup⟩, ?_⟩
      rw [List.forall_mem_cons, hnode]
      refine ⟨⟨Option.some_ne_none node, _, hwalk, Nat.le_refl _⟩, fun i hi => ?_⟩
      obtain ⟨hsome, onward, honward, hle⟩ := hnodes i hi
      exact ⟨hsome, onward, honward, Nat.le_succ_of_le hle⟩

/-- Different numbers that refer to nodes are no more than there are nodes. -/
theorem length_le_of_nodup {nodes : List TraceIndex} (hnodup : nodes.Nodup)
    (hnodes : ∀ i ∈ nodes, tables.trace? i ≠ none) : nodes.length ≤ tables.traces.size := by
  have hplace : ∀ i ∈ nodes, 1 ≤ i.raw.toNat ∧ i.raw.toNat ≤ tables.traces.size := fun i hi =>
    Table.exists_get?_iff.1 (Option.ne_none_iff_exists'.1 (hnodes i hi))
  have hplaces : (nodes.map fun i => i.raw.toNat - 1).Nodup := by
    refine hnodup.map_on fun i hi j hj hij => ?_
    have hraw : i.raw.toNat = j.raw.toNat := by
      have hi := hplace i hi
      have hj := hplace j hj
      omega
    cases i
    cases j
    exact congrArg Index.mk (UInt32.toNat.inj hraw)
  have hrange : nodes.map (fun i => i.raw.toNat - 1) ⊆ List.range tables.traces.size := by
    intro n hn
    obtain ⟨i, hi, rfl⟩ := List.mem_map.1 hn
    have hi := hplace i hi
    exact List.mem_range.2 (by omega)
  have hle := (hplaces.subperm hrange).length_le
  rwa [List.length_map, List.length_range] at hle

/-- **A walk that ends meets each node of the table once at most.**  If it met one twice, it would go
    round between the two visits and never end. -/
theorem Walks.length_le (h : tables.Walks stop index frames) :
    frames.length ≤ tables.traces.size := by
  obtain ⟨nodes, hlength, hnodup, hnodes⟩ := h.exists_nodes
  rw [← hlength]
  exact length_le_of_nodup hnodup fun i hi => (hnodes i hi).1

/-- A walk that has room for all of its frames comes to its end. -/
theorem Walks.ended_walkWithin (h : tables.Walks stop index frames) {fuel : Nat}
    (hfuel : frames.length ≤ fuel) : (tables.walkWithin stop fuel index).ended = true := by
  induction h generalizing fuel with
  | outside hnone => rw [walkWithin_outside hnone]
  | stopped hnode hstop =>
      obtain ⟨fuel, rfl⟩ : ∃ n, fuel = n + 1 := ⟨fuel - 1, (Nat.sub_add_cancel hfuel).symm⟩
      rw [walkWithin_stopped hnode hstop]
  | onward hnode hstop _ ih =>
      obtain ⟨fuel, rfl⟩ : ∃ n, fuel = n + 1 :=
        ⟨fuel - 1, (Nat.sub_add_cancel (Nat.le_trans (Nat.succ_le_succ (Nat.zero_le _)) hfuel)).symm⟩
      rw [walkWithin_onward hnode hstop]
      exact ih (Nat.le_of_succ_le_succ hfuel)

/-- **The bounded walk comes to an end** exactly where the unbounded one does.  The bound is the size of
    the table, and a walk that ends is no longer than that. -/
theorem ended_walk_iff : (tables.walk stop index).ended = true ↔ ¬ tables.NeverEnds stop index := by
  rw [neverEnds_iff, not_not]
  exact ⟨fun h => ⟨_, walks_of_ended _ _ h⟩, fun ⟨_, h⟩ => h.ended_walkWithin h.length_le⟩

end Tables

namespace BottomUp

variable {tables : Tables} {stop : StringIndex → Bool} {records : List Record} {resolver : Resolver}

/-- Charging fails at the first record whose walk does not come to an end.  The records before it are
    charged, and those behind it are not looked at. -/
theorem chargeRecords_eq_error_iff {v : Violation} {current : Resolver} {b : TreeBuilder} :
    (chargeRecords tables stop records current b).2 = .error v ↔
      ∃ before record after, records = before ++ record :: after ∧
        (∀ r ∈ before, (tables.walk stop r.trace).ended = true) ∧
        (tables.walk stop record.trace).ended = false ∧ v = .cyclicLinks record.trace := by
  induction records generalizing current b with
  | nil =>
      have hdone : (chargeRecords tables stop [] current b).2 = .ok b := rfl
      rw [hdone]
      refine iff_of_false (fun h => nomatch h) ?_
      rintro ⟨before, record, after, hsplit, -⟩
      exact absurd hsplit (by simp)
  | cons first rest ih =>
      rw [chargeRecords]
      cases hended : (tables.walk stop first.trace).ended with
      | false =>
          simp only [Bool.false_eq_true, if_false, Except.error.injEq]
          constructor
          · rintro rfl
            exact ⟨[], first, rest, rfl, List.forall_mem_nil _, hended, rfl⟩
          · rintro ⟨before, record, after, hsplit, hbefore, -, hv⟩
            -- the first walk does not end, so no record stands before it
            rcases List.cons_eq_append_iff.1 hsplit with ⟨rfl, heq⟩ | ⟨before, rfl, -⟩
            · rw [hv, (List.cons.inj heq).1]
            · have hfirst := hbefore first List.mem_cons_self
              rw [hended] at hfirst
              exact Bool.noConfusion hfirst
      | true =>
          simp only [if_true]
          rw [ih]
          constructor
          · rintro ⟨before, record, after, rfl, hbefore, hrecord⟩
            exact ⟨first :: before, record, after, rfl, List.forall_mem_cons.2 ⟨hended, hbefore⟩,
              hrecord⟩
          · rintro ⟨before, record, after, hsplit, hbefore, hrecord, hv⟩
            rcases List.cons_eq_append_iff.1 hsplit with ⟨rfl, heq⟩ | ⟨before, rfl, hrest⟩
            · rw [(List.cons.inj heq).1, hended] at hrecord
              exact Bool.noConfusion hrecord
            · exact ⟨before, record, after, hrest, (List.forall_mem_cons.1 hbefore).2, hrecord, hv⟩

/-- Merging fails where charging does: what was charged is always a forest. -/
theorem merge_eq_error_iff {v : Violation} :
    (merge tables stop records resolver).2 = .error v ↔
      (chargeRecords tables stop records (resolver.sync tables.strings.entries) {}).2 = .error v := by
  cases hcharged : (chargeRecords tables stop records (resolver.sync tables.strings.entries) {}).2 with
  | error w =>
      have hmerge : (merge tables stop records resolver).2 = .error w := by
        rw [merge]
        show (chargeRecords tables stop records (resolver.sync tables.strings.entries) {}).2 >>= _ = _
        rw [hcharged]
        rfl
      rw [hmerge, Except.error.injEq, Except.error.injEq]
  | ok b =>
      obtain ⟨t, ht⟩ := exists_merge_iff.2 (chargeRecords_ok rfl hcharged).1
      rw [ht]
      constructor
      · intro h
        cases h
      · intro h
        cases h

/-- **Merging refuses endless walks, and nothing else.**  It fails for the first record whose walk never
ends, which the failure names, and succeeds if every walk ends.  A walk ends if it meets finitely many
frames; those may be as many as there are nodes, but no more.  So it ends wherever parent links lead to
a stop, on a cycle or in front of one. -/
theorem merge_fails_iff_neverEnds (tables : Tables) (stop : StringIndex → Bool)
    (records : List Record) (resolver : Resolver) :
    (∀ v, (merge tables stop records resolver).2 = .error v ↔
      ∃ before record after, records = before ++ record :: after ∧
        (∀ r ∈ before, ¬ tables.NeverEnds stop r.trace) ∧
        tables.NeverEnds stop record.trace ∧ v = .cyclicLinks record.trace ∧
        v.message = "trace " ++ toString record.trace.raw.toNat ++ " has cyclic parent links") ∧
    ((∃ t, (merge tables stop records resolver).2 = .ok t) ↔
      ∀ r ∈ records, ¬ tables.NeverEnds stop r.trace) ∧
    (∀ index, ¬ tables.NeverEnds stop index ↔
      ∃ frames, tables.Walks stop index frames ∧ frames.length ≤ tables.traces.size) ∧
    ∀ index last node, tables.LinksTo index last → tables.trace? last = some node →
      stop (tables.frameIp node).function = true → ¬ tables.NeverEnds stop index := by
  refine ⟨fun v => ?fails, ?succeeds, fun index => ?finite, fun index last node h hlast hstop => ?stops⟩
  case fails =>
    have hnever (index : TraceIndex) :
        (tables.walk stop index).ended = false ↔ tables.NeverEnds stop index := by
      rw [← Bool.not_eq_true, Tables.ended_walk_iff, not_not]
    have hnamed (record : Record) (v : Violation) : v = .cyclicLinks record.trace ↔
        v = .cyclicLinks record.trace ∧
          v.message = "trace " ++ toString record.trace.raw.toNat ++ " has cyclic parent links" :=
      ⟨fun h => ⟨h, by rw [h]; rfl⟩, And.left⟩
    simp only [merge_eq_error_iff, chargeRecords_eq_error_iff, Tables.ended_walk_iff, hnever,
      ← hnamed]
  case succeeds => simp only [exists_merge_iff, Tables.ended_walk_iff]
  case finite =>
    rw [Tables.neverEnds_iff, not_not]
    exact exists_congr fun frames => ⟨fun h => ⟨h, h.length_le⟩, And.left⟩
  case stops =>
    obtain ⟨frames, hframes⟩ := h.exists_walks hlast hstop
    exact hframes.not_neverEnds

/-- Two nodes that call each other, one of them in `main`, and a third one that the first calls. -/
def loopTables : Tables where
  strings := ⟨#["main", "work"]⟩
  ips := ⟨#[{ address := 16, function := ⟨1⟩ }, { address := 32, function := ⟨2⟩ }]⟩
  traces := ⟨#[{ ip := ⟨2⟩, parent := ⟨2⟩ }, { ip := ⟨1⟩, parent := ⟨1⟩ },
    { ip := ⟨2⟩, parent := ⟨1⟩ }]⟩

/-- The same links are refused without a stop, and accepted with one on the cycle, after a walk through
every node of the table. -/
theorem merge_fails_iff_neverEnds_sample :
    let records : List Record := [{ trace := ⟨9⟩ }, { trace := ⟨3⟩, allocated := 8 }]
    ((merge loopTables (fun _ => false) records {}).2 = .error (.cyclicLinks ⟨3⟩) ∧
      loopTables.NeverEnds (fun _ => false) ⟨3⟩) ∧
    (loopTables.walk sampleStop ⟨3⟩).frames.length = loopTables.traces.size ∧
      ∃ t, (merge loopTables sampleStop records {}).2 = .ok t := by
  intro records
  have hfails : (merge loopTables (fun _ => false) records {}).2 = .error (.cyclicLinks ⟨3⟩) := by rfl
  obtain ⟨before, record, after, -, -, hnever, hv, -⟩ :=
    ((merge_fails_iff_neverEnds loopTables (fun _ => false) records {}).1 _).1 hfails
  rw [Violation.cyclicLinks.injEq] at hv
  refine ⟨⟨hfails, hv ▸ hnever⟩, by rfl, ?_⟩
  refine (merge_fails_iff_neverEnds loopTables sampleStop records {}).2.1.2 ?_
  -- the first record is at no node at all, and the second one comes upon `main` after two steps
  have hstop : loopTables.LinksTo ⟨3⟩ ⟨2⟩ := .tail (.tail .refl rfl) rfl
  refine List.forall_mem_cons.2 ⟨?_, List.forall_mem_singleton.2 ?_⟩
  · exact Tables.ended_walk_iff.1 rfl
  · exact (merge_fails_iff_neverEnds loopTables sampleStop records {}).2.2.2 _ _ _ hstop rfl rfl

end BottomUp

end HeapProfile
