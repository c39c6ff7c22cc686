import HeapProfile.Proofs.Halving
import HeapProfile.Proofs.Trie

/-!
# Sessions — a builder under any sequence of calls

A builder hands out row numbers and takes them back as parents and as targets of charges.  A session
is a builder together with everything that was asked of it: the requests for rows with the numbers
that answered them, and the charges.  It is legal as long as every number that it uses was handed
out before, by this very builder.

* **`Session.Sound`** — the requests answered so far are the rows that there are, each at its place,
  and each row costs what was charged to it;
* **`sound_call`**, **`sound_calls`** — every legal call keeps that, so every legal session has it;
* **`sound_answers`** — a request is answered by an old row if and only if it was made before;
* **`CostTree.Shaped.consistent`** — a forest in shape is finished into a tree whose parent links
  and sibling lists agree, and
* **`calls_build_forest`** — both together, for every legal session.
-/

namespace HeapProfile

namespace CostTree

/-- Sibling lists and parent links tell the same forest: siblings increase by location, every row
    stands in one sibling list and there once, and a row's parent is the row whose children list it,
    or none for a root. -/
structure Consistent (t : CostTree) : Prop where
  increasing : ∀ parent, (t.siblings parent).Pairwise fun a b =>
    (t.locationAt a).Before (t.locationAt b)
  once : (t.roots ++ (List.range t.size).flatMap t.children).Perm (List.range t.size)
  parent_iff : ∀ c < t.size, ∀ p, (t.row c).parent = some p ↔ c ∈ t.children p
  root_iff : ∀ c < t.size, (t.row c).parent = none ↔ c ∈ t.roots

variable {t : CostTree}

/-- **The sibling lists of a forest in shape are the rows**, each of them once.  Every row hangs
    somewhere, no list has a row twice, and no two lists share one. -/
theorem Shaped.perm_range (hs : t.Shaped) :
    (t.roots ++ (List.range t.size).flatMap t.children).Perm (List.range t.size) := by
  have hroots : t.roots.Nodup := hs.nodup_siblings none
  have hchildren : ((List.range t.size).flatMap t.children).Nodup := by
    rw [List.nodup_flatMap]
    refine ⟨fun id _ => hs.nodup_siblings (some id), ?_⟩
    refine List.nodup_range.imp ?_
    intro p q hne c hp hq
    have heq : some p = some q := hs.parent_unique hp hq
    exact hne (Option.some.inj heq)
  have hnodup : (t.roots ++ (List.range t.size).flatMap t.children).Nodup := by
    rw [List.nodup_append]
    refine ⟨hroots, hchildren, ?_⟩
    rintro c hc _ hc' rfl
    obtain ⟨p, -, hp⟩ := List.mem_flatMap.1 hc'
    have heq : none = some p := hs.parent_unique hc hp
    exact nomatch heq
  rw [List.perm_ext_iff_of_nodup hnodup List.nodup_range]
  intro c
  rw [List.mem_append, List.mem_flatMap, List.mem_range]
  constructor
  · rintro (hc | ⟨p, -, hp⟩)
    · exact hs.lt_size (show c ∈ t.siblings none from hc)
    · exact hs.lt_size (show c ∈ t.siblings (some p) from hp)
  · intro hc
    obtain ⟨parent, hparent⟩ := hs.placed hc
    cases parent with
    | none => exact Or.inl hparent
    | some p =>
        have hp : p < t.size := Nat.lt_trans (hs.parent_lt hparent) hc
        exact Or.inr ⟨p, List.mem_range.2 hp, hparent⟩

/-- A row of a linked forest hangs below its parent and nowhere else. -/
theorem Linked.parent_eq_iff (hs : t.Shaped) (hl : t.Linked) {c : RowId} (hc : c < t.size)
    (parent : Option RowId) : (t.row c).parent = parent ↔ c ∈ t.siblings parent := by
  obtain ⟨path, hpath⟩ := exists_leads hs hc
  cases hpath with
  | @down _ above _ hup hid =>
      rw [hl.parent_eq hup hid]
      constructor
      · rintro rfl
        exact hid
      · exact hs.parent_unique hid

/-- **A linked forest in shape is consistent.** -/
theorem Shaped.consistent (hs : t.Shaped) (hl : t.Linked) : t.Consistent where
  increasing := hs.increasing
  once := hs.perm_range
  parent_iff := fun _ hc p => hl.parent_eq_iff hs hc (some p)
  root_iff := fun _ hc => hl.parent_eq_iff hs hc none

end CostTree

namespace TreeBuilder

/-- A call that a builder gets. -/
inductive Call
  | findOrInsert (parent : Option RowId) (location : Location)
  | charge (id : RowId) (cost : Cost)

/-- The rows that a call refers to. -/
def Call.uses : Call → List RowId
  | .findOrInsert parent _ => parent.toList
  | .charge id _ => [id]

/-- A builder with everything that was asked of it. -/
structure Session where
  builder : TreeBuilder := {}
  /-- The requests for a row at a location below a parent, each with the row that answered it. -/
  answers : List ((Option RowId × Location) × RowId) := []
  /-- The charges, each with the row that it went to. -/
  charged : List (RowId × Cost) := []

namespace Session

/-- The rows that were handed out. -/
def issued (s : Session) : List RowId := s.answers.map Prod.snd

/-- The requests that were made. -/
def requested (s : Session) : List (Option RowId × Location) := s.answers.map Prod.fst

/-- The costs that were charged to a row. -/
def chargedTo (s : Session) (id : RowId) : List Cost :=
  (s.charged.filter fun e => e.1 = id).map Prod.snd

/-- The session after one call more. -/
def call (s : Session) : Call → Session
  | .findOrInsert parent location =>
    let answer := s.builder.findOrInsert parent location
    { s with builder := answer.2, answers := s.answers ++ [((parent, location), answer.1)] }
  | .charge id cost =>
    { s with builder := s.builder.charge id cost, charged := s.charged ++ [(id, cost)] }

/-- Every call uses only rows that were handed out before it. -/
def Legal : Session → List Call → Prop
  | _, [] => True
  | s, call :: rest => (∀ id ∈ call.uses, id ∈ s.issued) ∧ Legal (s.call call) rest

instance decidableLegal : ∀ (s : Session) (calls : List Call), Decidable (s.Legal calls)
  | _, [] => isTrue trivial
  | s, call :: rest =>
    have := decidableLegal (s.call call) rest
    inferInstanceAs (Decidable ((∀ id ∈ call.uses, id ∈ s.issued) ∧ (s.call call).Legal rest))

/-- The answers given so far are the rows that there are, each below its parent and at its location,
    and a row costs what was charged to it. -/
structure Sound (s : Session) : Prop where
  shaped : s.builder.forest.Shaped
  answered_iff : ∀ parent location id, ((parent, location), id) ∈ s.answers ↔
    id ∈ s.builder.siblings parent ∧ (s.builder.row id).location = location
  cost : ∀ id, (s.builder.row id).cost = Cost.total (s.chargedTo id)

variable {s : Session} {parent : Option RowId} {location : Location}

/-- **The rows handed out are the rows that there are.** -/
theorem Sound.mem_issued_iff (h : s.Sound) {id : RowId} : id ∈ s.issued ↔ id < s.builder.size := by
  rw [issued, List.mem_map]
  constructor
  · rintro ⟨⟨⟨parent, location⟩, _⟩, hmem, rfl⟩
    exact h.shaped.lt_size ((h.answered_iff parent location _).1 hmem).1
  · intro hid
    obtain ⟨parent, hparent⟩ := h.shaped.placed (t := s.builder.forest) hid
    exact ⟨_, (h.answered_iff parent _ id).2 ⟨hparent, rfl⟩, rfl⟩

theorem Sound.mem_requested_iff (h : s.Sound) : (parent, location) ∈ s.requested ↔
    ∃ id ∈ s.builder.siblings parent, (s.builder.row id).location = location := by
  rw [requested, List.mem_map]
  constructor
  · rintro ⟨⟨_, id⟩, hmem, rfl⟩
    exact ⟨id, (h.answered_iff parent location id).1 hmem⟩
  · rintro ⟨id, hid⟩
    exact ⟨_, (h.answered_iff parent location id).2 hid, rfl⟩

theorem sound_empty : ({} : Session).Sound where
  shaped := holds_empty.shaped
  answered_iff := by
    intro parent location id
    constructor
    · exact fun h => nomatch h
    · rintro ⟨hid, -⟩
      exact absurd (holds_empty.shaped.lt_size (t := ({} : TreeBuilder).forest) hid)
        (Nat.not_lt_zero id)
  cost := fun id => by rw [row_of_size_le (Nat.zero_le id)]; rfl

theorem Sound.findOrInsert_of_answered (h : s.Sound) {id : RowId}
    (hanswer : ((parent, location), id) ∈ s.answers) :
    s.builder.findOrInsert parent location = (id, s.builder) := by
  obtain ⟨hid, hl⟩ := (h.answered_iff parent location id).1 hanswer
  rcases findOrInsert_cases s.builder parent location with ⟨k, hk, hkl, heq⟩ | ⟨hfresh, -⟩
  · -- siblings at one location are one row
    have hsame : k = id := h.shaped.sibling_unique hk hid (hkl.trans hl.symm)
    rw [heq, hsame]
  · exact absurd hl (hfresh id hid)

theorem Sound.findOrInsert_of_fresh (h : s.Sound) (hnew : (parent, location) ∉ s.requested) :
    s.builder.findOrInsert parent location = (s.builder.size, s.builder.insert parent location) := by
  rcases findOrInsert_cases s.builder parent location with ⟨id, hid, hl, -⟩ | ⟨-, heq⟩
  · exact absurd (h.mem_requested_iff.2 ⟨id, hid, hl⟩) hnew
  · exact heq

/-! ## Every call keeps a session sound -/

/-- **Asking for a row keeps a session sound.**  What was asked for before is answered as before
    and changes nothing; anything else is a location of its own below the parent, and gets the
    next number. -/
theorem Sound.findOrInsert (h : s.Sound) (hparent : ∀ p, parent = some p → p ∈ s.issued)
    (location : Location) : (s.call (.findOrInsert parent location)).Sound := by
  have hlt : ∀ p, parent = some p → p < s.builder.size :=
    fun p hp => h.mem_issued_iff.1 (hparent p hp)
  have hcall : s.call (.findOrInsert parent location)
      = { s with builder := (s.builder.findOrInsert parent location).2,
                 answers := s.answers ++
                  [((parent, location), (s.builder.findOrInsert parent location).1)] } := rfl
  by_cases hold : (parent, location) ∈ s.requested
  · obtain ⟨⟨_, k⟩, hanswer, rfl⟩ := List.mem_map.1 hold
    rw [hcall, h.findOrInsert_of_answered hanswer]
    refine ⟨h.shaped, ?_, h.cost⟩
    intro q l id
    rw [← h.answered_iff q l id, List.mem_append, List.mem_singleton]
    refine or_iff_left_of_imp ?_
    intro heq
    rw [heq]
    exact hanswer
  · have hfresh : ∀ id ∈ s.builder.siblings parent, (s.builder.row id).location ≠ location :=
      fun id hid hl => hold (h.mem_requested_iff.2 ⟨id, hid, hl⟩)
    rw [hcall, h.findOrInsert_of_fresh hold]
    refine ⟨shaped_insert h.shaped hlt hfresh, ?_, ?_⟩
    · intro q l id
      show _ ↔ id ∈ (s.builder.insert parent location).siblings q ∧
        ((s.builder.insert parent location).row id).location = l
      rw [List.mem_append, List.mem_singleton, h.answered_iff, mem_siblings_insert hlt,
        location_insert hlt]
      by_cases hid : id = s.builder.size
      · -- the new number was no sibling before
        subst hid
        have hnot : ∀ q, s.builder.size ∉ s.builder.siblings q :=
          fun q hq => Nat.lt_irrefl _ (h.shaped.lt_size (t := s.builder.forest) hq)
        simp [hnot, eq_comm]
      · simp [hid]
    · intro id
      show ((s.builder.insert parent location).row id).cost = _
      rw [cost_insert hlt, h.cost]
      rfl

/-- **Charging a row keeps a session sound**: the shape stays, and the cost of this one row is that of
    its charges with one more. -/
theorem Sound.charge (h : s.Sound) {id : RowId} (hid : id ∈ s.issued) (cost : Cost) :
    (s.call (.charge id cost)).Sound := by
  have hsame := sameShape_charge s.builder id cost
  refine ⟨hsame.shaped h.shaped, ?_, ?_⟩
  · intro q l k
    rw [show (s.call (.charge id cost)).answers = s.answers from rfl, h.answered_iff]
    have hsiblings := hsame.siblings q
    have hlocation := hsame.location k
    rw [siblings_forest, siblings_forest] at hsiblings
    rw [locationAt_forest, locationAt_forest] at hlocation
    show _ ↔ k ∈ (s.builder.charge id cost).siblings q ∧
      ((s.builder.charge id cost).row k).location = l
    rw [hsiblings, hlocation]
  · intro k
    show ((s.builder.charge id cost).row k).cost = _
    rw [cost_charge (h.mem_issued_iff.1 hid), h.cost,
      show (s.call (.charge id cost)).chargedTo k
        = ((s.charged ++ [(id, cost)]).filter fun e => e.1 = k).map Prod.snd from rfl,
      List.filter_append, List.map_append]
    by_cases hk : k = id
    · subst hk
      simp [chargedTo, Cost.total, List.foldl_append]
    · simp [hk, chargedTo, Ne.symm hk]

/-- **Every call keeps a session sound**, if it uses only rows that were handed out.  The two kinds of
    calls that change a builder are the two cases of `Growth`. -/
theorem sound_call (h : s.Sound) (call : Call) (huses : ∀ id ∈ call.uses, id ∈ s.issued) :
    (s.call call).Sound := by
  cases call with
  | findOrInsert parent location =>
      refine h.findOrInsert ?_ location
      rintro p rfl
      exact huses p (List.mem_singleton_self p)
  | charge id cost => exact h.charge (huses id (List.mem_singleton_self id)) cost

/-- **Every legal session is sound.**  By induction on the calls, since each of them may use what the
    ones before handed out. -/
theorem sound_calls (h : s.Sound) {calls : List Call} (hlegal : s.Legal calls) :
    (calls.foldl Session.call s).Sound := by
  induction calls generalizing s with
  | nil => exact h
  | cons call rest ih => exact ih (sound_call h call hlegal.1) hlegal.2

/-! ## What a legal session amounts to -/

/-- How a session answers its next request.  Siblings increase, so looking up by halving finds the
    answer.  A request that was made before is answered as it was then, and nothing changes.  Any
    other one gets a row that was not handed out before: it has the next number, the location asked
    for and no cost, and all other rows keep their locations and costs. -/
structure Answers (s : Session) (parent : Option RowId) (location : Location) : Prop where
  halving : s.builder.findOrInsertByHalving parent location = s.builder.findOrInsert parent location
  issued_iff : (s.builder.findOrInsert parent location).1 ∈ s.issued ↔
    (parent, location) ∈ s.requested
  again : ∀ id, ((parent, location), id) ∈ s.answers →
    s.builder.findOrInsert parent location = (id, s.builder)
  fresh : (parent, location) ∉ s.requested → ∃ grown,
    s.builder.findOrInsert parent location = (s.builder.size, grown) ∧
      grown.size = s.builder.size + 1 ∧
      (grown.row s.builder.size).location = location ∧ (grown.row s.builder.size).cost = 0 ∧
      ∀ k, k ≠ s.builder.size → (grown.row k).location = (s.builder.row k).location ∧
        (grown.row k).cost = (s.builder.row k).cost

/-- **A sound session answers** an old row if and only if it was asked for that very row before, and it
    comes to its answer by halving as well as by going through the siblings. -/
theorem sound_answers (h : s.Sound) (hparent : ∀ p, parent = some p → p ∈ s.issued)
    (location : Location) : s.Answers parent location := by
  have hlt : ∀ p, parent = some p → p < s.builder.size :=
    fun p hp => h.mem_issued_iff.1 (hparent p hp)
  constructor
  case halving => exact findOrInsertByHalving_eq h.shaped hlt location
  case issued_iff =>
    by_cases hold : (parent, location) ∈ s.requested
    · obtain ⟨⟨_, id⟩, hanswer, rfl⟩ := List.mem_map.1 hold
      rw [h.findOrInsert_of_answered hanswer]
      exact iff_of_true (List.mem_map_of_mem hanswer) hold
    · rw [h.findOrInsert_of_fresh hold, h.mem_issued_iff]
      exact iff_of_false (Nat.lt_irrefl _) hold
  case again => exact fun _ hanswer => h.findOrInsert_of_answered hanswer
  case fresh =>
    intro hnew
    refine ⟨_, h.findOrInsert_of_fresh hnew, size_insert _ _ _, ?_, ?_, ?_⟩
    · rw [location_insert hlt, if_pos rfl]
    · rw [cost_insert hlt, row_of_size_le (Nat.le_refl _)]
      rfl
    · intro k hk
      rw [location_insert hlt, if_neg hk, cost_insert hlt]
      exact ⟨rfl, rfl⟩

end Session

/-- **Legal calls build a forest.**  After any calls that use only rows handed out before, the next
    request is answered by an old row if and only if it was made before, and otherwise by exactly
    one new row.  The builder can be finished, sibling lists and parent links of the finished tree
    agree, every request's row stands below its parent at its location, and a row costs the
    saturating sum of what was charged to it. -/
theorem calls_build_forest {calls : List Call} (hlegal : Session.Legal {} calls) :
    let s := calls.foldl Session.call {}
    (∀ parent location, (∀ p, parent = some p → p ∈ s.issued) → s.Answers parent location) ∧
      ∃ t, s.builder.finish = .ok t ∧ t.Consistent ∧ (∀ id, id < t.size ↔ id ∈ s.issued) ∧
        (∀ parent location id, ((parent, location), id) ∈ s.answers →
          (t.row id).parent = parent ∧ (t.row id).location = location) ∧
        ∀ id < t.size, ∀ f, ((t.row id).cost.get f).toNat
          = min (Cost.amount f (s.chargedTo id)) wordMax := by
  intro s
  have h : s.Sound := Session.sound_calls Session.sound_empty hlegal
  obtain ⟨t, ht⟩ := exists_finish h.shaped
  have hsame := sameShape_finish ht
  have hs := hsame.shaped h.shaped
  have hl := finish_linked ht
  have hsize : t.size = s.builder.size := hsame.size
  refine ⟨fun parent location hparent => Session.sound_answers h hparent location, t, ht,
    hs.consistent hl, ?_, ?_, ?_⟩
  · intro id
    rw [hsize, h.mem_issued_iff]
  · intro parent location id hanswer
    obtain ⟨hid, hlocation⟩ := (h.answered_iff parent location id).1 hanswer
    have hid' : id ∈ t.siblings parent := by
      rw [hsame.siblings]
      exact hid
    exact ⟨(hl.parent_eq_iff hs (hs.lt_size hid') parent).2 hid', (hsame.location id).trans hlocation⟩
  · intro id _ f
    rw [cost_finish ht, h.cost, Cost.toNat_total]

/-- Calls that insert before, behind and below others, ask again, and charge more than fits. -/
def sampleCalls : List Call :=
  [.findOrInsert none { function := "work" }, .findOrInsert none { function := "main" },
    .findOrInsert (some 0) { function := "main", line := 7 },
    .charge 0 { allocated := UInt64.largest }, .charge 0 { allocations := 2, allocated := 5 },
    .findOrInsert none { function := "work", line := 3 }, .findOrInsert none { function := "main" },
    .findOrInsert (some 0) { function := "main", line := 4 }, .charge 3 { peak := 1 }]

theorem calls_build_forest_sample :
    Session.Legal {} sampleCalls ∧
      ∃ t, (sampleCalls.foldl Session.call {}).builder.finish = .ok t ∧ t.Consistent ∧
        ∀ id < t.size, ∀ f, ((t.row id).cost.get f).toNat = min (Cost.amount f
          ((sampleCalls.foldl Session.call {}).chargedTo id)) wordMax := by
  have hlegal : Session.Legal {} sampleCalls := by decide +kernel
  obtain ⟨-, t, ht, hconsistent, -, -, hcost⟩ := calls_build_forest hlegal
  exact ⟨hlegal, t, ht, hconsistent, hcost⟩

end TreeBuilder

end HeapProfile
