import HeapProfile.Event.Text
import HeapProfile.Proofs.Decoding

/-!
# Telling — the objects and the sequences that tell an event

An event is told by an object that has its kind, under any name of the kind, and its fields.  The order of
the members does not matter, and members of other names may stand among them.  A field that may be left out is
told by its absence if it is zero.  An event is told as well by the sequence of its kind and its fields in
order, where fields may be left out at the end.  Decoding finds the event in all of these: a sequence is noted
like the object of the fields that are there, so both forms come down to one lemma about the fields.

* **`EventKind.yields_of_tells`** — the fields of an event are decoded from members that tell them;
* **`EventKind.ofMembers_of_tagged`** — the kind is found wherever it stands;
* **`Event.ask_of_told`** and **`Event.ask_of_listed`** — an event is decoded from whatever tells it.
-/

namespace HeapProfile

open Json

/-! ## Kinds and fields -/

namespace EventKind

/-- The names of a kind: the one that is written, and for some kinds a second one that is read as well. -/
def names : EventKind → List String
  | alloc => ["alloc", "allocation"]
  | free => ["free", "deallocation"]
  | timestamp => ["timestamp", "time_stamp"]
  | kind => [kind.name]

/-- The names of the fields that may be left out if they are zero. -/
def optional : EventKind → List String
  | ip => ["function", "file", "module", "line"]
  | trace => ["parent"]
  | _ => []

/-- A kind can be told by the name that it is printed with. -/
theorem name_mem_names (kind : EventKind) : kind.name ∈ kind.names := by
  cases kind <;> exact List.mem_cons_self

/-- Every name of a kind tells this kind and no other. -/
theorem ofName?_of_mem {kind : EventKind} {name : String} (h : name ∈ kind.names) :
    ofName? name = some kind := by
  cases kind <;> simp only [names, EventKind.name, List.mem_cons, List.not_mem_nil, or_false] at h
  case alloc | free | timestamp => rcases h with rfl | rfl <;> rfl
  all_goals subst h; rfl

/-- The fields that may be left out are those with a default, kind by kind. -/
theorem defaulted_fields (kind : EventKind) : kind.fields.defaulted = kind.optional := by
  cases kind <;> rfl

/-- No two members of the document of an event have the same name. -/
theorem nodup_fields (kind : EventKind) : (tag :: kind.fields.names).Nodup := by
  cases kind <;> decide

variable {room : Nat} {r : Reading}

/-- A kind is known by any of its names. -/
theorem ask_of_value {kind : EventKind} {name : String} (hname : name ∈ kind.names)
    (h : r.value room = .ok (.string name)) : EventKind.ask r = .ok kind := by
  obtain ⟨span, lexeme, rfl, hs⟩ := exists_text_of_value h
  simp only [EventKind.ask, hs, bind, Except.bind, ofName?_of_mem hname, pure, Except.pure]

/-- The raw number of an index is decoded as the index, whichever table it points into. -/
theorem index_of_value {kind : Interned} {i : Index kind} (h : r.value room = .ok (.word32 i.raw)) :
    EventKind.index r = .ok i := by
  rw [EventKind.index, word32_of_value h]
  rfl

end EventKind

/-- The fields that are decoded for an event are those that it is told with, in the same order. -/
theorem Event.names_fields (e : Event) : e.kind.fields.names = e.members.map Prod.fst := by
  cases e <;> rfl

/-! ## Told fields -/

namespace EventKind

/-- How a field is told by the members of an object: by the one member of its name, or, if it may be left out
and is zero, by none. -/
def Tells (kind : EventKind) (members : List (String × Value)) (field : String × Value) : Prop :=
  under field.1 members = [field] ∨
    (field.1 ∈ kind.optional ∧ field.2 = .word32 0 ∧ under field.1 members = [])

section

variable {α : Type} {room : Nat} {kind : EventKind} {members : List (String × Value)}
  {named : List (Key × Reading)} {name : String} {v : Value} {ask : Decoder α} {answer : α}

/-- A field that must be there is decoded from the one member of its name. -/
theorem yields_required (h : AcceptedMembers room members named) (htold : kind.Tells members (name, v))
    (hrequired : name ∉ kind.optional) (hask : ∀ r, r.value room = .ok v → ask r = .ok answer) :
    (Fields.required name ask).Yields named answer :=
  Fields.yields_required h (htold.resolve_right fun habsent => hrequired habsent.1) hask

/-- A field that may be left out has a default, which is what zero stands for. -/
theorem yields_withDefault {default : α} (h : AcceptedMembers room members named)
    (htold : kind.Tells members (name, v)) (hzero : v = .word32 0 → answer = default)
    (hask : ∀ r, r.value room = .ok v → ask r = .ok answer) :
    (Fields.withDefault name default ask).Yields named answer := by
  rcases htold with honce | ⟨-, hv, hnone⟩
  · exact Fields.yields_withDefault default h honce hask
  · rw [hzero hv]
    exact Fields.yields_of_absent default h hnone

/-- A short word is told by its absence only if it is zero. -/
theorem eq_zero_of_word32 {n : UInt32} (h : Value.word32 n = .word32 0) : n = 0 :=
  UInt32.toUInt64_inj.1 (Number.whole.inj (Value.number.inj h))

/-- A field with an index is decoded from its member, and from its absence if the index is the first. -/
theorem yields_index {table : Interned} {i : Index table} (h : AcceptedMembers room members named)
    (htold : kind.Tells members (name, .word32 i.raw)) :
    (Fields.withDefault name {} index).Yields named i :=
  yields_withDefault h htold (fun hzero => congrArg Index.mk (eq_zero_of_word32 hzero))
    fun _ => index_of_value

/-- Allocations and frees have the same fields, and none of them may be left out. -/
theorem yields_sizeFields {path : TraceIndex} {size : UInt64} (h : AcceptedMembers room members named)
    (hpath : kind.Tells members ("trace", .word32 path.raw))
    (hsize : kind.Tells members ("size", .word size)) (hall : kind.optional = []) :
    sizeFields.Yields named (path, size) := by
  have hrequired (name : String) : name ∉ kind.optional := by
    rw [hall]
    exact List.not_mem_nil
  exact (yields_required h hpath (hrequired _) fun _ => index_of_value).and (by decide)
    (yields_required h hsize (hrequired _) fun _ => word_of_value)

end

/-- **The fields of an event are decoded** from members that tell them, kind by kind: each field is one
    of a few forms, and the lemmas above are about these. -/
theorem yields_of_tells {room : Nat} (e : Event) {members : List (String × Value)}
    {named : List (Key × Reading)} (h : AcceptedMembers room members named)
    (htold : ∀ field ∈ e.members, e.kind.Tells members field) : e.kind.fields.Yields named e := by
  cases e <;> simp only [Event.kind, Event.members, List.forall_mem_cons] at htold
  case string value =>
    exact (yields_required h htold.1 (by decide) fun _ => text_of_value).map Event.string
  case ip site =>
    obtain ⟨haddress, hfunction, hfile, hmodule, hline, -⟩ := htold
    have hfields := (yields_required h haddress (by decide) fun _ => word_of_value).and (by decide)
      ((yields_index h hfunction).and (by decide)
        ((yields_index h hfile).and (by decide)
          ((yields_index h hmodule).and (by decide)
            (yields_withDefault h hline eq_zero_of_word32 fun _ => word32_of_value))))
    exact (hfields.map _).map Event.ip
  case trace node =>
    obtain ⟨hsite, hparent, -⟩ := htold
    have hfields := (yields_required h hsite (by decide) fun _ => index_of_value).and (by decide)
      (yields_index h hparent)
    exact (hfields.map _).map Event.trace
  case alloc path size =>
    obtain ⟨hpath, hsize, -⟩ := htold
    exact (yields_sizeFields h hpath hsize rfl).map _
  case free path size =>
    obtain ⟨hpath, hsize, -⟩ := htold
    exact (yields_sizeFields h hpath hsize rfl).map _
  case timestamp stamp =>
    exact (yields_required h htold.1 (by decide) fun _ => word_of_value).map Event.timestamp
  case debuggee command =>
    exact (yields_required h htold.1 (by decide) fun _ => text_of_value).map Event.debuggee

end EventKind

/-! ## The kind among the members -/

namespace EventKind

/-- The members of other names than the one of the kind. -/
def untagged (members : List (String × Value)) : List (String × Value) :=
  members.filter fun member => member.1 != tag

/-- Dropping the members that tell the kind drops no other ones. -/
theorem under_untagged {name : String} (hname : name ≠ tag) (members : List (String × Value)) :
    under name (untagged members) = under name members := by
  rw [under, untagged, List.filter_filter]
  refine List.filter_congr fun member _ => ?_
  rw [Bool.and_eq_left_iff_imp, beq_iff_eq, bne_iff_ne]
  rintro rfl
  exact hname

/-- A member that tells the kind is dropped. -/
theorem untagged_cons_tag (v : Value) (members : List (String × Value)) :
    untagged ((tag, v) :: members) = untagged members :=
  List.filter_cons_of_neg fun hne => bne_iff_ne.1 hne rfl

/-- Every other member is kept, in its place. -/
theorem untagged_cons_of_ne {member : String × Value} (hne : member.1 ≠ tag)
    (members : List (String × Value)) : untagged (member :: members) = member :: untagged members :=
  List.filter_cons_of_pos (bne_iff_ne.2 hne)

/-- Without such members nothing is dropped. -/
theorem untagged_eq_self {members : List (String × Value)} (h : under tag members = []) :
    untagged members = members :=
  List.filter_eq_self.2 fun member hmem =>
    bne_iff_ne.2 fun heq => List.filter_eq_nil_iff.1 h member hmem (beq_iff_eq.2 heq)

section

variable {members : List (String × Value)} {named : List (Key × Reading)} {key : Key} {item : Reading}

/-- A member of another name than that of the kind is set aside for later, and the search for the kind
    goes on behind it. -/
theorem ofMembers_of_ne {name : String} {v : Value} (hkey : key.text.value = .ok name) (hne : name ≠ tag)
    (hitem : item.value fieldDepth = .ok v) (kind? : Option EventKind) (kept : List (Key × Reading)) :
    EventKind.ofMembers kind? kept ((key, item) :: named)
      = EventKind.ofMembers kind? ((key, item) :: kept) named := by
  rw [EventKind.ofMembers, hkey]
  show (if name = tag then _ else item.value fieldDepth >>= fun _ =>
    EventKind.ofMembers kind? ((key, item) :: kept) named) = _
  rw [if_neg hne, hitem]
  rfl

/-- Members of other names than the one of the kind are kept as they are. -/
theorem ofMembers_of_untagged (h : AcceptedMembers fieldDepth members named) (hother : under tag members = [])
    (kind? : Option EventKind) (kept : List (Key × Reading)) :
    EventKind.ofMembers kind? kept named = .ok (kind?, kept.reverse ++ named) := by
  induction h generalizing kept with
  | nil => rw [EventKind.ofMembers, List.append_nil]
  | @cons member m members named hm _ ih =>
      obtain ⟨key, item⟩ := m
      obtain ⟨hkey, -, hitem⟩ := hm
      obtain ⟨hne, hother⟩ := under_cons_eq_nil.1 hother
      rw [ofMembers_of_ne hkey hne hitem, ih hother, List.reverse_cons, List.append_assoc]
      rfl

/-- **The kind is found wherever it stands,** and the other members are kept.  Before it they are set
    aside, behind it they are left where they are. -/
theorem ofMembers_of_tagged {kind : EventKind} {name : String} (h : AcceptedMembers fieldDepth members named)
    (htag : under tag members = [(tag, .string name)]) (hname : name ∈ kind.names)
    (kept : List (Key × Reading)) :
    ∃ others, EventKind.ofMembers none kept named = .ok (some kind, kept.reverse ++ others) ∧
      AcceptedMembers fieldDepth (untagged members) others := by
  induction h generalizing kept with
  | nil => exact nomatch htag
  | @cons member m members named hm hrest ih =>
      obtain ⟨key, item⟩ := m
      obtain ⟨hkey, hcomplaint, hitem⟩ := hm
      by_cases heq : member.1 = tag
      · -- the one member of the kind: all behind it are kept as they are
        obtain ⟨_, v⟩ := member
        obtain rfl : _ = tag := heq
        rw [under_cons_self, List.cons.injEq, Prod.mk.injEq] at htag
        obtain ⟨⟨-, rfl⟩, hother⟩ := htag
        refine ⟨named, ?_, ?_⟩
        · rw [EventKind.ofMembers, hkey]
          show (EventKind.ask item >>= fun kind => EventKind.ofMembers (some kind) kept named) = _
          rw [ask_of_value hname hitem]
          exact ofMembers_of_untagged hrest hother _ _
        · rw [untagged_cons_tag, untagged_eq_self hother]
          exact hrest
      · rw [under_cons_of_ne heq] at htag
        obtain ⟨others, hothers, haccepted⟩ := ih htag ((key, item) :: kept)
        refine ⟨(key, item) :: others, ?_, ?_⟩
        · rw [ofMembers_of_ne hkey heq hitem, hothers, List.reverse_cons, List.append_assoc]
          rfl
        · rw [untagged_cons_of_ne heq]
          exact .cons ⟨hkey, hcomplaint, hitem⟩ haccepted

end

end EventKind

/-! ## Told events -/

namespace Event

open EventKind

/-- How the members of an object tell an event: one of them tells the kind, and each field is told. -/
structure ToldBy (e : Event) (members : List (String × Value)) : Prop where
  kind : ∃ name ∈ e.kind.names, under tag members = [(tag, .string name)]
  fields : ∀ field ∈ e.members, e.kind.Tells members field

/-- How the elements of a sequence tell an event: the kind comes first, then the fields in order, of which
some may be left out at the end. -/
def ListedBy (e : Event) (items : List Value) : Prop :=
  ∃ name ∈ e.kind.names, ∃ told left, e.members = told ++ left ∧
    (∀ field ∈ left, field.1 ∈ e.kind.optional ∧ field.2 = .word32 0) ∧
    items = .string name :: told.map Prod.snd

variable {e : Event}

/-- Fields are told by those that are not left out. -/
theorem tells_of_append {told left : List (String × Value)} (hfields : e.members = told ++ left)
    (hleft : ∀ field ∈ left, field.1 ∈ e.kind.optional ∧ field.2 = .word32 0) :
    ∀ field ∈ e.members, e.kind.Tells told field := by
  have hnodup : (told.map Prod.fst ++ left.map Prod.fst).Nodup := by
    rw [← List.map_append, ← hfields, ← e.names_fields]
    exact (List.nodup_cons.1 e.kind.nodup_fields).2
  obtain ⟨htold, -, hdisjoint⟩ := List.nodup_append.1 hnodup
  intro field hfield
  rw [hfields, List.mem_append] at hfield
  rcases hfield with hin | hin
  · exact Or.inl (under_of_nodup htold hin)
  · obtain ⟨hoptional, hzero⟩ := hleft field hin
    refine Or.inr ⟨hoptional, hzero, under_eq_nil fun htwice => ?_⟩
    exact hdisjoint _ htwice _ (List.mem_map_of_mem hin) rfl

/-- The document of an event tells it. -/
theorem toldBy_members (e : Event) : e.ToldBy ((tag, .string e.kind.name) :: e.members) := by
  have hnodup : (((tag, .string e.kind.name) :: e.members).map Prod.fst).Nodup := by
    rw [List.map_cons, ← e.names_fields]
    exact e.kind.nodup_fields
  refine ⟨⟨_, e.kind.name_mem_names, under_of_nodup hnodup List.mem_cons_self⟩, fun field hfield => ?_⟩
  exact Or.inl (under_of_nodup hnodup (List.mem_cons_of_mem _ hfield))

/-- **An event is decoded from an object** whose members tell it: the kind is looked for first, and then
    the fields of that kind among the other members. -/
theorem ask_of_told {members : List (String × Value)} {named : List (Key × Reading)}
    (h : AcceptedMembers fieldDepth members named) (htold : e.ToldBy members) (start place : Place) :
    ask (.object start named (.found place)) = .ok e := by
  obtain ⟨⟨name, hname, htag⟩, hfields⟩ := htold
  obtain ⟨others, hothers, haccepted⟩ := ofMembers_of_tagged h htag hname []
  have hyields : e.kind.fields.Yields others e := by
    refine yields_of_tells e haccepted fun field hfield => ?_
    have hne : field.1 ≠ tag := by
      intro htwice
      refine (List.nodup_cons.1 e.kind.nodup_fields).1 ?_
      rw [e.names_fields, ← htwice]
      exact List.mem_map_of_mem hfield
    rw [EventKind.Tells, under_untagged hne]
    exact hfields field hfield
  rw [ask, hothers]
  exact hyields.object place

/-- Elements are the values of fields as members are. -/
theorem exists_asMembers {room : Nat} {told : List (String × Value)} {items : List Reading}
    (h : List.Forall₂ (Accepted room) (told.map Prod.snd) items) :
    ∃ pairs : List (String × Reading), pairs.map Prod.fst = told.map Prod.fst ∧
      pairs.map Prod.snd = items ∧ AcceptedMembers room told (Fields.asMembers pairs) := by
  induction told generalizing items with
  | nil =>
      cases h
      exact ⟨[], rfl, rfl, .nil⟩
  | cons field told ih =>
      cases h with
      | @cons _ item _ items hitem hrest =>
          obtain ⟨pairs, hnames, hitems, haccepted⟩ := ih hrest
          refine ⟨(field.1, item) :: pairs, ?_, ?_, .cons ⟨rfl, hitem⟩ haccepted⟩
          · rw [List.map_cons, List.map_cons, hnames]
          · rw [List.map_cons, hitems]

/-- **An event is decoded from a sequence** whose elements tell it.  The elements are taken as the
    members of the fields in order, and fields that are left out at the end have their defaults. -/
theorem ask_of_listed {items : List Value} {found : List Reading}
    (h : List.Forall₂ (Accepted fieldDepth) items found) (hlisted : e.ListedBy items) (start place : Place) :
    ask (.array start found (.found place)) = .ok e := by
  obtain ⟨name, hname, told, left, hfields, hleft, rfl⟩ := hlisted
  cases h with
  | @cons _ first _ found hfirst hrest =>
      obtain ⟨pairs, hnames, rfl, haccepted⟩ := exists_asMembers hrest
      obtain ⟨noted, hnoted, hclose⟩ := yields_of_tells e haccepted (tells_of_append hfields hleft)
      have hall : e.kind.fields.names = pairs.map Prod.fst ++ left.map Prod.fst := by
        rw [hnames, ← List.map_append, ← hfields, e.names_fields]
      have hknown : ∀ t ∈ pairs, t.1 ∈ e.kind.fields.names := by
        rw [hall]
        exact fun t ht => List.mem_append_left _ (List.mem_map_of_mem ht)
      have hdefaulted : ∀ name ∈ left.map Prod.fst, name ∈ e.kind.fields.defaulted := by
        rw [defaulted_fields]
        exact List.forall_mem_map.2 fun field hfield => (hleft field hfield).1
      rw [ask, ask_of_value hname hfirst.2, itemValues_of_accepted hrest]
      show EventKind.ofItems e.kind _ place = _
      rw [EventKind.ofItems, hall, Fields.ofItems_of_ofMembers _ _ hknown hdefaulted hnoted]
      show (noticedAt place (e.kind.fields.close noted) >>= fun event => _) = _
      rw [hclose]
      rfl

end Event

end HeapProfile
