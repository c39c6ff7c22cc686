import HeapProfile.Json.Decoder
import HeapProfile.Proofs.Documents
import HeapProfile.Proofs.Linking

/-!
# Decoding — records from objects, field by field

A record of several fields is decoded as its fields are, each on its own: the members of other names
are passed over.  So it is enough to know of every field that one member has its name, wherever that
member stands and whatever stands beside it.

* **`Fields.Yields`** — a record is made from some members;
* **`Fields.Yields.and`** — fields of different names are decoded side by side;
* **`Fields.yields_required`** and **`Fields.yields_withDefault`** — a field is decoded from the one
  member of its name.
-/

namespace HeapProfile.Json

/-- What is found in the members of an object. -/
def HoldsMembers (room : Nat) (members : List (String × Value)) (named : List (Key × Reading)) : Prop :=
  List.Forall₂ (fun member m => m.1.Spells member.1 ∧ Holds room member.2 m.2) members named

/-- What is known of the members of an object: the name of each, and something of its value, with nothing to
complain about. -/
def Shows (found : Value → Reading → Prop) (members : List (String × Value))
    (named : List (Key × Reading)) : Prop :=
  List.Forall₂ (fun member m => m.1.text.value = .ok member.1 ∧ m.2.complaint? = none ∧ found member.2 m.2)
    members named

/-- A value was found with brackets no deeper than the given number, and nothing is complained about. -/
def Accepted (room : Nat) (v : Value) (r : Reading) : Prop :=
  r.complaint? = none ∧ r.value room = .ok v

/-- What holds a document is accepted as that document. -/
theorem accepted_of_holds {room : Nat} {v : Value} {r : Reading} (h : Holds room v r) : Accepted room v r :=
  ⟨complaint?_of_holds h, value_of_holds h⟩

/-- Members with these names were found, and their values are accepted. -/
abbrev AcceptedMembers (room : Nat) : List (String × Value) → List (Key × Reading) → Prop :=
  Shows fun v r => r.value room = .ok v

/-- Members that hold values are members of which everything needed for decoding is known: their names
    can be read, and nothing about them is complained about. -/
theorem HoldsMembers.shows {room : Nat} {members : List (String × Value)} {named : List (Key × Reading)}
    (h : HoldsMembers room members named) : Shows (Holds room) members named :=
  h.imp fun _ _ hm => ⟨congrArg Lexeme.value hm.1.text, complaint?_of_holds hm.2, hm.2⟩

/-- Members that hold values are accepted as these values, so an object that holds them is accepted as a
    whole. -/
theorem HoldsMembers.accepted {room : Nat} {members : List (String × Value)} {named : List (Key × Reading)}
    (h : HoldsMembers room members named) : AcceptedMembers room members named :=
  h.shows.imp fun _ _ hm => ⟨hm.1, accepted_of_holds hm.2.2⟩

/-! ## Values -/

/-- An answer that was changed afterwards succeeded before it was.  The inversions below peel a reading
    apart with it. -/
theorem map_eq_ok {ε α β : Type} {f : α → β} {answer : Except ε α} {b : β} (h : answer.map f = .ok b) :
    ∃ a, answer = .ok a ∧ f a = b := by
  cases answer with
  | error _ => exact nomatch h
  | ok a => exact ⟨a, rfl, Except.ok.inj h⟩

section

variable {room : Nat} {v : Value} {start : Place} {r : Reading}

/-- **What an accepted sequence consists of**: there is a bracket to spare for it, every item is
    accepted below that bracket, and the sequence was closed. -/
theorem value_array_ok {items : List Reading} {closing : Lexeme Place}
    (h : (Reading.array start items closing).value room = .ok v) :
    ∃ inside values place, room = inside + 1 ∧ Reading.itemValues inside items = .ok values ∧
      closing.value = .ok place ∧ v = .array values := by
  cases room with
  | zero => exact nomatch h
  | succ inside =>
      rw [Reading.value] at h
      obtain ⟨values, hvalues, h⟩ := bind_eq_ok.1 h
      obtain ⟨place, hplace, h⟩ := bind_eq_ok.1 h
      cases h
      exact ⟨inside, values, place, rfl, hvalues, hplace, rfl⟩

/-- **What an accepted object consists of**: there is a bracket to spare for it, every member is
    accepted below that bracket, and the object was closed. -/
theorem value_object_ok {members : List (Key × Reading)} {closing : Lexeme Place}
    (h : (Reading.object start members closing).value room = .ok v) :
    ∃ inside values place, room = inside + 1 ∧ Reading.memberValues inside members = .ok values ∧
      closing.value = .ok place ∧ v = .object values := by
  cases room with
  | zero => exact nomatch h
  | succ inside =>
      rw [Reading.value] at h
      obtain ⟨values, hvalues, h⟩ := bind_eq_ok.1 h
      obtain ⟨place, hplace, h⟩ := bind_eq_ok.1 h
      cases h
      exact ⟨inside, values, place, rfl, hvalues, hplace, rfl⟩

/-- An accepted text is the string of its lexeme. -/
theorem value_text_ok {span : Span} {lexeme : Lexeme String}
    (h : (Reading.text span lexeme).value room = .ok v) : ∃ s, lexeme.value = .ok s ∧ v = .string s := by
  have hvalue : lexeme.value.map Value.string = .ok v := by cases room <;> exact h
  obtain ⟨s, hs, hv⟩ := map_eq_ok hvalue
  exact ⟨s, hs, hv.symm⟩

/-- An accepted number is the number of its lexeme. -/
theorem value_number_ok {span : Span} {lexeme : Lexeme Number}
    (h : (Reading.number span lexeme).value room = .ok v) : ∃ n, lexeme.value = .ok n ∧ v = .number n := by
  have hvalue : lexeme.value.map Value.number = .ok v := by cases room <;> exact h
  obtain ⟨n, hn, hv⟩ := map_eq_ok hvalue
  exact ⟨n, hn, hv.symm⟩

/-- What was broken off in the middle is accepted as no value. -/
theorem value_broken {complaint : Complaint} : (Reading.broken start complaint).value room ≠ .ok v := by
  cases room <;> exact fun h => nomatch h

/-- Items that are accepted one by one are accepted together, as the list of their values. -/
theorem itemValues_of_accepted {values : List Value} {found : List Reading}
    (h : List.Forall₂ (Accepted room) values found) : Reading.itemValues room found = .ok values := by
  induction h with
  | nil => rfl
  | cons hitem _ ih =>
      rw [Reading.itemValues, hitem.2, ih]
      rfl

/-- Members that are accepted one by one are accepted together, under the names of their keys. -/
theorem memberValues_of_accepted {members : List (String × Value)} {named : List (Key × Reading)}
    (h : AcceptedMembers room members named) : Reading.memberValues room named = .ok members := by
  induction h with
  | nil => rfl
  | cons hmember _ ih =>
      rw [Reading.memberValues, hmember.1, hmember.2.2, ih]
      rfl

/-! ## Scalars -/

/-- What has a string as its value is that string between quotes. -/
theorem exists_text_of_value {s : String} (h : r.value room = .ok (.string s)) :
    ∃ span lexeme, r = .text span lexeme ∧ lexeme.value = .ok s := by
  cases r with
  | text span lexeme =>
      obtain ⟨_, hs, heq⟩ := value_text_ok h
      cases heq
      exact ⟨span, lexeme, rfl, hs⟩
  | null | bool => cases room <;> exact nomatch h
  | number => obtain ⟨_, -, heq⟩ := value_number_ok h; exact nomatch heq
  | array => obtain ⟨_, _, _, -, -, -, heq⟩ := value_array_ok h; exact nomatch heq
  | object => obtain ⟨_, _, _, -, -, -, heq⟩ := value_object_ok h; exact nomatch heq
  | broken => exact absurd h value_broken

/-- What has a number as its value is that number. -/
theorem exists_number_of_value {n : Number} (h : r.value room = .ok (.number n)) :
    ∃ span lexeme, r = .number span lexeme ∧ lexeme.value = .ok n := by
  cases r with
  | number span lexeme =>
      obtain ⟨_, hn, heq⟩ := value_number_ok h
      cases heq
      exact ⟨span, lexeme, rfl, hn⟩
  | null | bool => cases room <;> exact nomatch h
  | text => obtain ⟨_, -, heq⟩ := value_text_ok h; exact nomatch heq
  | array => obtain ⟨_, _, _, -, -, -, heq⟩ := value_array_ok h; exact nomatch heq
  | object => obtain ⟨_, _, _, -, -, -, heq⟩ := value_object_ok h; exact nomatch heq
  | broken => exact absurd h value_broken

/-- What is accepted as a string is decoded as this string, whichever document it was found in. -/
theorem text_of_value {s : String} (h : r.value room = .ok (.string s)) : Decoder.text r = .ok s := by
  obtain ⟨span, lexeme, rfl, hs⟩ := exists_text_of_value h
  exact hs

/-- A whole number is decoded if it is within the limit. -/
theorem whole_of_value {n : UInt64} {limit : Nat} {expected : String} (hlimit : n.toNat ≤ limit)
    (h : r.value room = .ok (.word n)) : Decoder.whole limit expected r = .ok n.toNat := by
  obtain ⟨span, lexeme, rfl, hn⟩ := exists_number_of_value h
  rw [Decoder.whole, Decoder.wholeAt, hn]
  show noticedAt span.stop (if n.toNat ≤ limit then _ else _) = _
  rw [if_pos hlimit]
  rfl

/-- What is accepted as a word is decoded as this word, since no word is beyond the limit of words. -/
theorem word_of_value {n : UInt64} (h : r.value room = .ok (.word n)) : Decoder.word r = .ok n := by
  have hlimit : n.toNat ≤ UInt64.size - 1 := Nat.le_pred_of_lt n.toNat_lt
  rw [Decoder.word, whole_of_value hlimit h]
  exact congrArg _ UInt64.ofNat_toNat

/-- What is accepted as a short word is decoded as this one.  The limit is lower here, and a short
    word keeps it. -/
theorem word32_of_value {n : UInt32} (h : r.value room = .ok (.word32 n)) : Decoder.word32 r = .ok n := by
  have hlimit : n.toUInt64.toNat ≤ UInt32.size - 1 := Nat.le_pred_of_lt n.toNat_lt
  rw [Decoder.word32, whole_of_value hlimit h, UInt32.toNat_toUInt64]
  exact congrArg _ UInt32.ofNat_toNat

/-- A string in a document is decoded as this string. -/
theorem text_of_holds {s : String} (h : Holds room (.string s) r) : Decoder.text r = .ok s :=
  text_of_value (value_of_holds h)

/-- A whole number in a document is decoded as this number by everyone whose limit it keeps. -/
theorem whole_of_holds {n : UInt64} {limit : Nat} {expected : String} (hlimit : n.toNat ≤ limit)
    (h : Holds room (.word n) r) : Decoder.whole limit expected r = .ok n.toNat :=
  whole_of_value hlimit (value_of_holds h)

/-- A word in a document is decoded as this word. -/
theorem word_of_holds {n : UInt64} (h : Holds room (.word n) r) : Decoder.word r = .ok n :=
  word_of_value (value_of_holds h)

/-- A short word in a document is decoded as this short word. -/
theorem word32_of_holds {n : UInt32} (h : Holds room (.word32 n) r) : Decoder.word32 r = .ok n :=
  word32_of_value (value_of_holds h)

end

/-! ## Fields -/

/-- The members of an object that have a name. -/
def under (name : String) (members : List (String × Value)) : List (String × Value) :=
  members.filter fun member => member.1 == name

/-- A member in front is found under its own name, before all others of that name. -/
theorem under_cons_self (name : String) (v : Value) (members : List (String × Value)) :
    under name ((name, v) :: members) = (name, v) :: under name members :=
  List.filter_cons_of_pos (beq_iff_eq.2 rfl)

/-- A member in front is passed over under every other name. -/
theorem under_cons_of_ne {name : String} {member : String × Value} (hne : member.1 ≠ name)
    (members : List (String × Value)) : under name (member :: members) = under name members :=
  List.filter_cons_of_neg (mt beq_iff_eq.1 hne)

/-- Nothing stands under a name if the first member has another one and nothing behind it has this one.
    -/
theorem under_cons_eq_nil {name : String} {member : String × Value} {members : List (String × Value)} :
    under name (member :: members) = [] ↔ member.1 ≠ name ∧ under name members = [] := by
  rw [under, under, List.filter_eq_nil_iff, List.filter_eq_nil_iff, List.forall_mem_cons, beq_iff_eq]

/-- A name that no member has is missing. -/
theorem under_eq_nil {name : String} {members : List (String × Value)}
    (h : name ∉ members.map Prod.fst) : under name members = [] :=
  List.filter_eq_nil_iff.2 fun _ hmem heq => h (List.mem_map.2 ⟨_, hmem, beq_iff_eq.1 heq⟩)

/-- If no name stands twice, a member is the only one of its name. -/
theorem under_of_nodup {members : List (String × Value)} (hnodup : (members.map Prod.fst).Nodup)
    {member : String × Value} (hmem : member ∈ members) : under member.1 members = [member] := by
  induction members with
  | nil => exact nomatch hmem
  | cons first members ih =>
      obtain ⟨hfirst, hnodup⟩ := List.nodup_cons.1 hnodup
      rcases List.mem_cons.1 hmem with rfl | hmem
      · rw [under_cons_self, under_eq_nil hfirst]
      · have hne : first.1 ≠ member.1 := fun heq => hfirst (heq ▸ List.mem_map_of_mem hmem)
        rw [under_cons_of_ne hne, ih hnodup hmem]

namespace Fields

variable {α β : Type} {room : Nat} {members : List (String × Value)} {named : List (Key × Reading)}

/-- Whether some members of an object make a record. -/
def Yields (fields : Fields α) (named : List (Key × Reading)) (answer : α) : Prop :=
  ∃ noted, fields.ofMembers fields.nothing named = .ok noted ∧ fields.close noted = .ok answer

/-- Fields that yield an answer from the members of a closed object decode the object as this answer. -/
theorem Yields.object {fields : Fields α} {answer : α} (h : fields.Yields named answer) (place : Place) :
    fields.object named (.found place) = .ok answer := by
  obtain ⟨noted, hnoted, hclose⟩ := h
  rw [Fields.object, hnoted]
  show noticedAt place (fields.close noted) = _
  rw [hclose]
  rfl

section

variable (fields : Fields α) {noted after result : fields.Noted} {key : Key} {name : String}
  {item : Reading}

/-- **A field meets a member** that has its name if it has noted none before and can note this one.  A
    second member of one name is what makes it fail. -/
theorem meet_eq_ok_iff : fields.meet noted key name item = .ok after ↔
    fields.isNoted noted name = false ∧ fields.note noted name item = .ok after := by
  rw [meet]
  cases hnew : fields.isNoted noted name with
  | true => simp
  | false => simp

/-- A member of one of the fields is noted. -/
theorem ofMembers_of_known (hname : key.text.value = .ok name) (hknown : name ∈ fields.names)
    (hmeet : fields.meet noted key name item = .ok after)
    (hrest : fields.ofMembers after named = .ok result) :
    fields.ofMembers noted ((key, item) :: named) = .ok result := by
  rw [ofMembers.eq_def]
  dsimp only
  rw [hname]
  show (if fields.names.contains name then _ else _) = _
  rw [if_pos (List.contains_iff_mem.2 hknown), hmeet]
  exact hrest

/-- A member of another name is passed over. -/
theorem ofMembers_of_unknown (hname : key.text.value = .ok name) (hunknown : name ∉ fields.names)
    (hskip : item.skip = .ok ()) (hrest : fields.ofMembers noted named = .ok result) :
    fields.ofMembers noted ((key, item) :: named) = .ok result := by
  rw [ofMembers.eq_def]
  dsimp only
  rw [hname]
  show (if fields.names.contains name then _ else _) = _
  rw [if_neg (mt List.contains_iff_mem.1 hunknown), hskip]
  exact hrest

/-- Members that are noted have names; one of the fields is noted, any other is passed over. -/
theorem ofMembers_cons_cases (h : fields.ofMembers noted ((key, item) :: named) = .ok result) :
    ∃ name, key.text.value = .ok name ∧
      ((name ∈ fields.names ∧ ∃ after, fields.meet noted key name item = .ok after ∧
          fields.ofMembers after named = .ok result) ∨
        (name ∉ fields.names ∧ item.skip = .ok () ∧ fields.ofMembers noted named = .ok result)) := by
  obtain ⟨name, hname, h⟩ := bind_eq_ok.1 h
  refine ⟨name, hname, ?_⟩
  split at h
  · next hknown => exact Or.inl ⟨List.contains_iff_mem.1 hknown, bind_eq_ok.1 h⟩
  · next hunknown =>
    obtain ⟨_, hskip, hrest⟩ := bind_eq_ok.1 h
    exact Or.inr ⟨mt List.contains_iff_mem.2 hunknown, hskip, hrest⟩

end

/-- Fields that are closed in another way, or left out in other cases. -/
def reclosed (fields : Fields α) (defaulted : List String) (close : fields.Noted → Except Mismatch β) :
    Fields β :=
  { fields with defaulted, close }

/-- How fields are closed does not matter while they are noted. -/
theorem ofMembers_reclosed (fields : Fields α) (defaulted : List String)
    (close : fields.Noted → Except Mismatch β) (noted : fields.Noted) (named : List (Key × Reading)) :
    (fields.reclosed defaulted close).ofMembers noted named = fields.ofMembers noted named := by
  induction named generalizing noted with
  | nil => rfl
  | cons m named ih =>
      show (m.1.text.value >>= fun name =>
          if fields.names.contains name then
            fields.meet noted m.1 name m.2 >>= fun noted =>
              (fields.reclosed defaulted close).ofMembers noted named
          else m.2.skip >>= fun _ => (fields.reclosed defaulted close).ofMembers noted named) = _
      simp only [ih]
      rfl

/-- What is made of an answer is yielded where the answer is. -/
theorem Yields.map {fields : Fields α} {answer : α} (h : fields.Yields named answer) (f : α → β) :
    (fields.map f).Yields named (f answer) := by
  obtain ⟨noted, hnoted, hclose⟩ := h
  have hsame := ofMembers_reclosed fields fields.defaulted
    (fun noted => (fields.close noted).map f) fields.nothing named
  refine ⟨noted, hsame.trans hnoted, ?_⟩
  show (fields.close noted).map f = _
  rw [hclose]
  rfl

section

variable {a : Fields α} {b : Fields β} {x x' : a.Noted} {y y' : b.Noted} {key : Key} {name : String}
  {item : Reading}

/-- Of two fields side by side the left one notes the members that have one of its names, and the right
    one is left as it was. -/
theorem meet_and_left (hname : name ∈ a.names) (h : a.meet x key name item = .ok x') :
    (a.and b).meet (x, y) key name item = .ok (x', y) := by
  have hcontains := List.contains_iff_mem.2 hname
  obtain ⟨hnew, hnote⟩ := (meet_eq_ok_iff a).1 h
  refine (meet_eq_ok_iff (a.and b)).2 ⟨(if_pos hcontains).trans hnew, (if_pos hcontains).trans ?_⟩
  rw [hnote]
  rfl

/-- The right one notes the others.  The names of the left one go first, hence the condition. -/
theorem meet_and_right (hname : name ∉ a.names) (h : b.meet y key name item = .ok y') :
    (a.and b).meet (x, y) key name item = .ok (x, y') := by
  have hcontains := mt List.contains_iff_mem.1 hname
  obtain ⟨hnew, hnote⟩ := (meet_eq_ok_iff b).1 h
  refine (meet_eq_ok_iff (a.and b)).2 ⟨(if_neg hcontains).trans hnew, (if_neg hcontains).trans ?_⟩
  rw [hnote]
  rfl

/-- Fields of different names are noted side by side: each passes over the members of the other.
    The induction is on the members, and each of them belongs to the left fields, to the right
    ones, or to neither. -/
theorem ofMembers_and (hnames : ∀ name ∈ a.names, name ∉ b.names)
    (ha : a.ofMembers x named = .ok x') (hb : b.ofMembers y named = .ok y') :
    (a.and b).ofMembers (x, y) named = .ok (x', y') := by
  induction named generalizing x y with
  | nil =>
      cases ha
      cases hb
      rfl
  | cons m named ih =>
      obtain ⟨key, item⟩ := m
      obtain ⟨name, hname, ha⟩ := ofMembers_cons_cases a ha
      obtain ⟨name', hname', hb⟩ := ofMembers_cons_cases b hb
      obtain rfl : name = name' := Except.ok.inj (hname.symm.trans hname')
      -- a name belongs to one side at most: that side notes the member, the other one passes it over
      rcases ha with ⟨hina, x₁, hmeet, ha⟩ | ⟨hina, hskip, ha⟩
      · rcases hb with ⟨hinb, _⟩ | ⟨_, _, hb⟩
        · exact absurd hinb (hnames name hina)
        · exact ofMembers_of_known (a.and b) hname (List.mem_append_left _ hina)
            (meet_and_left hina hmeet) (ih ha hb)
      · rcases hb with ⟨hinb, y₁, hmeet, hb⟩ | ⟨hinb, _, hb⟩
        · exact ofMembers_of_known (a.and b) hname (List.mem_append_right _ hinb)
            (meet_and_right hina hmeet) (ih ha hb)
        · exact ofMembers_of_unknown (a.and b) hname (mt List.mem_append.1 (not_or.2 ⟨hina, hinb⟩))
            hskip (ih ha hb)

/-- **Records are decoded side by side** if their fields have different names.  A record of many fields
    is this, over and over, so nothing has to be said of more than two. -/
theorem Yields.and {first : α} {second : β} (hnames : ∀ name ∈ a.names, name ∉ b.names)
    (ha : a.Yields named first) (hb : b.Yields named second) :
    (a.and b).Yields named (first, second) := by
  obtain ⟨x, hx, hcloseA⟩ := ha
  obtain ⟨y, hy, hcloseB⟩ := hb
  refine ⟨(x, y), ofMembers_and hnames hx hy, ?_⟩
  show (do let first ← a.close x; let second ← b.close y; return (first, second)) = _
  rw [hcloseA, hcloseB]
  rfl

end

/-! ### One field -/

variable {found : Value → Reading → Prop} {name : String} {ask : Decoder α} {v : Value} {answer : α}

/-- What nothing is complained about can be passed over, whatever it is.  Members of
    unknown names are. -/
theorem skip_of_complaint? {item : Reading} (h : item.complaint? = none) : item.skip = .ok () := by
  rw [Reading.skip, h]

/-- Members of other names are passed over. -/
theorem ofMembers_of_absent (h : Shows found members named) (hname : under name members = [])
    (noted : Option α) : (required name ask).ofMembers noted named = .ok noted := by
  induction h with
  | nil => rfl
  | @cons member m members named hm _ ih =>
      obtain ⟨key, item⟩ := m
      obtain ⟨hkey, hcomplaint, -⟩ := hm
      obtain ⟨hne, hname⟩ := under_cons_eq_nil.1 hname
      exact ofMembers_of_unknown (required name ask) hkey (mt List.mem_singleton.1 hne)
        (skip_of_complaint? hcomplaint) (ih hname)

/-- One member has the name of a field: that field is noted from it.  The members in front of it and
    behind it have other names and are passed over. -/
theorem ofMembers_of_once (h : Shows found members named) (hname : under name members = [(name, v)])
    (hask : ∀ r, found v r → ask r = .ok answer) :
    (required name ask).ofMembers none named = .ok (some answer) := by
  induction h with
  | nil => exact nomatch hname
  | @cons member m members named hm htail ih =>
      obtain ⟨key, item⟩ := m
      obtain ⟨hkey, hcomplaint, hitem⟩ := hm
      by_cases heq : member.1 = name
      · obtain ⟨_, v'⟩ := member
        subst heq
        rw [under_cons_self, List.cons.injEq, Prod.mk.injEq] at hname
        obtain ⟨⟨-, rfl⟩, hnone⟩ := hname
        -- no member behind this one has its name, so it is not met again
        refine ofMembers_of_known (required _ ask) hkey (List.mem_singleton_self _)
          ((meet_eq_ok_iff _).2 ⟨rfl, ?_⟩) (ofMembers_of_absent htail hnone _)
        show (ask item).map some = _
        rw [hask item hitem]
        rfl
      · rw [under_cons_of_ne heq] at hname
        exact ofMembers_of_unknown (required name ask) hkey (mt List.mem_singleton.1 heq)
          (skip_of_complaint? hcomplaint) (ih hname)

/-- **A field is decoded** from the one member of its name. -/
theorem yields_required (h : Shows found members named)
    (hname : under name members = [(name, v)])
    (hask : ∀ r, found v r → ask r = .ok answer) : (required name ask).Yields named answer :=
  ⟨some answer, ofMembers_of_once h hname hask, rfl⟩

/-- **A field that may be left out** is decoded like any other where it is there; the default does not
    matter then. -/
theorem yields_withDefault (default : α) (h : Shows found members named)
    (hname : under name members = [(name, v)])
    (hask : ∀ r, found v r → ask r = .ok answer) :
    (withDefault name default ask).Yields named answer := by
  have hsame := ofMembers_reclosed (required name ask) [name]
    (fun noted => .ok (noted.getD default)) none named
  exact ⟨some answer, hsame.trans (ofMembers_of_once h hname hask), rfl⟩

/-- A field that is left out has its default. -/
theorem yields_of_absent (default : α) (h : Shows found members named)
    (hname : under name members = []) :
    (withDefault name default ask).Yields named default := by
  have hsame := ofMembers_reclosed (required name ask) [name]
    (fun noted => .ok (noted.getD default)) none named
  exact ⟨none, hsame.trans (ofMembers_of_absent h hname _), rfl⟩

/-! ### Sequences of fields -/

/-- The members that have these names and elements, as found in an object. -/
def asMembers (told : List (String × Reading)) : List (Key × Reading) :=
  told.map fun (name, item) =>
    ({ text := .found name, stop := default, number := .missing ⟨.valueDue, default⟩,
       numberStop := default }, item)

/-- **A sequence of fields is noted like an object with the same fields.**  The fields of the names that are
left may be left out, so nothing is noted of them. -/
theorem ofItems_of_ofMembers {fields : Fields α} {noted result : fields.Noted}
    {told : List (String × Reading)} {left : List String} (title : String) (stop : Place)
    (hknown : ∀ t ∈ told, t.1 ∈ fields.names) (hleft : ∀ name ∈ left, name ∈ fields.defaulted)
    (h : fields.ofMembers noted (asMembers told) = .ok result) (count : Nat) :
    fields.ofItems title (.found stop) noted count (told.map Prod.fst ++ left) (told.map Prod.snd)
      = .ok (result, []) := by
  induction told generalizing noted count with
  | nil =>
      cases h
      -- the names that are left, one by one
      induction left with
      | nil => rfl
      | cons name left ih =>
          obtain ⟨hname, hleft⟩ := List.forall_mem_cons.1 hleft
          show (if fields.defaulted.contains name then _ else _) = _
          rw [if_pos (List.contains_iff_mem.2 hname)]
          exact ih hleft
  | cons t told ih =>
      obtain ⟨name, item⟩ := t
      obtain ⟨hname, hknown⟩ := List.forall_mem_cons.1 hknown
      obtain ⟨_, hkey, hcases⟩ := ofMembers_cons_cases fields h
      cases hkey
      rcases hcases with ⟨-, after, hmeet, hrest⟩ | ⟨hunknown, -⟩
      · show (fields.note noted name item >>= fun noted => fields.ofItems title (.found stop) noted
          (count + 1) (told.map Prod.fst ++ left) (told.map Prod.snd)) = _
        rw [((meet_eq_ok_iff fields).1 hmeet).2]
        exact ih hknown hrest _
      · exact absurd hname hunknown

end Fields

end HeapProfile.Json
