import HeapProfile.Proofs.Decoding

/-!
# Assembly — decoders put together from decoders

A decoder knows a document by its answer to whatever holds it.  What knows the elements of a sequence
knows the sequence, and likewise for objects whose names are numbers, for fields that are left out, and
for a record that has the fields of another one among its own.

* **`Decodes`** — a decoder answers what holds a document;
* **`Decodes.list`** and **`Decodes.numbered`** — sequences and objects are decoded part by part;
* **`Fields.decodes_recordWith`** — of the members of an object each record takes its own.
-/

namespace HeapProfile.Json

variable {α β : Type} {room : Nat}

/-- A decoder answers whatever holds a document, with brackets no deeper than the given number. -/
def Decodes (ask : Decoder α) (room : Nat) (v : Value) (answer : α) : Prop :=
  ∀ r, Holds room v r → ask r = .ok answer

/-- What is there is decoded as if it had to be. -/
theorem Decodes.optional {ask : Decoder α} {v : Value} {answer : α} (hne : v ≠ .null)
    (h : Decodes ask room v answer) : Decodes (Decoder.optional ask) room v (some answer) := by
  intro r hr
  have hask : (ask r).map some = .ok (some answer) := by rw [h r hr]; rfl
  cases r with
  | null span =>
      cases v with
      | null => exact absurd rfl hne
      | bool | number | string => cases room <;> (obtain ⟨_, hspan⟩ := hr; exact nomatch hspan)
      | array | object =>
          cases room with
          | zero => exact hr.elim
          | succ => obtain ⟨_, _, _, hnull, _⟩ := hr; exact nomatch hnull
  | bool | number | text | array | object | broken => exact hask

/-! ## Sequences and objects of many members -/

/-- What is asked of every element is answered for all of them. -/
theorem mapM_eq_ok {ε : Type} {f : β → Except ε α} {items : List β} {answers : List α}
    (h : List.Forall₂ (fun answer item => f item = .ok answer) answers items) :
    items.mapM f = .ok answers := by
  induction h with
  | nil => rfl
  | cons hitem _ ih =>
      rw [List.mapM_cons, hitem, ih]
      rfl

/-- **A sequence is decoded element by element.**  If all elements are decoded, then so is the sequence,
    one bracket further out. -/
theorem Decodes.list {ask : Decoder α} {toValue : α → Value} {answers : List α}
    (h : ∀ answer, Decodes ask room (toValue answer) answer) :
    Decodes (Decoder.list ask) (room + 1) (.array (answers.map toValue)) answers := by
  rintro _ ⟨start, items, place, rfl, hitems⟩
  have hanswers : items.mapM ask = .ok answers :=
    mapM_eq_ok ((List.forall₂_map_left_iff.1 hitems).imp fun answer item => h answer item)
  rw [Decoder.list, hanswers]
  rfl

/-- The name of a number is decoded as that number. -/
theorem id_of_spells {key : Key} {id : UInt32} (h : key.Spells (toString id.toNat)) :
    Decoder.id key = .ok id := by
  have hdigits : (toString id.toNat).toList = digits id.toUInt64 := by
    rw [← toList_toString, UInt32.toNat_toUInt64]
  have hlimit : id.toUInt64.toNat ≤ UInt32.size - 1 := Nat.le_pred_of_lt id.toNat_lt
  have hwhole : Decoder.wholeOf (UInt32.size - 1) "u32" (.whole id.toUInt64) = .ok id.toNat :=
    if_pos hlimit
  rw [Decoder.id, h.number _ hdigits]
  show (noticedAt key.numberStop (Decoder.wholeOf (UInt32.size - 1) "u32" (.whole id.toUInt64))
    >>= fun n => pure (UInt32.ofNat n)) = _
  rw [hwhole]
  exact congrArg Except.ok UInt32.ofNat_toNat

/-- **An object whose names are numbers is decoded member by member,** in the order of the members. -/
theorem Decodes.numbered {ask : Decoder α} {toValue : α → Value} {entries : List (UInt32 × α)}
    (h : ∀ answer, Decodes ask room (toValue answer) answer) :
    Decodes (Decoder.numbered ask) (room + 1)
      (.object (entries.map fun (id, answer) => (toString id.toNat, toValue answer))) entries := by
  rintro _ ⟨start, members, place, rfl, hmembers⟩
  have hentries := mapM_eq_ok (f := fun (m : Key × Reading) =>
      Decoder.id m.1 >>= fun id => ask m.2 >>= fun answer => Except.ok (id, answer))
    ((List.forall₂_map_left_iff.1 hmembers).imp fun entry m hm => by
      rw [id_of_spells hm.1, h _ _ hm.2]
      rfl)
  rw [Decoder.numbered]
  exact (congrArg (· >>= fun entries => Except.ok entries) hentries)

namespace Fields

variable {members : List (String × Value)} {named : List (Key × Reading)} {title : String}

/-- A record is decoded from the object of its members. -/
theorem decodes_record {fields : Fields α} {answer : α}
    (h : ∀ named, HoldsMembers room members named → fields.Yields named answer) :
    Decodes (fields.record title) (room + 1) (.object members) answer := by
  rintro _ ⟨start, named, place, rfl, hnamed⟩
  exact (h named hnamed).object place

/-! ### A record inside a record -/

/-- The members that belong to none of the fields. -/
def others (fields : Fields α) (members : List (String × Value)) : List (String × Value) :=
  members.filter fun member => !fields.names.contains member.1

/-- Fields are noted with the others kept as they are noted with the others passed over.  Which others
    are kept, and in which order, is part of the statement, as they are decoded afterwards. -/
theorem setAside_of_ofMembers {fields : Fields α} {noted result : fields.Noted}
    (h : HoldsMembers room members named) (hnoted : fields.ofMembers noted named = .ok result)
    (kept : List (Key × Reading)) :
    ∃ left, fields.setAside room noted kept named = .ok (result, kept.reverse ++ left) ∧
      HoldsMembers room (fields.others members) left := by
  induction h generalizing noted kept with
  | nil =>
      cases hnoted
      exact ⟨[], congrArg Except.ok (Prod.ext rfl (List.append_nil _).symm), .nil⟩
  | @cons member m members named hm _ ih =>
      obtain ⟨key, item⟩ := m
      obtain ⟨hkey, hitem⟩ := hm
      obtain ⟨name, hname, hcases⟩ := ofMembers_cons_cases fields hnoted
      obtain rfl : member.1 = name := by
        rw [hkey.text] at hname
        exact Except.ok.inj hname
      rw [setAside, hname, others, List.filter_cons]
      rcases hcases with ⟨hknown, after, hmeet, hrest⟩ | ⟨hunknown, -, hrest⟩
      · obtain ⟨left, hleft, hholds⟩ := ih hrest kept
        have hcontains := List.contains_iff_mem.2 hknown
        refine ⟨left, ?_, ?_⟩
        · show (if fields.names.contains member.1 then _ else _) = _
          rw [if_pos hcontains, hmeet]
          exact hleft
        · rw [hcontains]
          exact hholds
      · obtain ⟨left, hleft, hholds⟩ := ih hrest ((key, item) :: kept)
        have hcontains := mt List.contains_iff_mem.1 hunknown
        refine ⟨(key, item) :: left, ?_, ?_⟩
        · show (if fields.names.contains member.1 then _ else _) = _
          rw [if_neg hcontains, value_of_holds hitem]
          exact hleft.trans (by rw [List.reverse_cons, List.append_assoc]; rfl)
        · rw [Bool.not_eq_true] at hcontains
          rw [hcontains]
          exact .cons ⟨hkey, hitem⟩ hholds

/-- **Of the members of an object each record takes its own:** the one that is asked for, and the one
whose fields stand among the others. -/
theorem decodes_recordWith {outer : Fields α} {inner : Fields β} {first : α} {second : β}
    (houter : ∀ named, HoldsMembers room members named → outer.Yields named first)
    (hinner : ∀ named, HoldsMembers room (outer.others members) named → inner.Yields named second) :
    Decodes (outer.recordWith inner title room) (room + 1) (.object members) (first, second) := by
  rintro _ ⟨start, named, place, rfl, hnamed⟩
  obtain ⟨noted, hnoted, hclose⟩ := houter named hnamed
  obtain ⟨left, hleft, hholds⟩ := setAside_of_ofMembers hnamed hnoted []
  rw [recordWith, hleft]
  show (noticedAt place (outer.close noted) >>= fun own =>
    ((inner.object left (.found place)).mapError fun complaint => { complaint with place })
      >>= fun inner => pure (own, inner)) = _
  rw [hclose, (hinner left hholds).object place]
  rfl

end Fields

end HeapProfile.Json
