import HeapProfile.Proofs.Documents

/-!
# Indentation — documents on lines of their own

The indented form of a document is its compact form with blanks around the parts: a line break and the
blanks of a depth in front of every part, and behind the last one in front of the closing bracket.  No
reader sees a difference, so what is read from either form is the same.

* **`Reads.before`** — a text is read behind blanks as it is without them;
* **`exists_parts_bracketed`** — what stands between the brackets of an indented form are parts with
  commas between them;
* **`reads_indented`** — the indented form of a document is read as that document, wherever it stands.
-/

namespace HeapProfile.Json

open HeapProfile.Symbol

/-! ## Blanks around parts -/

theorem AreBlanks.append {a b : List Char} (ha : AreBlanks a) (hb : AreBlanks b) : AreBlanks (a ++ b) :=
  List.forall_mem_append.2 ⟨ha, hb⟩

/-- A text is read behind blanks as it is without them. -/
theorem Reads.before {text : List Char} {found : Reading → Prop} (h : Reads text found)
    {gap : List Char} (hgap : AreBlanks gap) : Reads (gap ++ text) found := by
  intro rest hrest
  obtain ⟨r, hread, hfound⟩ := h rest hrest
  have hskip := skipBlanks_append hgap (ofChars text ++ rest)
  have hsteps : stepsFor (ofChars text ++ rest) ≤ stepsFor (ofChars gap ++ (ofChars text ++ rest)) := by
    simp only [stepsFor, List.length_append]
    omega
  refine ⟨r, ?_, hfound⟩
  rw [ofChars_append, List.append_assoc, ← hread, ← readValue_eq_read hsteps, read]
  -- both begin to read behind the blanks
  rw [stepsFor, readValue, readValue, hskip]

/-- An element is read with blanks around it as it is without them. -/
theorem ReadsItem.around {part : List Char} {found : Reading → Prop} (h : ReadsItem part found)
    {before behind : List Char} (hbefore : AreBlanks before) (hbehind : AreBlanks behind) :
    ReadsItem (before ++ (part ++ behind)) found := by
  obtain ⟨text, gap, rfl, hgap, hreads⟩ := h
  refine ⟨before ++ text, gap ++ behind, ?_, hgap.append hbehind, hreads.before hbefore⟩
  simp only [List.append_assoc]

/-- A member is read with blanks around it as it is without them. -/
theorem ReadsMember.around {part : List Char} {named : Key → Prop} {found : Reading → Prop}
    (h : ReadsMember part named found) {before behind : List Char} (hbefore : AreBlanks before)
    (hbehind : AreBlanks behind) : ReadsMember (before ++ (part ++ behind)) named found := by
  obtain ⟨gap, name, between, item, rfl, hgap, hbetween, hname, hitem⟩ := h
  refine ⟨before ++ gap, name, between, item ++ behind, ?_, hbefore.append hgap, hbetween, hname,
    hitem.around areBlanks_nil hbehind⟩
  simp only [List.append_assoc, List.cons_append]

/-! ## Lines -/

/-- The line break and the blanks in front of what stands at a depth. -/
theorem areBlanks_newline (depth : Nat) : AreBlanks (Value.newline depth).toList := by
  rw [Value.newline, String.toList_ofList, AreBlanks, List.forall_mem_cons]
  exact ⟨rfl, fun c hc => by rw [List.eq_of_mem_replicate hc]; rfl⟩

variable {α : Type}

/-- Parts with blanks in front of each and behind the last one are parts with commas between them. -/
theorem exists_parts_intercalate {R : List Char → α → Prop} {gap last : List Char}
    {parts : List (List Char)} {as : List α}
    (hR : ∀ {part a behind}, AreBlanks behind → R part a → R (gap ++ (part ++ behind)) a)
    (hlast : AreBlanks last) (h : List.Forall₂ R parts as) (hne : parts ≠ []) :
    ∃ parts', gap ++ ((',' :: gap).intercalate parts ++ last) = [','].intercalate parts' ∧
      List.Forall₂ R parts' as := by
  induction h with
  | nil => exact absurd rfl hne
  | @cons part a parts as hpart htail ih =>
      -- the blanks behind the last part belong to it, so it is a case apart
      cases htail with
      | nil =>
          refine ⟨[gap ++ (part ++ last)], ?_, .cons (hR hlast hpart) .nil⟩
          rw [List.intercalate_singleton, List.intercalate_singleton]
      | @cons part' a' parts as' hpart' htail =>
          obtain ⟨parts', hparts', hreads⟩ := ih (List.cons_ne_nil _ _)
          obtain ⟨next, rest, rfl⟩ : ∃ next rest, parts' = next :: rest := by
            cases hreads
            exact ⟨_, _, rfl⟩
          refine ⟨(gap ++ (part ++ [])) :: next :: rest, ?_, .cons (hR areBlanks_nil hpart) hreads⟩
          rw [List.intercalate_cons_cons, List.intercalate_cons_cons, ← hparts']
          simp only [List.append_assoc, List.cons_append, List.nil_append]

/-- What stands between the brackets of an indented form are parts with commas between them.  Line
    breaks and blanks go to the parts, which are read with blanks around them. -/
theorem exists_parts_bracketed {R : List Char → α → Prop} (opening closing : String) (depth : Nat)
    {parts : List String} {as : List α}
    (hR : ∀ {before part a behind}, AreBlanks before → AreBlanks behind → R part a →
      R (before ++ (part ++ behind)) a)
    (h : List.Forall₂ (fun part a => R part.toList a) parts as) :
    ∃ parts', (Value.bracketed opening closing depth parts).toList
        = opening.toList ++ ([','].intercalate parts' ++ closing.toList) ∧
      List.Forall₂ R parts' as := by
  cases h with
  | nil =>
      refine ⟨[], ?_, .nil⟩
      rw [Value.bracketed]
      exact String.toList_append
  | @cons part a parts as hpart htail =>
      have hparts : List.Forall₂ R ((part :: parts).map String.toList) (a :: as) :=
        List.forall₂_map_left_iff.2 (.cons hpart htail)
      obtain ⟨parts', hparts', hreads⟩ := exists_parts_intercalate (hR (areBlanks_newline (depth + 1)))
        (areBlanks_newline depth) hparts (List.cons_ne_nil _ _)
      refine ⟨parts', ?_, hreads⟩
      rw [← hparts', Value.bracketed, if_neg (by rw [List.isEmpty_cons]; exact Bool.false_ne_true)]
      simp only [String.toList_append, separated, String.toList_intercalate, List.append_assoc]
      rfl

/-! ## Documents -/

theorem indentedItems_eq (depth : Nat) (values : List Value) :
    Value.indentedItems depth values = values.map (Value.indented depth) := by
  induction values with
  | nil => rfl
  | cons v values ih => rw [Value.indentedItems, ih, List.map_cons]

theorem indentedMembers_eq (depth : Nat) (members : List (String × Value)) :
    Value.indentedMembers depth members
      = members.map fun m => quote m.1 ++ ": " ++ m.2.indented depth := by
  induction members with
  | nil => rfl
  | cons m members ih => rw [Value.indentedMembers, ih, List.map_cons]

/-- A document without brackets is written on no line of its own. -/
theorem indented_scalar (depth : Nat) {v : Value} (h : isScalar v = true) :
    v.indented depth = v.compact := by
  cases v with
  | array | object => exact nomatch h
  | null | bool | number | string => rfl

/-- **The indented form of a document is read as that document,** wherever it stands.  By the same
    induction as for the compact form, with blanks around every part. -/
theorem reads_indented {room : Nat} {v : Value} (h : IsPlain room v) (depth : Nat) :
    Reads (v.indented depth).toList (Holds room v) := by
  induction room generalizing v depth with
  | zero =>
      cases v with
      | null | bool | number | string =>
          rw [indented_scalar depth rfl]
          exact reads_scalar rfl h
      | array | object => exact h.elim
  | succ room ih =>
      cases v with
      | null | bool | number | string =>
          rw [indented_scalar depth rfl]
          exact reads_scalar rfl h
      | array values =>
          have hparts : List.Forall₂ (fun part v => ReadsItem part.toList (Holds room v))
              (values.map (Value.indented (depth + 1))) values := by
            rw [List.forall₂_map_left_iff, List.forall₂_same]
            exact fun v hv => (ih (h v hv) (depth + 1)).readsItem
          obtain ⟨parts, htext, hreads⟩ := exists_parts_bracketed
            (R := fun part v => ReadsItem part (Holds room v)) "[" "]" depth
            (fun hbefore hbehind hpart => hpart.around hbefore hbehind) hparts
          rw [Value.indented, indentedItems_eq, htext]
          exact reads_array hreads
      | object members =>
          have hparts : List.Forall₂
              (fun part member => ReadsMember part.toList (fun key => key.Spells member.1)
                (Holds room member.2))
              (members.map fun m => quote m.1 ++ ": " ++ m.2.indented (depth + 1)) members := by
            rw [List.forall₂_map_left_iff, List.forall₂_same]
            intro m hm
            have hblank : AreBlanks [' '] := List.forall_mem_singleton.2 rfl
            rw [String.toList_append, String.toList_append, List.append_assoc]
            exact readsMember_compact ((ih (h m hm) (depth + 1)).before hblank)
          obtain ⟨parts, htext, hreads⟩ := exists_parts_bracketed
            (R := fun part (member : String × Value) =>
              ReadsMember part (fun key => key.Spells member.1) (Holds room member.2))
            "\x7b" "\x7d" depth (fun hbefore hbehind hpart => hpart.around hbefore hbehind) hparts
          rw [Value.indented, indentedMembers_eq, htext]
          exact reads_object hreads

end HeapProfile.Json
