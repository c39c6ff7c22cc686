/-!
# Label values — one value per label number

A row of a chart maps label numbers to values.  The entries are kept in increasing order of their
numbers, so equal rows have equal entries; `insert` replaces the value of a number that is present.
-/

namespace HeapProfile

/-- Values by label number, in increasing order of the numbers. -/
structure LabelValues where
  entries : List (UInt32 × UInt64)
  increasing : entries.Pairwise (fun a b => a.1 < b.1)

namespace LabelValues

instance : DecidableEq LabelValues := fun a b =>
  if h : a.entries = b.entries then
    isTrue (by cases a; cases b; cases h; rfl)
  else isFalse (by intro hab; exact h (by rw [hab]))

/-- No label has a value. -/
def empty : LabelValues := ⟨[], List.Pairwise.nil⟩

instance : Inhabited LabelValues := ⟨empty⟩

/-- The entries with the value of one number set. -/
def insertEntry (id : UInt32) (value : UInt64) : List (UInt32 × UInt64) → List (UInt32 × UInt64)
  | [] => [(id, value)]
  | entry :: rest =>
    if id < entry.1 then (id, value) :: entry :: rest
    else if id = entry.1 then (id, value) :: rest
    else entry :: insertEntry id value rest

/-- Setting a value adds no other entry.  By induction on the entries: the new one goes in front of the
    head, replaces it, or is set behind it. -/
theorem mem_insertEntry (id : UInt32) (value : UInt64) (e : UInt32 × UInt64) :
    ∀ entries, e ∈ insertEntry id value entries → e = (id, value) ∨ e ∈ entries := by
  intro entries
  induction entries with
  | nil =>
      intro h
      exact Or.inl (List.mem_singleton.1 h)
  | cons entry rest ih =>
      intro h
      by_cases hlt : id < entry.1
      · rw [insertEntry, if_pos hlt] at h
        exact List.mem_cons.1 h
      · by_cases heq : id = entry.1
        · rw [insertEntry, if_neg hlt, if_pos heq] at h
          rcases List.mem_cons.1 h with h | h
          · exact Or.inl h
          · exact Or.inr (List.mem_cons_of_mem _ h)
        · rw [insertEntry, if_neg hlt, if_neg heq] at h
          rcases List.mem_cons.1 h with h | h
          · exact Or.inr (h ▸ List.mem_cons_self)
          · rcases ih h with h | h
            · exact Or.inl h
            · exact Or.inr (List.mem_cons_of_mem _ h)

/-- Setting a value keeps the numbers increasing.  By induction on the entries, where the number goes in
    front of the head, replaces it or is set behind it. -/
theorem increasing_insertEntry (id : UInt32) (value : UInt64) :
    ∀ entries, entries.Pairwise (fun a b : UInt32 × UInt64 => a.1 < b.1) →
      (insertEntry id value entries).Pairwise (fun a b => a.1 < b.1) := by
  intro entries
  induction entries with
  | nil =>
      intro _
      exact List.pairwise_singleton _ _
  | cons entry rest ih =>
      intro h
      obtain ⟨hhead, hrest⟩ := List.pairwise_cons.1 h
      by_cases hlt : id < entry.1
      · rw [insertEntry, if_pos hlt]
        refine List.pairwise_cons.2 ⟨?_, h⟩
        intro e he
        rcases List.mem_cons.1 he with rfl | he
        · exact hlt
        · exact UInt32.lt_trans hlt (hhead e he)
      · by_cases heq : id = entry.1
        · rw [insertEntry, if_neg hlt, if_pos heq]
          refine List.pairwise_cons.2 ⟨?_, hrest⟩
          intro e he
          exact heq ▸ hhead e he
        · rw [insertEntry, if_neg hlt, if_neg heq]
          refine List.pairwise_cons.2 ⟨?_, ih hrest⟩
          intro e he
          rcases mem_insertEntry id value e rest he with rfl | he
          · -- the new number is neither smaller than the head nor equal to it
            exact UInt32.lt_of_le_of_ne (UInt32.not_lt.1 hlt) (fun h => heq h.symm)
          · exact hhead e he

/-- Sets the value of a label number. -/
def insert (values : LabelValues) (id : UInt32) (value : UInt64) : LabelValues :=
  ⟨insertEntry id value values.entries, increasing_insertEntry id value _ values.increasing⟩

/-- The value of a label number. -/
def get? (values : LabelValues) (id : UInt32) : Option UInt64 :=
  (values.entries.find? fun entry => entry.1 == id).map (·.2)

/-- The values of a list of entries; of entries with one number the last one counts. -/
def ofList (entries : List (UInt32 × UInt64)) : LabelValues :=
  entries.foldl (fun values entry => values.insert entry.1 entry.2) empty

end LabelValues

end HeapProfile
