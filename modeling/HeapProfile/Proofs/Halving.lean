import HeapProfile.Proofs.Growth

/-!
# Halving — looking a sibling up where siblings increase

A builder looks a location up by going through the siblings one by one.  Siblings increase by
location, so it may as well halve: `bisect` looks at one sibling in the middle, leaves one half out
and goes on in the other, and in the end it has either found the location or the place where it
belongs.

Nothing in a builder makes this right but the order of its siblings.  `Increases` is all that
halving needs to know of it, and in a shaped forest halving and going through come to the same
(`findOrInsertByHalving_eq`): the same row is found, and a new one gets the same place.
-/

namespace HeapProfile

namespace Halving

/-- Halves a range of positions until one is left; `order` says how the entry at a position compares
    to what is looked for. -/
def narrow (order : Nat → Ordering) (base size : Nat) : Nat :=
  if size ≤ 1 then base
  else
    let half := size / 2
    if order (base + half) = .gt then narrow order base (size - half)
    else narrow order (base + half) (size - half)
termination_by size

/-- The position of an entry, or else the position at which to insert it. -/
def bisect (order : Nat → Ordering) (size : Nat) : Except Nat Nat :=
  if size = 0 then .error 0
  else
    let base := narrow order 0 size
    match order base with
    | .eq => .ok base
    | .lt => .error (base + 1)
    | .gt => .error base

/-- Of any two entries the first comes before what is looked for, or the second behind it. -/
def Increases (order : Nat → Ordering) (size : Nat) : Prop :=
  ∀ i j, i < j → j < size → order i = .lt ∨ order j = .gt

variable {order : Nat → Ordering} {size : Nat}

/-- Everything behind a range of positions is behind what is looked for, and the first entry of the
    range is not, unless nothing stands before it. -/
structure Narrowed (order : Nat → Ordering) (size base rest : Nat) : Prop where
  le : base + rest ≤ size
  behind : ∀ i, base + rest ≤ i → i < size → order i = .gt
  reached : base = 0 ∨ order base ≠ .gt

/-- **Halving keeps what is looked for inside.**  Whatever the middle is compared with, one half is
    ruled out by the order of the entries, and the invariant says which one. -/
theorem Narrowed.narrow (hinc : Increases order size) {base rest : Nat} (hpos : 0 < rest)
    (h : Narrowed order size base rest) : Narrowed order size (Halving.narrow order base rest) 1 := by
  induction rest using Nat.strong_induction_on generalizing base with
  | _ rest ih =>
      rw [Halving.narrow]
      by_cases hone : rest ≤ 1
      · rw [if_pos hone]
        obtain rfl : rest = 1 := Nat.le_antisymm hone hpos
        exact h
      · rw [if_neg hone]
        have hle := h.le
        have hlt : rest - rest / 2 < rest := by omega
        show Narrowed order size (if order (base + rest / 2) = .gt then _ else _) 1
        by_cases hmiddle : order (base + rest / 2) = .gt
        · rw [if_pos hmiddle]
          refine ih _ hlt (by omega) ⟨by omega, ?_, h.reached⟩
          intro i hi hsize
          -- what stands behind the middle is even further behind
          rcases Nat.eq_or_lt_of_le (show base + rest / 2 ≤ i by omega) with rfl | hi
          · exact hmiddle
          · rcases hinc _ i hi hsize with hless | hgreater
            · rw [hmiddle] at hless
              exact Ordering.noConfusion hless
            · exact hgreater
        · rw [if_neg hmiddle]
          refine ih _ hlt (by omega) ⟨by omega, ?_, Or.inr hmiddle⟩
          intro i hi hsize
          exact h.behind i (by omega) hsize

/-- **Halving finds the entry**, or the only place where it can stand.  At the end one entry is left,
    and it is the one that was looked for or the place is next to it. -/
theorem bisect_cases (hinc : Increases order size) :
    (∃ i, bisect order size = .ok i ∧ i < size ∧ order i = .eq) ∨
      ∃ i, bisect order size = .error i ∧ i ≤ size ∧ (∀ j < i, order j = .lt) ∧
        ∀ j, i ≤ j → j < size → order j = .gt := by
  rw [bisect]
  by_cases hsize : size = 0
  · rw [if_pos hsize]
    exact Or.inr ⟨0, rfl, Nat.zero_le _, fun j hj => absurd hj (Nat.not_lt_zero j), by omega⟩
  · rw [if_neg hsize]
    have h : Narrowed order size (Halving.narrow order 0 size) 1 :=
      Narrowed.narrow hinc (Nat.pos_of_ne_zero hsize) ⟨by omega, by omega, Or.inl rfl⟩
    generalize Halving.narrow order 0 size = base at h
    have hle := h.le
    -- what stands before the position comes before, if the entry there is not behind
    have hbefore : order base ≠ .gt → ∀ j < base, order j = .lt :=
      fun hreached j hj => (hinc j base hj (by omega)).resolve_right hreached
    cases hbase : order base with
    | eq => exact Or.inl ⟨base, by simp [hbase], by omega, hbase⟩
    | lt =>
        refine Or.inr ⟨base + 1, by simp [hbase], by omega, ?_, h.behind⟩
        intro j hj
        rcases Nat.eq_or_lt_of_le (Nat.le_of_lt_succ hj) with rfl | hj
        · exact hbase
        · exact hbefore (by simp [hbase]) j hj
    | gt =>
        obtain rfl : base = 0 := h.reached.resolve_right fun hne => hne hbase
        refine Or.inr ⟨0, by simp [hbase], by omega, fun j hj => absurd hj (Nat.not_lt_zero j), ?_⟩
        intro j _ hj
        rcases Nat.eq_zero_or_pos j with rfl | hpos
        · exact hbase
        · exact h.behind j (by omega) hj

end Halving

namespace TreeBuilder

variable {b : TreeBuilder} {parent : Option RowId} {location : Location}

/-- How the sibling at a position compares to a location. -/
def orderAt (b : TreeBuilder) (ids : List RowId) (location : Location) (i : Nat) : Ordering :=
  compare (b.row (ids.getD i 0)).location location

/-- The row at a location below a parent, created if it is missing; looked up by halving. -/
def findOrInsertByHalving (b : TreeBuilder) (parent : Option RowId) (location : Location) :
    RowId × TreeBuilder :=
  let ids := b.siblings parent
  match Halving.bisect (b.orderAt ids location) ids.length with
  | .ok i => (ids.getD i 0, b)
  | .error i =>
    let among := ids.insertIdx i b.size
    let rows := b.rows.push { location }
    (b.size,
      match parent with
      | none => { rows, roots := among }
      | some id => { b with rows := rows.modify id fun row => { row with children := among } })

theorem orderAt_of_lt {ids : List RowId} {i : Nat} (hi : i < ids.length) :
    b.orderAt ids location i = compare (b.row ids[i]).location location := by
  rw [orderAt, List.getD_eq_getElem?_getD, List.getElem?_eq_getElem hi]
  rfl

/-- Siblings that increase by location can be halved: of two of them the first comes before the location
    that is searched for, or the second comes behind it. -/
theorem increases_orderAt {ids : List RowId}
    (hinc : ids.Pairwise fun x y => (b.row x).location.Before (b.row y).location)
    (location : Location) : Halving.Increases (b.orderAt ids location) ids.length := by
  intro i j hij hj
  have hi := Nat.lt_trans hij hj
  have hbefore : (b.row ids[i]).location.Before (b.row ids[j]).location :=
    List.pairwise_iff_getElem.1 hinc i j hi hj hij
  rw [orderAt_of_lt hi, orderAt_of_lt hj]
  by_cases hfirst : (b.row ids[i]).location.Before location
  · exact Or.inl hfirst
  · refine Or.inr (Std.OrientedCmp.gt_iff_lt.2 ?_)
    by_cases heq : (b.row ids[i]).location = location
    · rwa [heq] at hbefore
    · exact (Location.before_of_not_before hfirst heq).trans hbefore

/-- A row is placed at the position that all siblings before it come before.  By induction on the
    siblings, of which those that come before are passed. -/
theorem place_eq_insertIdx {ids : List RowId} {i : Nat} (hi : i ≤ ids.length)
    (hless : ∀ j < i, b.orderAt ids location j = .lt)
    (hgreater : ∀ j, i ≤ j → j < ids.length → b.orderAt ids location j = .gt) (new : RowId) :
    b.place location new ids = ids.insertIdx i new := by
  induction ids generalizing i with
  | nil =>
      obtain rfl : i = 0 := Nat.le_zero.1 hi
      rfl
  | cons head rest ih =>
      cases i with
      | zero =>
          have hhead := hgreater 0 (Nat.le_refl 0) (Nat.zero_lt_succ _)
          rw [place_cons_of_not_before, List.insertIdx_zero]
          intro hbefore
          rw [orderAt_of_lt (Nat.zero_lt_succ _)] at hhead
          exact Ordering.noConfusion (hbefore.symm.trans hhead)
      | succ i =>
          have hhead : (b.row head).location.Before location := hless 0 (Nat.zero_lt_succ i)
          rw [place_cons_of_before hhead, List.insertIdx_succ_cons]
          refine congrArg (head :: ·) (ih (Nat.le_of_succ_le_succ hi) ?_ ?_)
          · exact fun j hj => hless (j + 1) (Nat.succ_lt_succ hj)
          · exact fun j hj hlt => hgreater (j + 1) (Nat.succ_le_succ hj) (Nat.succ_lt_succ hlt)

/-- A row can be put behind the others before or after its number is put among its siblings. -/
theorem push_modify {rows : Array Row} {id : RowId} (hid : id < rows.size) (new : Row)
    (f : Row → Row) : (rows.push new).modify id f = (rows.modify id f).push new := by
  refine Array.ext_getElem? fun k => ?_
  rw [Array.getElem?_modify, Array.getElem?_push, Array.getElem?_push, Array.getElem?_modify,
    Array.size_modify]
  by_cases hk : k = rows.size
  · rw [if_pos hk, if_neg (Nat.ne_of_lt (hk ▸ hid)), if_pos hk]
  · rw [if_neg hk, if_neg hk]

/-- **Halving comes to the same** as going through the siblings, since they increase.  Found or not,
    both end with the same row at the same position. -/
theorem findOrInsertByHalving_eq (hs : b.forest.Shaped)
    (hparent : ∀ p, parent = some p → p < b.size) (location : Location) :
    b.findOrInsertByHalving parent location = b.findOrInsert parent location := by
  have hincreasing : (b.siblings parent).Pairwise fun x y =>
      (b.row x).location.Before (b.row y).location := hs.increasing parent
  rcases Halving.bisect_cases (increases_orderAt hincreasing location) with
    ⟨i, hbisect, hi, heq⟩ | ⟨i, hbisect, hi, hless, hgreater⟩
  · rw [orderAt_of_lt hi] at heq
    have hlocation := Std.LawfulEqOrd.eq_of_compare heq
    have hmem := List.getElem_mem hi
    have hhalving : b.findOrInsertByHalving parent location = ((b.siblings parent)[i], b) := by
      rw [findOrInsertByHalving]
      simp only [hbisect, List.getD_eq_getElem?_getD, List.getElem?_eq_getElem hi, Option.getD_some]
    rcases findOrInsert_cases b parent location with ⟨id, hid, hl, hfind⟩ | ⟨hfresh, -⟩
    · have hsame : (b.siblings parent)[i] = id := hs.sibling_unique hmem hid (hlocation.trans hl.symm)
      rw [hhalving, hfind, hsame]
    · exact absurd hlocation (hfresh _ hmem)
  · have hfresh : ∀ id ∈ b.siblings parent, (b.row id).location ≠ location := by
      intro id hid hl
      obtain ⟨j, hj, rfl⟩ := List.getElem_of_mem hid
      have hself : b.orderAt (b.siblings parent) location j = .eq := by
        rw [orderAt_of_lt hj, hl]
        exact Std.ReflOrd.compare_self
      rcases Nat.lt_or_ge j i with hlt | hge
      · exact Ordering.noConfusion ((hless j hlt).symm.trans hself)
      · exact Ordering.noConfusion ((hgreater j hge hj).symm.trans hself)
    rcases findOrInsert_cases b parent location with ⟨id, hid, hl, -⟩ | ⟨-, hfind⟩
    · exact absurd hl (hfresh id hid)
    · rw [hfind, findOrInsertByHalving, insert.eq_def]
      simp only [hbisect, place_eq_insertIdx hi hless hgreater]
      cases parent with
      | none => rfl
      | some p =>
          have hp : p < b.rows.size := hparent p rfl
          simp only [push_modify hp]

end TreeBuilder

end HeapProfile
