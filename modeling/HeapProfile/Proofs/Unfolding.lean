import HeapProfile.Folded
import HeapProfile.Proofs.Documents
import HeapProfile.Proofs.Inversion

/-!
# Unfolding — a folded file taken apart again

A file of folded stacks has one line for each stack.  Taking it apart cuts it at line breaks, a line at
its last blank, and what stands in front of that at semicolons.  `Unfolds` says that this gives back the
stacks in order, each with the frames on the way down to its row and with its weight.

Frames have their blanks and semicolons replaced, so a line is always taken apart into what it was made
of.  Line breaks are not replaced, and the lines are found again only as long as no frame has one.

* **`CostTree.tells_line`** — a line is cut into its frames and its weight;
* **`unfolds_iff`** — the file is taken apart into its stacks if and only if no function on the way to
  a row that costs something has a line break in its name.
-/

namespace HeapProfile

/-! ## Cutting and joining -/

section

variable {α : Type}

/-- Cutting at a sign gives a piece more than there are such signs. -/
theorem length_splitOn [BEq α] (x : α) (text : List α) : (text.splitOn x).length = text.count x + 1 := by
  induction text with
  | nil => rfl
  | cons c text ih =>
      rw [List.splitOn_cons_eq_if_modifyHead, List.count_cons]
      split
      · rw [List.length_cons, ih]
      · rw [List.length_modifyHead, ih, Nat.add_zero]

/-- Pieces that end with a sign of their own are joined by it, with nothing behind the last one. -/
theorem flatten_ended (x : α) (pieces : List (List α)) :
    (pieces.map (· ++ [x])).flatten = [x].intercalate (pieces ++ [[]]) := by
  induction pieces with
  | nil => rfl
  | cons piece pieces ih =>
      obtain ⟨next, rest, hnext⟩ : ∃ next rest, pieces ++ [[]] = next :: rest :=
        List.exists_cons_of_ne_nil (by simp)
      rw [List.map_cons, List.flatten_cons, ih, List.cons_append, hnext, List.intercalate_cons_cons,
        List.append_assoc]

/-- What stands in a part stands in the text of all parts.  By induction on the parts; the last one has
    no separator behind it. -/
theorem mem_intercalate_of_mem {separator : List α} {parts : List (List α)} {part : List α} {c : α}
    (hpart : part ∈ parts) (hc : c ∈ part) : c ∈ separator.intercalate parts := by
  induction parts with
  | nil => exact nomatch hpart
  | cons first rest ih =>
      cases rest with
      | nil =>
          rw [List.intercalate_singleton, ← List.mem_singleton.1 hpart]
          exact hc
      | cons next rest =>
          rw [List.intercalate_cons_cons, List.mem_append, List.mem_append]
          rcases List.mem_cons.1 hpart with rfl | hpart
          · exact Or.inl (Or.inl hc)
          · exact Or.inr (ih hpart)

end

/-- A line cut at its last blank: the part in front of it, cut at semicolons, and the part behind. -/
def cutLine (line : List Char) : List (List Char) × List Char :=
  ((line.rdropWhile (· != ' ')).dropLast.splitOn ';', line.rtakeWhile (· != ' '))

/-- Frames without blanks and semicolons in front of a weight without blanks are found again: the last
    blank of the line stands in front of the weight, and semicolons stand between frames only. -/
theorem cutLine_intercalate {frames : List (List Char)} {weight : List Char} (hne : frames ≠ [])
    (hsemicolon : ∀ frame ∈ frames, ';' ∉ frame) (hweight : ' ' ∉ weight) :
    cutLine ([';'].intercalate frames ++ ' ' :: weight) = (frames, weight) := by
  have hnoblank : ∀ c ∈ weight.reverse, (c != ' ') = true := by
    intro c hc
    rw [bne_iff_ne]
    rintro rfl
    exact hweight (List.mem_reverse.1 hc)
  have hback : ([';'].intercalate frames ++ ' ' :: weight).reverse
      = weight.reverse ++ ' ' :: ([';'].intercalate frames).reverse := by simp
  have hfront : ([';'].intercalate frames ++ ' ' :: weight).rdropWhile (· != ' ')
      = [';'].intercalate frames ++ [' '] := by
    rw [List.rdropWhile, hback, List.dropWhile_append_of_pos hnoblank]
    simp
  have hbehind : ([';'].intercalate frames ++ ' ' :: weight).rtakeWhile (· != ' ') = weight := by
    rw [List.rtakeWhile, hback, List.takeWhile_append_of_pos hnoblank]
    simp
  rw [cutLine, hfront, hbehind, List.dropLast_concat, List.splitOn_intercalate ';' hsemicolon hne]

/-! ## Frames and lines -/

theorem toList_frameName (function : String) :
    (frameName function).toList
      = function.toList.map fun c => if c = ';' ∨ c = ' ' then '_' else c :=
  String.toList_map

theorem semicolon_not_mem_frameName (function : String) : ';' ∉ (frameName function).toList := by
  rw [toList_frameName, List.mem_map]
  rintro ⟨c, -, hc⟩
  split at hc
  · exact absurd hc (by decide)
  · next hkept => exact hkept (Or.inl hc)

/-- A line break in the name of a function is the one thing that is not replaced. -/
theorem newline_mem_frameName {function : String} :
    '\n' ∈ (frameName function).toList ↔ '\n' ∈ function.toList := by
  rw [toList_frameName, List.mem_map]
  constructor
  · rintro ⟨c, hmem, hc⟩
    split at hc
    · exact absurd hc (by decide)
    · exact hc ▸ hmem
  · exact fun hmem => ⟨'\n', hmem, by decide⟩

namespace FoldedStack

theorem toList_line (s : FoldedStack) :
    s.line.toList = s.stack.toList ++ ' ' :: Json.digits s.weight := by
  rw [line, String.toList_append, String.toList_append, List.append_assoc, Json.toList_toString]
  rfl

/-- Every line break of a line is one of its stack. -/
theorem newline_mem_line (s : FoldedStack) : '\n' ∈ s.line.toList ↔ '\n' ∈ s.stack.toList := by
  rw [toList_line, List.mem_append, List.mem_cons]
  refine ⟨fun h => ?_, Or.inl⟩
  rcases h with h | h | h
  · exact h
  · exact absurd h (by decide)
  · exact absurd (Json.isDigit_of_mem_digits h) (by decide)

end FoldedStack

theorem toList_foldedText (folded : List FoldedStack) :
    (foldedText folded).toList = ((folded.map fun s => s.line.toList).map (· ++ ['\n'])).flatten := by
  rw [foldedText, String.toList_join, List.flatMap_def, List.map_map, List.map_map]
  congr 1
  refine List.map_congr_left fun s _ => ?_
  exact String.toList_append

namespace CostTree

variable {t d : CostTree} {field : CostField}

/-! ## The rows behind the stacks -/

/-- The stack of a row, whether or not the row costs something itself. -/
def stackOf (t : CostTree) (field : CostField) (id : RowId) : FoldedStack where
  stack := String.intercalate ";" (t.frames id)
  weight := (t.selfCost id).get field

/-- A line tells of a row: it is cut into the functions on the way down to the row, with their blanks and
semicolons replaced, and what the row costs itself. -/
def Tells (t : CostTree) (field : CostField) (id : RowId) (line : List Char) : Prop :=
  ∃ path, t.RowAt path id ∧
    cutLine line = (path.map fun l => (frameName l.function).toList,
      (toString ((t.selfCost id).get field).toNat).toList)

/-- Cutting the folded file of a tree gives back its stacks: in the order of the stacks one line for each
row that costs something itself, and nothing behind the last line break. -/
def Unfolds (t : CostTree) (field : CostField) : Prop :=
  ∃ rows lines, rows.Nodup ∧
    (∀ id, id ∈ rows ↔ id < t.size ∧ (t.selfCost id).get field ≠ 0) ∧
    t.folded field = rows.map (t.stackOf field) ∧
    (foldedText (t.folded field)).toList.splitOn '\n' = lines ++ [[]] ∧
    List.Forall₂ (t.Tells field) rows lines

/-- The rows that cost something themselves, in the order of their stacks. -/
def foldedRows (t : CostTree) (field : CostField) : List RowId :=
  (t.depthFirst.filter fun id => (t.selfCost id).get field ≠ 0).mergeSort fun a b =>
    (t.stackOf field a).listedBefore (t.stackOf field b)

/-- **The folded form, row by row**: the stacks of the rows with a cost of their own, heavier ones
    first.  Sorting the stacks and sorting the rows by their stacks is the same. -/
theorem folded_eq (t : CostTree) (field : CostField) :
    t.folded field = (t.foldedRows field).map (t.stackOf field) := by
  have hrows : t.depthFirst.filterMap (t.foldedRow? field)
      = (t.depthFirst.filter fun id => (t.selfCost id).get field ≠ 0).map (t.stackOf field) := by
    induction t.depthFirst with
    | nil => rfl
    | cons id ids ih =>
        have hrow : t.foldedRow? field id
            = if (t.selfCost id).get field = 0 then none else some (t.stackOf field id) := rfl
        by_cases hzero : (t.selfCost id).get field = 0
        · rw [if_pos hzero] at hrow
          rw [List.filterMap_cons_none hrow, List.filter_cons_of_neg (by simpa using hzero), ih]
        · rw [if_neg hzero] at hrow
          rw [List.filterMap_cons_some hrow, List.filter_cons_of_pos (by simpa using hzero),
            List.map_cons, ih]
  rw [folded, hrows, foldedRows]
  exact (List.map_mergeSort (s := FoldedStack.listedBefore) (f := t.stackOf field)
    fun _ _ _ _ => rfl).symm

theorem nodup_foldedRows (hl : t.Linked) (field : CostField) : (t.foldedRows field).Nodup :=
  (List.mergeSort_perm _ _).nodup_iff.2 (hl.nodup.filter _)

theorem mem_foldedRows (hs : t.Shaped) (hl : t.Linked) {id : RowId} :
    id ∈ t.foldedRows field ↔ id < t.size ∧ (t.selfCost id).get field ≠ 0 := by
  have hdepth : id ∈ t.depthFirst ↔ id < t.size := by
    refine ⟨hl.lists.lt_size hs (fun r hr => hs.lt_size (show r ∈ t.siblings none from hr)) id,
      fun hid => ?_⟩
    obtain ⟨path, hpath⟩ := exists_leads hs hid
    exact hl.mem_depthFirst hpath id rfl
  rw [foldedRows, (List.mergeSort_perm _ _).mem_iff, List.mem_filter, hdepth, decide_eq_true_iff]

/-- The frames of a row are the functions on its path. -/
theorem frames_eq (hl : t.Linked) {path : List Location} {id : RowId}
    (hpath : t.RowAt path id) : t.frames id = path.map fun l => frameName l.function := by
  have hup : (t.ancestry id).map t.locationAt = path.reverse := hl.pathUp_eq_reverse hpath
  have hdown : (t.ancestry id).reverse.map t.locationAt = path := by
    rw [List.map_reverse, hup, List.reverse_reverse]
  rw [frames, ← hdown, List.map_map]
  rfl

theorem toList_stackOf (hl : t.Linked) {path : List Location} {id : RowId}
    (hpath : t.RowAt path id) : (t.stackOf field id).stack.toList
      = [';'].intercalate (path.map fun l => (frameName l.function).toList) := by
  rw [stackOf, String.toList_intercalate, frames_eq hl hpath, List.map_map]
  rfl

/-- **A line is cut into its frames and its weight.**  Frames have no semicolons and no blanks, and
    there is at least one, since a path is never empty. -/
theorem tells_line (hs : t.Shaped) (hl : t.Linked) {id : RowId} (hid : id < t.size) :
    t.Tells field id (t.stackOf field id).line.toList := by
  obtain ⟨path, hpath⟩ := exists_leads hs hid
  refine ⟨path, hpath, ?_⟩
  rw [FoldedStack.toList_line, toList_stackOf hl hpath, Json.toList_toString]
  refine cutLine_intercalate ?_ ?_ ?_
  · exact mt List.map_eq_nil_iff.1 (rowAt_ne_nil hpath)
  · exact List.forall_mem_map.2 fun l _ => semicolon_not_mem_frameName l.function
  · exact fun hblank => absurd (Json.isDigit_of_mem_digits hblank) (by decide)

/-- The locations on a path are those of rows. -/
theorem Leads.exists_row (hs : t.Shaped) {path : List Location} {at' : Option RowId}
    (h : t.Leads path at') {l : Location} (hl : l ∈ path) : ∃ id < t.size, t.locationAt id = l := by
  induction h with
  | top => exact nomatch hl
  | @down _ _ id _ hid ih =>
      rcases List.mem_append.1 hl with hl | hl
      · exact ih hl
      · exact ⟨id, hs.lt_size hid, (List.mem_singleton.1 hl).symm⟩

/-! ## Line breaks -/

/-- Lines without line breaks are found again, with nothing behind the last line break. -/
theorem splitOn_foldedText {folded : List FoldedStack} (h : ∀ s ∈ folded, '\n' ∉ s.line.toList) :
    (foldedText folded).toList.splitOn '\n' = folded.map (fun s => s.line.toList) ++ [[]] := by
  rw [toList_foldedText, flatten_ended, List.splitOn_intercalate '\n' ?_ (by simp)]
  intro line hline
  rcases List.mem_append.1 hline with hline | hline
  · obtain ⟨s, hs, rfl⟩ := List.mem_map.1 hline
    exact h s hs
  · rw [List.mem_singleton.1 hline]
    exact List.not_mem_nil

/-- If there are as many lines as stacks, then no stack has a line break.  Each stack makes one line at
    least, and every line break in it one more. -/
theorem newline_not_mem_of_length {folded : List FoldedStack}
    (h : ((foldedText folded).toList.splitOn '\n').length = folded.length + 1) :
    ∀ s ∈ folded, '\n' ∉ s.line.toList := by
  rw [length_splitOn, Nat.add_right_cancel_iff, toList_foldedText] at h
  induction folded with
  | nil => exact List.forall_mem_nil _
  | cons s folded ih =>
      -- every line brings a line break of its own, so there is none beside
      have hrest (folded : List FoldedStack) : folded.length ≤
          ((folded.map fun s => s.line.toList).map (· ++ ['\n'])).flatten.count '\n' := by
        induction folded with
        | nil => exact Nat.le_refl _
        | cons s folded ih =>
            simp only [List.map_cons, List.flatten_cons, List.count_append, List.length_cons,
              List.count_singleton_self]
            omega
      simp only [List.map_cons, List.flatten_cons, List.count_append, List.length_cons,
        List.count_singleton_self] at h
      have hle := hrest folded
      refine List.forall_mem_cons.2 ⟨List.count_eq_zero.1 (by omega), ih (by omega)⟩

/-- A stack has a line break where the name of a function on its path has one. -/
theorem newline_mem_stackOf (hl : t.Linked) {path : List Location} {id : RowId}
    (hpath : t.RowAt path id) :
    '\n' ∈ (t.stackOf field id).line.toList ↔ ∃ l ∈ path, '\n' ∈ l.function.toList := by
  rw [FoldedStack.newline_mem_line, toList_stackOf hl hpath]
  constructor
  · intro hbreak
    rcases Json.mem_intercalate hbreak with hbreak | ⟨frame, hframe, hbreak⟩
    · exact absurd hbreak (by decide)
    · obtain ⟨l, hmem, rfl⟩ := List.mem_map.1 hframe
      exact ⟨l, hmem, newline_mem_frameName.1 hbreak⟩
  · rintro ⟨l, hmem, hbreak⟩
    exact mem_intercalate_of_mem (List.mem_map_of_mem hmem) (newline_mem_frameName.2 hbreak)

/-- In a file that is taken apart into its stacks no name on the way to a row that costs something has a
line break: the line of the row would be two. -/
theorem Unfolds.newline_not_mem (hs : t.Shaped) (hl : t.Linked) (h : t.Unfolds field)
    {path : List Location} {id : RowId} (hpath : t.RowAt path id)
    (hcost : (t.selfCost id).get field ≠ 0) : ∀ l ∈ path, '\n' ∉ l.function.toList := by
  obtain ⟨rows, lines, -, hrows, hfolded, hsplit, htells⟩ := h
  have hlength : ((foldedText (t.folded field)).toList.splitOn '\n').length
      = (t.folded field).length + 1 := by
    rw [hsplit, List.length_append, ← htells.length_eq, hfolded, List.length_map]
    rfl
  have hid : id ∈ rows := (hrows id).2 ⟨hpath.lt_size hs, hcost⟩
  have hmem : t.stackOf field id ∈ t.folded field := hfolded ▸ List.mem_map_of_mem hid
  intro l hl' hbreak
  exact newline_not_mem_of_length hlength _ hmem ((newline_mem_stackOf hl hpath).2 ⟨l, hl', hbreak⟩)

/-- A file whose names have no line breaks is taken apart into its stacks: the breaks are then those
    between the lines. -/
theorem unfolds_of_newline_not_mem (hs : t.Shaped) (hl : t.Linked)
    (hnames : ∀ path id, t.RowAt path id → (t.selfCost id).get field ≠ 0 →
      ∀ l ∈ path, '\n' ∉ l.function.toList) : t.Unfolds field := by
  have hrow : ∀ id ∈ t.foldedRows field, '\n' ∉ (t.stackOf field id).line.toList := by
    intro id hid hbreak
    obtain ⟨hsize, hcost⟩ := (mem_foldedRows hs hl).1 hid
    obtain ⟨path, hpath⟩ := exists_leads hs hsize
    obtain ⟨l, hmem, hbreak⟩ := (newline_mem_stackOf hl hpath).1 hbreak
    exact hnames path id hpath hcost l hmem hbreak
  refine ⟨t.foldedRows field, (t.foldedRows field).map fun id => (t.stackOf field id).line.toList,
    nodup_foldedRows hl field, fun id => mem_foldedRows hs hl, folded_eq t field, ?_, ?_⟩
  · rw [folded_eq, splitOn_foldedText (List.forall_mem_map.2 hrow), List.map_map]
    rfl
  · rw [List.forall₂_map_right_iff, List.forall₂_same]
    exact fun id hid => tells_line hs hl ((mem_foldedRows hs hl).1 hid).1

/-- **A folded file is unambiguous but for line breaks.**  The file of a top-down tree is taken apart
into its stacks, one line for each row that costs something itself, with the functions on the way down to
the row and with its weight, if and only if no function on the way to such a row has a line break in its
name.  Blanks and semicolons in names never do harm. -/
theorem unfolds_iff (h : t.invert = .ok d) (field : CostField) :
    d.Unfolds field ↔ ∀ path id, d.RowAt path id → (d.selfCost id).get field ≠ 0 →
      ∀ l ∈ path, '\n' ∉ l.function.toList := by
  obtain ⟨hs, hl, -⟩ := TreeBuilder.trie_of_finish (finish_of_invert h)
  exact ⟨fun hunfolds _ _ => hunfolds.newline_not_mem hs hl, unfolds_of_newline_not_mem hs hl⟩

/-- A nameless function that is called by `operator new;`, and that by itself. -/
def namelessSite : CostTree where
  rows := #[{ location := {}, cost := { allocated := 9 }, children := [1] },
    { location := { function := "operator new;" }, cost := { allocated := 7 }, parent := some 0,
      children := [2] },
    { location := { function := "operator new;" }, cost := { allocated := 4 }, parent := some 1 }]
  roots := [0]

/-- The same paths from their callers on. -/
def namelessCallee : CostTree where
  rows := #[{ location := {}, cost := { allocated := 2 } },
    { location := { function := "operator new;" }, cost := { allocated := 7 }, children := [2, 3] },
    { location := {}, cost := { allocated := 3 }, parent := some 1 },
    { location := { function := "operator new;" }, cost := { allocated := 4 }, parent := some 1,
      children := [4] },
    { location := {}, cost := { allocated := 4 }, parent := some 3 }]
  roots := [0, 1]

theorem unfolds_iff_sample :
    namelessSite.invert = .ok namelessCallee ∧ namelessCallee.Unfolds .allocated := by
  have hinvert : namelessSite.invert = .ok namelessCallee := by rfl
  have hnames : ∀ id < namelessCallee.size,
      '\n' ∉ (namelessCallee.locationAt id).function.toList := by decide
  have hshaped := (TreeBuilder.trie_of_finish (finish_of_invert hinvert)).1
  refine ⟨hinvert, (unfolds_iff hinvert .allocated).2 fun path id hpath _ l hmem => ?_⟩
  obtain ⟨row, hrow, rfl⟩ := hpath.exists_row hshaped hmem
  exact hnames row hrow

/-- One function, with a line break in its name. -/
def brokenName : CostTree where
  rows := #[{ location := { function := "read\nwrite" }, cost := { allocated := 10 } }]
  roots := [0]

/-- A line break in a name makes two lines of one stack. -/
theorem not_unfolds_brokenName :
    brokenName.invert = .ok brokenName ∧ ¬ brokenName.Unfolds .allocated := by
  have hinvert : brokenName.invert = .ok brokenName := by rfl
  obtain ⟨hs, hl, -⟩ := TreeBuilder.trie_of_finish (finish_of_invert hinvert)
  have hpath : brokenName.RowAt [brokenName.locationAt 0] 0 :=
    Leads.down (t := brokenName) .top (show 0 ∈ brokenName.roots by decide)
  refine ⟨hinvert, fun hunfolds => ?_⟩
  exact hunfolds.newline_not_mem hs hl hpath (by decide) _ List.mem_cons_self (by decide)

end CostTree

end HeapProfile
