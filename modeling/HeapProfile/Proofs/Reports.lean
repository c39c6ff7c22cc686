import HeapProfile.Proofs.Assembly
import HeapProfile.Proofs.Indentation
import HeapProfile.Proofs.Storage

/-!
# Reports — a report is read back from its file

The document of a report is made of records, sequences and maps, and each of them is decoded as what it
was made from: a row of a forest leaves out a parent or children that it does not have and finds them
missing, and it shares its object with its cost; a row of a chart finds its label numbers in the names.
Brackets nest six deep and never deeper, however long the call paths are.

* **`FlatRow.decodes`** and **`LabelValues.decodes`** — the two documents that are not simply records;
* **`Report.decodes`** — the document of a report is decoded as the report;
* **`Report.readReport_writeReport`** — a report is read back from its text, from the bytes of its text,
  and from the file that it was written to.
-/

namespace HeapProfile

open Json

/-! ## Plain documents -/

namespace Json

/-- A word is plain at any depth: it has no brackets and no decimals. -/
@[simp] theorem isPlain_word (room : Nat) (n : UInt64) : IsPlain room (.word n) := by
  cases room <;> exact ⟨n, rfl⟩

/-- So is a short word. -/
@[simp] theorem isPlain_word32 (room : Nat) (n : UInt32) : IsPlain room (.word32 n) :=
  isPlain_word room n.toUInt64

/-- A string is plain at any depth, whatever its text. -/
@[simp] theorem isPlain_string (room : Nat) (s : String) : IsPlain room (.string s) := by
  cases room <;> trivial

/-- An object is plain if its members are, one bracket further in. -/
@[simp] theorem isPlain_object (room : Nat) (members : List (String × Value)) :
    IsPlain (room + 1) (.object members) ↔ ∀ member ∈ members, IsPlain room member.2 := Iff.rfl

/-- A sequence is as plain as its elements. -/
theorem isPlain_array {α : Type} {room : Nat} {toValue : α → Value} (answers : List α)
    (h : ∀ answer, IsPlain room (toValue answer)) : IsPlain (room + 1) (.array (answers.map toValue)) :=
  List.forall_mem_map.2 fun answer _ => h answer

/-- Numbers of rows are words to the decoder, and every word is within its limit. -/
theorem rowNumber_of_holds {room : Nat} {n : UInt64} {r : Reading} (h : Holds room (.word n) r) :
    Decoder.rowNumber r = .ok n := by
  have hlimit : n.toNat ≤ UInt64.size - 1 := Nat.le_pred_of_lt n.toNat_lt
  rw [Decoder.rowNumber, whole_of_holds hlimit h]
  exact congrArg _ UInt64.ofNat_toNat

end Json

variable {room : Nat} {named : List (Key × Reading)}

/-! ## Forests -/

namespace Location

/-- A location is plain, one bracket deep. -/
theorem isPlain_toValue (l : Location) : IsPlain (room + 1) l.toValue := by
  simp [toValue]

/-- The document of a location is decoded as the location: four fields of different names,
    each found once. -/
theorem decodes (l : Location) :
    Decodes (fields.record "struct Location") (room + 1) l.toValue l := by
  refine Fields.decodes_record fun named h => ?_
  have hfunction : (Fields.required "function" Decoder.text).Yields named l.function :=
    Fields.yields_required h.shows rfl fun _ => text_of_holds
  have hfile : (Fields.required "file" Decoder.text).Yields named l.file :=
    Fields.yields_required h.shows rfl fun _ => text_of_holds
  have hmodule : (Fields.required "module" Decoder.text).Yields named l.module :=
    Fields.yields_required h.shows rfl fun _ => text_of_holds
  have hline : (Fields.required "line" Decoder.word32).Yields named l.line :=
    Fields.yields_required h.shows rfl fun _ => word32_of_holds
  exact (hfunction.and (by decide) (hfile.and (by decide) (hmodule.and (by decide) hline))).map _

end Location

namespace Cost

/-- A cost is yielded by its four members wherever they stand; the fields of a row find them among its
    own. -/
theorem yields_members (c : Cost) (h : HoldsMembers room c.members named) : fields.Yields named c := by
  have hallocations : (Fields.required "allocations" Decoder.word).Yields named c.allocations :=
    Fields.yields_required h.shows rfl fun _ => word_of_holds
  have hpeak : (Fields.required "peak" Decoder.word).Yields named c.peak :=
    Fields.yields_required h.shows rfl fun _ => word_of_holds
  have hleaked : (Fields.required "leaked" Decoder.word).Yields named c.leaked :=
    Fields.yields_required h.shows rfl fun _ => word_of_holds
  have hallocated : (Fields.required "allocated" Decoder.word).Yields named c.allocated :=
    Fields.yields_required h.shows rfl fun _ => word_of_holds
  exact (hallocations.and (by decide)
    (hpeak.and (by decide) (hleaked.and (by decide) hallocated))).map _

end Cost

namespace FlatRow

/-- The members of the document of a row. -/
def members (row : FlatRow) : List (String × Value) :=
  ("location", row.location.toValue) :: row.cost.members ++
    (row.parent.map fun parent => ("parent", .word parent)).toList ++
    if row.children.isEmpty then [] else [("children", .array (row.children.map Value.word))]

/-- The members that are none of a row's own fields are those of its cost. -/
theorem others_members (row : FlatRow) : fields.others row.members = row.cost.members := by
  obtain ⟨location, cost, parent, children⟩ := row
  cases parent <;> cases children <;> rfl

/-- The parent of a row is found if it is written, and found missing if the row is a root. -/
theorem yields_parent (row : FlatRow) (h : HoldsMembers room row.members named) :
    (Fields.withDefault "parent" none (Decoder.optional Decoder.rowNumber)).Yields named
      row.parent := by
  obtain ⟨location, cost, parent, children⟩ := row
  cases parent with
  | none => exact Fields.yields_of_absent none h.shows (by cases children <;> rfl)
  | some parent =>
      have hoptional : Decodes (Decoder.optional Decoder.rowNumber) room (.word parent) (some parent) :=
        Decodes.optional (fun hnull => nomatch hnull) fun _ => rowNumber_of_holds
      exact Fields.yields_withDefault none h.shows (by cases children <;> rfl) hoptional

/-- The children of a row are found if they are written, and none are found if the row is a leaf. -/
theorem yields_children (row : FlatRow) (h : HoldsMembers (room + 1) row.members named) :
    (Fields.withDefault "children" [] (Decoder.list Decoder.rowNumber)).Yields named row.children := by
  obtain ⟨location, cost, parent, children⟩ := row
  cases children with
  | nil => exact Fields.yields_of_absent [] h.shows (by cases parent <;> rfl)
  | cons child children =>
      have hlist : Decodes (Decoder.list Decoder.rowNumber) (room + 1)
          (.array ((child :: children).map Value.word)) (child :: children) :=
        Decodes.list fun _ _ => rowNumber_of_holds
      exact Fields.yields_withDefault [] h.shows (by cases parent <;> rfl) hlist

/-- The three fields that a row has beside its cost are yielded by its members, the written ones and the
    missing ones. -/
theorem yields_members (row : FlatRow) (h : HoldsMembers (room + 1) row.members named) :
    fields.Yields named (row.location, row.parent, row.children) := by
  have hlocation : (Fields.required "location" (Location.fields.record "struct Location")).Yields named
      row.location := by
    refine Fields.yields_required h.shows ?_ row.location.decodes
    obtain ⟨location, cost, parent, children⟩ := row
    cases parent <;> cases children <;> rfl
  exact hlocation.and (by decide) ((row.yields_parent h).and (by decide) (row.yields_children h))

/-- **The document of a row is decoded as the row:** the fields of its cost are found among its own, and
what is left out is what it does not have. -/
theorem decodes (row : FlatRow) : Decodes ask (memberDepth + 1) row.toValue row := by
  intro r hr
  have hboth : fields.recordWith Cost.fields "struct FlatRow" memberDepth r
      = .ok ((row.location, row.parent, row.children), row.cost) :=
    Fields.decodes_recordWith (fun _ h => row.yields_members h)
      (fun _ h => row.cost.yields_members (row.others_members ▸ h)) r hr
  rw [ask, hboth]
  rfl

/-- A row is plain, two brackets deep: its location and its children are inside its own. -/
theorem isPlain_toValue (row : FlatRow) : IsPlain (room + 2) row.toValue := by
  have hlocation : IsPlain (room + 1) row.location.toValue := row.location.isPlain_toValue
  have hchildren : IsPlain (room + 1) (.array (row.children.map Value.word)) :=
    isPlain_array _ (isPlain_word room)
  obtain ⟨location, cost, parent, children⟩ := row
  cases parent <;> cases children <;> simp_all [toValue, Cost.members]

end FlatRow

namespace FlatTree

/-- **The document of a forest is decoded as the forest.** -/
theorem decodes (t : FlatTree) : Decodes ask (FlatRow.memberDepth + 3) t.toValue t := by
  refine Fields.decodes_record fun named h => ?_
  have hroots : (Fields.required "roots" (Decoder.list Decoder.rowNumber)).Yields named t.roots :=
    Fields.yields_required h.shows rfl (Decodes.list fun _ _ => rowNumber_of_holds)
  have hrows : (Fields.required "rows" (Decoder.list FlatRow.ask)).Yields named t.rows :=
    Fields.yields_required h.shows rfl (Decodes.list FlatRow.decodes)
  exact (hroots.and (by decide) hrows).map _

/-- A forest is plain, four brackets deep, however far its rows are below its roots: rows name their
    children by number. -/
theorem isPlain_toValue (t : FlatTree) : IsPlain (room + 4) t.toValue := by
  have hroots : IsPlain (room + 3) (.array (t.roots.map Value.word)) :=
    isPlain_array _ (isPlain_word _)
  have hrows : IsPlain (room + 3) (.array (t.rows.map FlatRow.toValue)) :=
    isPlain_array _ FlatRow.isPlain_toValue
  simp [toValue, hroots, hrows]

end FlatTree

/-! ## Summaries -/

namespace Summary

/-- The document of a summary is decoded as the summary. -/
theorem decodes (s : Summary) :
    Decodes (fields.record "struct Summary") (room + 1) s.toValue s := by
  refine Fields.decodes_record fun named h => ?_
  have hdebuggee : (Fields.required "debuggee" Decoder.text).Yields named s.debuggee :=
    Fields.yields_required h.shows rfl fun _ => text_of_holds
  have htime : (Fields.required "total_time_ms" Decoder.word).Yields named s.totalTimeMs :=
    Fields.yields_required h.shows rfl fun _ => word_of_holds
  have hallocated : (Fields.required "total_allocated" Decoder.word).Yields named s.totalAllocated :=
    Fields.yields_required h.shows rfl fun _ => word_of_holds
  have hallocations :
      (Fields.required "total_allocations" Decoder.word).Yields named s.totalAllocations :=
    Fields.yields_required h.shows rfl fun _ => word_of_holds
  have hpeak : (Fields.required "peak" Decoder.word).Yields named s.peak :=
    Fields.yields_required h.shows rfl fun _ => word_of_holds
  have hleaked : (Fields.required "leaked" Decoder.word).Yields named s.leaked :=
    Fields.yields_required h.shows rfl fun _ => word_of_holds
  exact (hdebuggee.and (by decide) (htime.and (by decide) (hallocated.and (by decide)
    (hallocations.and (by decide) (hpeak.and (by decide) hleaked))))).map _

/-- A summary is plain, one bracket deep. -/
theorem isPlain_toValue (s : Summary) : IsPlain (room + 1) s.toValue := by
  simp [toValue]

end Summary

/-! ## Charts -/

namespace LabelValues

/-- An entry is added behind those of smaller numbers. -/
theorem insertEntry_of_lt {id : UInt32} {value : UInt64} {entries : List (UInt32 × UInt64)}
    (h : ∀ e ∈ entries, e.1 < id) : insertEntry id value entries = entries ++ [(id, value)] := by
  induction entries with
  | nil => rfl
  | cons entry entries ih =>
      rw [List.forall_mem_cons] at h
      have hne : ¬ id = entry.1 := fun heq => UInt32.lt_irrefl _ (heq ▸ h.1)
      rw [insertEntry, if_neg (UInt32.lt_asymm h.1), if_neg hne, ih h.2, List.cons_append]

/-- Values that are set entry after entry are those values. -/
theorem ofList_entries (values : LabelValues) : ofList values.entries = values := by
  have hset (rest : List (UInt32 × UInt64)) (before : LabelValues)
      (h : (before.entries ++ rest).Pairwise fun a b => a.1 < b.1) :
      (rest.foldl (fun values e => values.insert e.1 e.2) before).entries = before.entries ++ rest := by
    induction rest generalizing before with
    | nil => exact (List.append_nil _).symm
    | cons e rest ih =>
        have hless : ∀ a ∈ before.entries, a.1 < e.1 := fun a ha =>
          (List.pairwise_append.1 h).2.2 a ha e List.mem_cons_self
        have hinsert : (before.insert e.1 e.2).entries = before.entries ++ [e] :=
          insertEntry_of_lt hless
        have hafter := ih (before.insert e.1 e.2)
        rw [hinsert, List.append_assoc, List.singleton_append] at hafter
        exact hafter h
  have hentries : (ofList values.entries).entries = values.entries :=
    hset values.entries empty values.increasing
  cases hsame : ofList values.entries with
  | mk entries increasing =>
      cases values
      rw [hsame] at hentries
      cases hentries
      rfl

/-- **The document of label values is decoded as the values:** the names of its members are the digits of
the numbers. -/
theorem decodes (values : LabelValues) : Decodes ask (room + 1) values.toValue values := by
  intro r hr
  have hnumbered : Decoder.numbered Decoder.word r = .ok values.entries :=
    Decodes.numbered (fun _ _ => word_of_holds) r hr
  rw [ask, hnumbered]
  exact congrArg Except.ok values.ofList_entries

/-- The values of a row are plain, one bracket deep. -/
theorem isPlain_toValue (values : LabelValues) : IsPlain (room + 1) values.toValue :=
  List.forall_mem_map.2 fun entry _ => isPlain_word _ entry.2

end LabelValues

namespace ChartRow

/-- The document of a row of a chart is decoded as the row, label numbers included. -/
theorem decodes (row : ChartRow) :
    Decodes (fields.record "struct ChartRow") (room + 2) row.toValue row := by
  refine Fields.decodes_record fun named h => ?_
  have hstamp : (Fields.required "time_stamp" Decoder.word).Yields named row.timeStamp :=
    Fields.yields_required h.shows rfl fun _ => word_of_holds
  have hvalues : (Fields.required "cost" LabelValues.ask).Yields named row.values :=
    Fields.yields_required h.shows rfl row.values.decodes
  exact (hstamp.and (by decide) hvalues).map _

/-- A row of a chart is plain, two brackets deep. -/
theorem isPlain_toValue (row : ChartRow) : IsPlain (room + 2) row.toValue := by
  have hvalues : IsPlain (room + 1) row.values.toValue := row.values.isPlain_toValue
  simp [toValue, hvalues]

end ChartRow

namespace Chart

/-- The document of a chart is decoded as the chart. -/
theorem decodes (c : Chart) : Decodes ask (room + 4) c.toValue c := by
  refine Fields.decodes_record fun named h => ?_
  have hrows : (Fields.required "rows"
      (Decoder.list (ChartRow.fields.record "struct ChartRow"))).Yields named c.rows :=
    Fields.yields_required h.shows rfl (Decodes.list ChartRow.decodes)
  have hlabels : (Fields.required "labels" (Decoder.list Decoder.text)).Yields named c.labels :=
    Fields.yields_required h.shows rfl (Decodes.list fun _ _ => text_of_holds)
  exact (hrows.and (by decide) hlabels).map _

/-- A chart is plain, four brackets deep. -/
theorem isPlain_toValue (c : Chart) : IsPlain (room + 4) c.toValue := by
  have hrows : IsPlain (room + 3) (.array (c.rows.map ChartRow.toValue)) :=
    isPlain_array _ ChartRow.isPlain_toValue
  have hlabels : IsPlain (room + 3) (.array (c.labels.map Value.string)) :=
    isPlain_array _ (isPlain_string _)
  simp [toValue, hrows, hlabels]

end Chart

namespace ChartSet

/-- The document of the three charts is decoded as these charts, each under its own name. -/
theorem decodes (c : ChartSet) :
    Decodes (fields.record "struct ReportCharts") (room + 5) c.toValue c := by
  refine Fields.decodes_record fun named h => ?_
  have hconsumed : (Fields.required "consumed" Chart.ask).Yields named c.consumed :=
    Fields.yields_required h.shows rfl c.consumed.decodes
  have hallocations : (Fields.required "allocations" Chart.ask).Yields named c.allocations :=
    Fields.yields_required h.shows rfl c.allocations.decodes
  have hallocated : (Fields.required "allocated" Chart.ask).Yields named c.allocated :=
    Fields.yields_required h.shows rfl c.allocated.decodes
  exact (hconsumed.and (by decide) (hallocations.and (by decide) hallocated)).map _

/-- The three charts are plain, five brackets deep. -/
theorem isPlain_toValue (c : ChartSet) : IsPlain (room + 5) c.toValue := by
  have hchart (chart : Chart) : IsPlain (room + 4) chart.toValue := chart.isPlain_toValue
  simp [toValue, hchart]

end ChartSet

/-! ## Whole reports -/

/-- A report is read from a file of the bytes of one, and no file is changed. -/
theorem Output.readReport_of_readFile {files : Memory} {path : String} {bytes : ByteArray} {r : Report}
    (hfile : files.readFile path = .ok (.ok bytes))
    (hreport : Report.ofSymbols (Symbol.ofBytes bytes) = .ok r) :
    (readReport path : StateM Memory _).run files = (.ok r, files) := by
  have hread : (Host.readFile path : StateM Memory _).run files = (.ok (.ok bytes), files) :=
    congrArg (·, files) hfile
  rw [readReport, StateT.run_bind, hread]
  show ((Report.ofSymbols (Symbol.ofBytes bytes)).mapError OutputError.badDocument, files) = _
  rw [hreport]
  rfl

namespace Report

/-- **The document of a report is decoded as the report.** -/
theorem decodes (r : Report) :
    Decodes (fields.record "struct Report") Reading.maxDepth r.toValue r := by
  refine Fields.decodes_record fun named h => ?_
  have hversion : (Fields.required "version" Decoder.text).Yields named r.version :=
    Fields.yields_required h.shows rfl fun _ => text_of_holds
  have hsummary : (Fields.required "summary" (Summary.fields.record "struct Summary")).Yields named
      r.summary :=
    Fields.yields_required h.shows rfl r.summary.decodes
  have hbottomUp : (Fields.required "bottom_up" FlatTree.ask).Yields named r.bottomUp :=
    Fields.yields_required h.shows rfl r.bottomUp.decodes
  have htopDown : (Fields.required "top_down" FlatTree.ask).Yields named r.topDown :=
    Fields.yields_required h.shows rfl r.topDown.decodes
  have hcharts : (Fields.required "charts" (ChartSet.fields.record "struct ReportCharts")).Yields named
      r.charts :=
    Fields.yields_required h.shows rfl r.charts.decodes
  have htime : (Fields.required "generated_at" Decoder.text).Yields named r.generatedAt :=
    Fields.yields_required h.shows rfl fun _ => text_of_holds
  exact (hversion.and (by decide) (hsummary.and (by decide) (hbottomUp.and (by decide)
    (htopDown.and (by decide) (hcharts.and (by decide) htime))))).map _

/-- Brackets nest six deep in the document of a report. -/
theorem isPlain_toValue (r : Report) : IsPlain (room + 6) r.toValue := by
  have hsummary : IsPlain (room + 5) r.summary.toValue := r.summary.isPlain_toValue
  have hforest (t : FlatTree) : IsPlain (room + 5) t.toValue := t.isPlain_toValue
  have hcharts : IsPlain (room + 5) r.charts.toValue := r.charts.isPlain_toValue
  simp [toValue, hsummary, hforest, hcharts]

/-- The text of a report is read as the report. -/
theorem ofText_toText (r : Report) : ofText r.toText = .ok r := by
  have hplain : IsPlain (121 + 6) r.toValue := r.isPlain_toValue
  obtain ⟨found, hread, -, hholds⟩ := reads_indented hplain 0 [] endsNumber_nil
  have htext : Symbol.ofString r.toText = Symbol.ofChars (r.toValue.indented 0).toList := rfl
  rw [List.append_nil] at hread
  rw [ofText, ofSymbols, htext, decode, hread]
  dsimp only
  rw [r.decodes found hholds]
  rfl

/-- **A report is read back from its file.**  The text of any report is read as that report, and so are
its bytes.  A report can be written wherever a file can, and one that was written is there when the file
is read.  So the forests that are read from the report on a profile are those of the profile. -/
theorem readReport_writeReport :
    (∀ r : Report, ofText r.toText = .ok r ∧ ofSymbols (Symbol.ofBytes r.toText.toUTF8) = .ok r) ∧
    (∀ (r : Report) (path : String) (files : Memory), files.Admits path →
      ∃ files', (Output.writeReport r path : StateM Memory _).run files = (.ok (), files')) ∧
    (∀ (r : Report) (path : String) (files files' : Memory),
      (Output.writeReport r path : StateM Memory _).run files = (.ok (), files') →
        (Output.readReport path : StateM Memory _).run files' = (.ok r, files')) ∧
    ∀ (p : Profile) (time : String), ∃ r, ofText (p.report time).toText = .ok r ∧
      r.bottomUp = p.bottomUp.flat ∧ r.topDown = p.topDown.flat := by
  have hbytes (r : Report) : ofSymbols (Symbol.ofBytes r.toText.toUTF8) = .ok r := by
    rw [Symbol.ofBytes_toUTF8]
    exact r.ofText_toText
  refine ⟨fun r => ⟨r.ofText_toText, hbytes r⟩, fun r path files hadmits =>
    Output.writeText_of_admits hadmits r.toText, fun r path files files' hwritten => ?_,
    fun p time => ⟨p.report time, (p.report time).ofText_toText, rfl, rfl⟩⟩
  obtain ⟨made, hmade⟩ := Output.exists_writeFile hwritten
  exact Output.readReport_of_readFile (Memory.readFile_of_writeFile hmade) (hbytes r)

/-- A report of two rows, one below the other, and of a sample with the largest label number. -/
def callReport : Report where
  version := reportVersion
  summary := { debuggee := "./app \"x\"", totalTimeMs := 18446744073709551615 }
  bottomUp := {
    roots := [0]
    rows := [{ location := { function := "operator new" }, cost := { peak := 7 }, children := [1] },
      { location := { function := "", line := 12 }, parent := some 0 }] }
  topDown := {}
  charts := {
    consumed := {
      rows := [{ timeStamp := 3, values := .ofList [(4294967295, 5), (0, 12)] }]
      labels := ["total"] } }
  generatedAt := "now"

/-- That report is written to a new file in an empty directory, and read back. -/
theorem readReport_writeReport_sample : Memory.Admits {} "report.json" ∧ ∃ files',
    (Output.writeReport callReport "report.json" : StateM Memory _).run {} = (.ok (), files') ∧
      (Output.readReport "report.json" : StateM Memory _).run files' = (.ok callReport, files') := by
  have hnames : FileTree.names "report.json" = ["report.json"] := by
    rw [FileTree.names_eq]
    decide
  have hvacant : Memory.target {} "report.json" = .ok (.vacant ["report.json"]) := by
    rw [Memory.target, FileTree.target, hnames]
    rfl
  have hparent : Path.parent? "report.json" = some "" := by decide
  have hadmits : Memory.Admits {} "report.json" := by
    refine ⟨⟨_, Or.inr hvacant⟩, by decide, fun parent h => Or.inl ?_⟩
    rw [hparent, Option.some.injEq] at h
    rw [← h]
    rfl
  obtain ⟨-, hwrites, hreads, -⟩ := readReport_writeReport
  obtain ⟨files', hwritten⟩ := hwrites callReport "report.json" {} hadmits
  exact ⟨hadmits, files', hwritten, hreads callReport "report.json" {} files' hwritten⟩

end Report

end HeapProfile
