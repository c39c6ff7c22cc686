import HeapProfile.Host.Memory
import HeapProfile.Output
import Mathlib.Data.String.Basic

/-!
# Storage — what is written to a file is read from it

A path is cut at its separators and its names are followed one by one.  Writing a file changes what is at
the end of that way and nothing on it: the directories stay, and the file is where the way ended.  So the
path leads to the file afterwards, and reading gives the bytes of the text that was written.

* **`FileTree.names_eq`** — the names along a path are its characters cut at separators;
* **`FileTree.follow_putFile`** — the way to a file that is written leads to it;
* **`Memory.readFile_of_writeFile`** — what is written is read back;
* **`Output.exists_writeFile`** and **`Output.writeText_of_admits`** — a text that is written is written
  to its file last, and it is written wherever a file can be.
-/

namespace HeapProfile

/-! ## Names along a path -/

open String in
/-- A string is cut at a separator as the characters between the last cut and its end are.  By induction
    on the characters that are left, with the positions as the bytes passed so far. -/
theorem splitOnAux_slash (before part rest : List Char) (pieces : List String) :
    splitOnAux (ofList (before ++ part ++ rest)) "/" ⟨utf8Len before⟩
        ⟨utf8Len before + utf8Len part⟩ 0 pieces
      = pieces.reverse ++ (List.splitOnPPrepend (· == '/') rest part.reverse).map ofList := by
  have hlength : utf8Len before + utf8Len part = utf8Len (before ++ part) := by simp
  induction rest generalizing before part pieces with
  | nil =>
      have hend : Pos.Raw.atEnd (ofList (before ++ part ++ [])) ⟨utf8Len before + utf8Len part⟩
          = true := by
        rw [hlength]
        exact (atEnd_of_valid (before ++ part) []).2 rfl
      rw [splitOnAux, if_pos hend, extract_of_valid, List.splitOnPPrepend_nil, List.reverse_cons,
        List.reverse_reverse]
      rfl
  | cons c rest ih =>
      have hend : ¬ Pos.Raw.atEnd (ofList (before ++ part ++ c :: rest))
          ⟨utf8Len before + utf8Len part⟩ = true := by
        rw [hlength]
        exact mt (atEnd_of_valid (before ++ part) (c :: rest)).1 (List.cons_ne_nil _ _)
      have hget : Pos.Raw.get (ofList (before ++ part ++ c :: rest))
          ⟨utf8Len before + utf8Len part⟩ = c := by
        rw [hlength]
        exact get_of_valid (before ++ part) (c :: rest)
      have hnext : Pos.Raw.next (ofList (before ++ part ++ c :: rest))
          ⟨utf8Len before + utf8Len part⟩ = ⟨utf8Len before + utf8Len part + c.utf8Size⟩ := by
        rw [hlength]
        exact next_of_valid (before ++ part) c rest
      have hseparator : Pos.Raw.get "/" 0 = '/' := by decide
      rw [splitOnAux, if_neg hend, hget, hseparator, List.splitOnPPrepend_cons_eq_if]
      split
      · next hc =>
        obtain rfl : c = '/' := beq_iff_eq.1 hc
        -- the separator is one byte long, so the piece in front of it ends one byte before its end
        have hwhole : Pos.Raw.atEnd "/" (Pos.Raw.next "/" 0) = true := by decide
        have hback : (⟨utf8Len before + utf8Len part + '/'.utf8Size⟩ : Pos.Raw).unoffsetBy
            (Pos.Raw.next "/" 0) = ⟨utf8Len before + utf8Len part⟩ := rfl
        have hrest := ih (before ++ part ++ ['/']) [] (ofList part :: pieces) (by simp)
        dsimp only
        rw [if_pos hwhole, hnext, hback, extract_of_valid]
        simpa [Nat.add_assoc] using hrest
      · next hc =>
        have hrest := ih before (part ++ [c]) pieces (by simp)
        have hstay : (⟨utf8Len before + utf8Len part⟩ : Pos.Raw).unoffsetBy 0
            = ⟨utf8Len before + utf8Len part⟩ := rfl
        rw [hstay, hnext]
        simpa [Nat.add_assoc] using hrest

/-- The last piece of a text is empty only behind a sign at its end.  By induction on the text, whose
    first character goes to the first piece or makes an empty one. -/
theorem getLast?_splitOn {α : Type} [DecidableEq α] {x : α} {text : List α} (hne : text ≠ [])
    (hlast : text.getLast? ≠ some x) : (text.splitOn x).getLast? ≠ some [] := by
  induction text with
  | nil => exact absurd rfl hne
  | cons c text ih =>
      obtain ⟨piece, pieces, hpieces⟩ := List.exists_cons_of_ne_nil (List.splitOn_ne_nil x text)
      rw [List.splitOn_cons_eq_if_modifyHead, hpieces]
      by_cases htext : text = []
      · subst htext
        rw [List.splitOn_nil] at hpieces
        cases hpieces
        have hc : (c == x) = false := beq_eq_false_iff_ne.2 fun h => hlast (congrArg some h)
        rw [hc]
        exact fun h => nomatch h
      · have hbehind := ih htext (by rwa [List.getLast?_cons_of_ne_nil htext] at hlast)
        rw [hpieces] at hbehind
        split
        · rwa [List.getLast?_cons_cons]
        · cases pieces with
          | nil => exact fun h => nomatch h
          | cons next pieces =>
              rw [List.getLast?_cons_cons] at hbehind
              rwa [List.modifyHead_cons, List.getLast?_cons_cons]

namespace FileTree

/-- The names along a path are its characters cut at separators. -/
theorem names_eq (path : String) : names path = (path.toList.splitOn '/').map String.ofList := by
  have hsplit := splitOnAux_slash [] [] path.toList []
  rw [List.nil_append, List.nil_append, String.ofList_toList] at hsplit
  exact hsplit

/-- A path that ends with no separator has a last name. -/
theorem getLast?_names (path : String) (hne : path.isEmpty = false)
    (hlast : path.toList.getLast? ≠ some '/') : (names path).getLast? ≠ some "" := by
  have hchars : path.toList ≠ [] := by
    rw [ne_eq, String.toList_eq_nil_iff, ← String.isEmpty_iff, hne]
    exact Bool.false_ne_true
  rw [names_eq, List.getLast?_map]
  intro h
  obtain ⟨piece, hpiece, hempty⟩ := Option.map_eq_some_iff.1 h
  have hnil : piece = [] := by
    rw [← String.toList_ofList (l := piece), hempty]
    rfl
  exact getLast?_splitOn hchars hlast (hnil ▸ hpiece)

/-! ## Files that are written -/

variable {t : FileTree} {place : Place} {content : ByteArray}

theorem hasDirectory_putFile (t : FileTree) (place : Place) (content : ByteArray) (there : Place) :
    (t.putFile place content).hasDirectory there = t.hasDirectory there := by
  rw [putFile]
  split <;> rfl

/-- A file that is written is there, in place of an old one under the same name or behind all others. -/
theorem content?_putFile (t : FileTree) (place : Place) (content : ByteArray) :
    (t.putFile place content).content? place = some content := by
  rw [putFile, content?]
  split
  · next hthere =>
    obtain ⟨entry, hfind⟩ :=
      Option.isSome_iff_exists.1 (List.find?_isSome.2 (List.any_eq_true.1 hthere))
    have hsame : ((fun entry : Place × ByteArray => entry.1 == place) ∘ fun entry =>
        if entry.1 == place then (place, content) else entry) = fun entry => entry.1 == place := by
      funext entry
      show ((if entry.1 == place then (place, content) else entry).1 == place) = _
      split
      · next h => rw [h]; exact beq_self_eq_true place
      · rfl
    dsimp only
    rw [List.find?_map, hsame, hfind, Option.map_some, if_pos (List.find?_some hfind)]
    rfl
  · next hnew =>
    have hnone : (t.files.find? fun entry => entry.1 == place) = none :=
      List.find?_eq_none.2 fun entry hmem hplace => hnew (List.any_eq_true.2 ⟨entry, hmem, hplace⟩)
    have hfound : ([(place, content)].find? fun entry => entry.1 == place) = some (place, content) :=
      List.find?_cons_of_pos (beq_self_eq_true place)
    dsimp only
    rw [List.find?_append, hnone, Option.none_or, hfound]
    rfl

/-- Of empty names the last one is empty, if there is one. -/
theorem eq_nil_of_getLast?_ne {names : List String} (hempty : (names.all (· == "")) = true)
    (hlast : names.getLast? ≠ some "") : names = [] := by
  by_contra hne
  have hmem := List.all_eq_true.1 hempty _ (List.getLast_mem hne)
  exact hlast ((List.getLast?_eq_some_getLast hne).trans (congrArg some (beq_iff_eq.1 hmem)))

/-- A target where a file can be written: there is a file, or nothing and no separator behind it. -/
def Takes (place : Place) (along : List String) (target : Target) : Prop :=
  (∃ old, target = .file place old) ∨ target = .vacant place ∧ along.getLast? ≠ some ""

/-- What is said of the last name of all is said of the last one of the rest. -/
theorem Takes.tail {name : String} {rest : List String} {target : Target}
    (h : Takes place (name :: rest) target) : Takes place rest target := by
  refine h.imp_right fun ⟨hvacant, hlast⟩ => ⟨hvacant, fun hrest => hlast ?_⟩
  rw [List.getLast?_cons, hrest]
  rfl

/-- Where there is no directory, the way to a file ends with that file: no name is left, or there would
    be an error. -/
theorem Takes.ends {there : Place} {rest : List String} {target : Target}
    (hcontent : (match t.content? there with
      | some content => if rest.isEmpty then .ok (.file there content) else .error .notDirectory
      | none => if rest.all (· == "") then .ok (.vacant there) else .error .notFound)
        = (.ok target : Except SystemError Target))
    (h : Takes place rest target) : there = place ∧ rest = [] := by
  split at hcontent
  · by_cases hrest : rest.isEmpty = true
    · rw [if_pos hrest] at hcontent
      cases hcontent
      obtain ⟨_, hfile⟩ | ⟨hvacant, _⟩ := h
      · exact ⟨(Target.file.inj hfile).1, List.isEmpty_iff.1 hrest⟩
      · exact nomatch hvacant
    · rw [if_neg hrest] at hcontent
      exact nomatch hcontent
  · by_cases hrest : (rest.all (· == "")) = true
    · rw [if_pos hrest] at hcontent
      cases hcontent
      obtain ⟨_, hfile⟩ | ⟨hvacant, hlast⟩ := h
      · exact nomatch hfile
      · exact ⟨Target.vacant.inj hvacant, eq_nil_of_getLast?_ne hrest hlast⟩
    · rw [if_neg hrest] at hcontent
      exact nomatch hcontent

/-- **The way to a file that is written leads to it,** if the file is there or could be made there.  By
    induction on the names of the way; the directories that it passes are no files, so writing changes
    none of them. -/
theorem follow_putFile {here : Place} {along : List String} {target : Target}
    (h : t.follow here along = .ok target) (htakes : Takes place along target) :
    (t.putFile place content).follow here along = .ok (.file place content) := by
  induction along generalizing here with
  | nil =>
      cases h
      obtain ⟨_, hfile⟩ | ⟨hvacant, _⟩ := htakes
      · exact nomatch hfile
      · exact nomatch hvacant
  | cons name rest ih =>
      rw [follow] at h ⊢
      by_cases hskip : name = "" ∨ name = "."
      · rw [if_pos hskip] at h ⊢
        exact ih h htakes.tail
      rw [if_neg hskip] at h ⊢
      by_cases hout : name = ".."
      · rw [if_pos hout] at h ⊢
        exact ih h htakes.tail
      rw [if_neg hout] at h ⊢
      by_cases hlong : maxNameBytes < name.utf8ByteSize
      · rw [if_pos hlong] at h
        exact nomatch h
      rw [if_neg hlong] at h ⊢
      dsimp only at h ⊢
      rw [hasDirectory_putFile]
      by_cases hdirectory : t.hasDirectory (here ++ [name]) = true
      · rw [if_pos hdirectory] at h ⊢
        exact ih h htakes.tail
      rw [if_neg hdirectory] at h ⊢
      obtain ⟨rfl, rfl⟩ := htakes.tail.ends h
      rw [content?_putFile]
      rfl

/-- **A path leads to the file that is written there.**  What is refused about the path itself is
    refused before the tree is looked at, so writing changes none of it. -/
theorem target_putFile {working : Place} {path : String} {target : Target}
    (h : t.target working path = .ok target) (htakes : Takes place (names path) target) :
    (t.putFile place content).target working path = .ok (.file place content) := by
  rw [FileTree.target, targetAlong] at h ⊢
  by_cases hempty : path.isEmpty = true
  · rw [if_pos hempty] at h
    exact nomatch h
  rw [if_neg hempty] at h ⊢
  by_cases hnul : path.toList.contains '\x00' = true
  · rw [if_pos hnul] at h
    exact nomatch h
  rw [if_neg hnul] at h ⊢
  by_cases hlong : maxPathBytes < path.utf8ByteSize
  · rw [if_pos hlong] at h
    exact nomatch h
  rw [if_neg hlong] at h ⊢
  exact follow_putFile h htakes

end FileTree

/-! ## The host in memory -/

namespace Memory

variable {files files' : Memory} {path text : String}

/-- The empty path leads nowhere. -/
theorem ne_empty_of_target {target : Target} (h : files.target path = .ok target) :
    path.isEmpty = false := by
  rw [← Bool.not_eq_true]
  intro hempty
  rw [Memory.target, FileTree.target, FileTree.targetAlong, if_pos hempty] at h
  exact nomatch h

/-- **What is written to a file is read from it,** under the same path, byte for byte.  The path leads
    to the file written, whether it stood there before or not. -/
theorem readFile_of_writeFile (h : files.writeFile path text = (.ok (), files')) :
    files'.readFile path = .ok (.ok text.toUTF8) := by
  have hread (place : FileTree.Place) (target : Target) (htarget : files.target path = .ok target)
      (htakes : FileTree.Takes place (FileTree.names path) target) :
      ({ files with tree := files.tree.putFile place text.toUTF8 } : Memory).readFile path
        = .ok (.ok text.toUTF8) := by
    rw [readFile, Memory.target, FileTree.target_putFile htarget htakes]
  rw [writeFile] at h
  by_cases hseparator : (path.toList.getLast? == some '/') = true
  · rw [if_pos hseparator] at h
    split at h <;> exact nomatch h
  · rw [if_neg hseparator] at h
    rw [beq_iff_eq] at hseparator
    split at h
    · exact nomatch h
    · next place old htarget =>
      cases h
      exact hread place _ htarget (Or.inl ⟨old, rfl⟩)
    · next place htarget =>
      cases h
      exact hread place _ htarget
        (Or.inr ⟨rfl, FileTree.getLast?_names path (ne_empty_of_target htarget) hseparator⟩)
    · exact nomatch h

/-- A file can be written at a path as things are: the path leads to a file or to a free place, it is not
written as that of a directory, and the directory around it is there. -/
structure Admits (files : Memory) (path : String) : Prop where
  place : ∃ place, (∃ old, files.target path = .ok (.file place old)) ∨
    files.target path = .ok (.vacant place)
  separator : path.toList.getLast? ≠ some '/'
  around : ∀ parent, Path.parent? path = some parent →
    parent.isEmpty = true ∨ (files.isDirectory? parent).isSome = true

theorem Admits.isEmpty_eq_false (h : files.Admits path) : path.isEmpty = false := by
  obtain ⟨place, ⟨old, hfile⟩ | hvacant⟩ := h.place
  · exact ne_empty_of_target hfile
  · exact ne_empty_of_target hvacant

theorem Admits.isDirectory?_beq_some_true (h : files.Admits path) :
    (files.isDirectory? path == some true) = false := by
  rw [isDirectory?]
  obtain ⟨place, ⟨old, hfile⟩ | hvacant⟩ := h.place
  · rw [hfile]
    rfl
  · rw [hvacant]
    rfl

theorem Admits.writeFile_fst (h : files.Admits path) (text : String) :
    (files.writeFile path text).1 = .ok () := by
  rw [writeFile, if_neg (mt beq_iff_eq.1 h.separator)]
  obtain ⟨place, ⟨old, hfile⟩ | hvacant⟩ := h.place
  · rw [hfile]
  · rw [hvacant]

end Memory

namespace Output

variable {files files' : Memory} {path text : String}

/-- A text that is written is written last, behind the directories around it.  No step before the last
    one can fail, as the whole did not. -/
theorem exists_writeFile
    (h : (writeText path text : StateM Memory _).run files = (.ok (), files')) : ∃ made : Memory,
      made.writeFile path text = (.ok (), files') := by
  rw [writeText, StateT.run_bind] at h
  rcases hcheck : (checkPath path : StateM Memory _).run files with ⟨_ | _, checked⟩
  · rw [hcheck] at h
    exact nomatch h
  · rw [hcheck] at h
    replace h : ((makeParents path : StateM Memory _) >>= _).run checked = _ := h
    rw [StateT.run_bind] at h
    rcases hparents : (makeParents path : StateM Memory _).run checked with ⟨_ | _, made⟩
    · rw [hparents] at h
      exact nomatch h
    · rw [hparents] at h
      replace h : ((made.writeFile path text).1.mapError OutputError.writeFailed,
          (made.writeFile path text).2) = (.ok (), files') := h
      rw [Prod.mk.injEq] at h
      refine ⟨made, Prod.ext ?_ h.2⟩
      cases hwritten : (made.writeFile path text).1 with
      | ok _ => rfl
      | error cause => rw [hwritten] at h; exact nomatch h.1

/-- **A text is written wherever a file can be written.**  Directories around the file are made first,
    and making them does not spoil the way to it. -/
theorem writeText_of_admits (h : files.Admits path) (text : String) :
    ∃ files', (writeText path text : StateM Memory _).run files = (.ok (), files') := by
  have hdirectory : (Host.isDirectory path : StateM Memory _).run files = (false, files) := by
    show (files.isDirectory? path == some true, files) = _
    rw [h.isDirectory?_beq_some_true]
  have hcheck : (checkPath path : StateM Memory _).run files = (.ok (), files) := by
    rw [checkPath, if_neg (Bool.eq_false_iff.1 h.isEmpty_eq_false), StateT.run_bind, hdirectory]
    rfl
  have hparents : (makeParents path : StateM Memory _).run files = (.ok (), files) := by
    rw [makeParents]
    cases hparent : Path.parent? path with
    | none => rfl
    | some parent =>
        dsimp only
        by_cases hempty : parent.isEmpty = true
        · rw [if_pos hempty]
          rfl
        · have hthere : (Host.pathExists parent : StateM Memory _).run files = (true, files) := by
            show ((files.isDirectory? parent).isSome, files) = _
            rw [(h.around parent hparent).resolve_left hempty]
          rw [if_neg hempty, StateT.run_bind, hthere]
          rfl
  refine ⟨(files.writeFile path text).2, ?_⟩
  rw [writeText, StateT.run_bind, hcheck]
  show ((makeParents path >>= _ : StateM Memory _)).run files = _
  rw [StateT.run_bind, hparents]
  show ((files.writeFile path text).1.mapError OutputError.writeFailed,
    (files.writeFile path text).2) = _
  rw [h.writeFile_fst text]
  rfl

end Output

end HeapProfile
