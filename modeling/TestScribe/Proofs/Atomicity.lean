/-
# Modules are written whole or not at all

A module is written to a temporary file first, and takes its place by another name for that file.  Whatever fails on
the way, the place of the module holds what it held, or all of the text.  The package marker is written where there is
none, so that it is never written over a file.  No other file is touched.

* `Path.text_ofString`, `Path.allPieces_extend` : a path whose text is longer;
* `Disk.fileAt?` : the content of the file at a place;
* `Emission.ensures_ensurePackage` : the package marker changes no file;
* `Emission.IsWhole`, `Emission.ensures_isWhole` : what a disk holds after a module was to be written;
* `module_written_whole_or_not_at_all` : the same for a session.
-/
import TestScribe.Making
import TestScribe.Proofs.Documents
import TestScribe.Proofs.Failures

namespace TestScribe

/-! ## Longer texts of paths -/

namespace Path

theorem joinWith_piecesOf (cs : List Char) : Text.joinWith "/" (piecesOf cs) = String.ofList cs := by
  rw [piecesOf]
  split
  · next hempty => rw [List.isEmpty_iff.1 hempty]; rfl
  · have hjoin := Text.joinWith_pieces '/' (String.ofList cs)
    rwa [Text.pieces, String.toList_ofList] at hjoin

/-- A path is written as the text that it was read from. -/
theorem text_ofString (s : String) : (ofString s).text = s := by
  unfold ofString
  split
  · next rest hrest =>
    show "/" ++ Text.joinWith "/" (piecesOf rest) = s
    rw [joinWith_piecesOf, ← String.toList_inj, hrest]
    simp
  · have hjoin : Text.joinWith "/" (piecesOf s.toList) = s := by rw [joinWith_piecesOf, String.ofList_toList]
    split
    · next rest hdot =>
      rw [hdot] at hjoin
      cases rest with
      | nil => exact hjoin
      | cons next rest => exact hjoin
    · exact hjoin

/-- A text without separators goes on with the last piece, or is the only one. -/
theorem piecesOf_append {more : List Char} (hplain : '/' ∉ more) (hne : more ≠ []) (cs : List Char) :
    (piecesOf cs = [] ∧ piecesOf (cs ++ more) = [String.ofList more]) ∨
      ∃ before last, piecesOf cs = before ++ [last] ∧
        piecesOf (cs ++ more) = before ++ [last ++ String.ofList more] := by
  have hlonger : piecesOf (cs ++ more) = (Text.splitChars '/' (cs ++ more)).map String.ofList := by
    rw [piecesOf, if_neg (by simp [hne])]
  cases cs with
  | nil =>
    refine .inl ⟨rfl, ?_⟩
    rw [hlonger, List.nil_append, Text.splitChars_of_notMem hplain]
    rfl
  | cons c cs =>
    obtain ⟨parts, last, hparts, hmore⟩ := Text.splitChars_concat hplain (c :: cs)
    refine .inr ⟨parts.map String.ofList, String.ofList last, ?_, ?_⟩
    · rw [piecesOf, if_neg (by simp), hparts, List.map_append]
      rfl
    · rw [hlonger, hmore, List.map_append, List.map_cons, List.map_nil, String.ofList_append]

/-- A path whose text is longer has one piece more, or goes on with its last piece. -/
theorem allPieces_extend (s : String) {more : String} (hplain : '/' ∉ more.toList) (hne : more ≠ "") :
    ((ofString s).extend more).isAbsolute = (ofString s).isAbsolute ∧
      ((ofString s).allPieces = [] ∧ ((ofString s).extend more).allPieces = [more] ∨
        ∃ before last, (ofString s).allPieces = before ++ [last] ∧
          ((ofString s).extend more).allPieces = before ++ [last ++ more]) := by
  have hmore : more.toList ≠ [] := by simpa using hne
  -- whether a text begins with a separator tells how it is read
  have hroot : ∀ {text : String} {cs : List Char}, text.toList = '/' :: cs →
      (ofString text).isAbsolute = true ∧ (ofString text).allPieces = piecesOf cs := by
    intro text cs htext
    unfold ofString
    rw [htext]
    exact ⟨rfl, rfl⟩
  have hrelative : ∀ {text : String}, (∀ cs, text.toList ≠ '/' :: cs) →
      (ofString text).isAbsolute = false ∧ (ofString text).allPieces = piecesOf text.toList := by
    intro text htext
    unfold ofString
    split
    · next rest hrest => exact absurd hrest (htext rest)
    · split
      · next hpieces => exact ⟨rfl, hpieces.symm⟩
      · exact ⟨rfl, rfl⟩
  rw [extend, text_ofString]
  by_cases hslash : ∃ cs, s.toList = '/' :: cs
  · obtain ⟨cs, hcs⟩ := hslash
    have hlonger : (s ++ more).toList = '/' :: (cs ++ more.toList) := by
      rw [String.toList_append, hcs, List.cons_append]
    rw [(hroot hcs).1, (hroot hcs).2, (hroot hlonger).1, (hroot hlonger).2]
    refine ⟨rfl, ?_⟩
    simpa only [String.ofList_toList] using piecesOf_append hplain hmore cs
  · rw [not_exists] at hslash
    have hlonger : ∀ cs, (s ++ more).toList ≠ '/' :: cs := by
      intro cs hcs
      rw [String.toList_append] at hcs
      cases hs : s.toList with
      | nil =>
        rw [hs, List.nil_append] at hcs
        exact hplain (hcs ▸ List.mem_cons_self)
      | cons c rest =>
        rw [hs] at hcs
        cases hcs
        exact hslash rest hs
    rw [(hrelative hslash).1, (hrelative hslash).2, (hrelative hlonger).1, (hrelative hlonger).2,
      String.toList_append]
    refine ⟨rfl, ?_⟩
    simpa only [String.ofList_toList] using piecesOf_append hplain hmore s.toList

end Path

/-- The temporary file of a module has a place of its own. -/
theorem Emission.location_temporary_ne (d : Disk) (s : String) :
    d.location (temporary (.ofString s)) ≠ d.location (.ofString s) := by
  obtain ⟨habsolute, hpieces⟩ := Path.allPieces_extend s (show '/' ∉ ".tmp".toList by decide) (by decide)
  have hstart : d.start (temporary (.ofString s)) = d.start (.ofString s) := by
    rw [Disk.start, Disk.start, temporary, habsolute]
  rw [Disk.location, Disk.location, hstart, temporary]
  rcases hpieces with ⟨hnone, hmore⟩ | ⟨before, last, hlast, hmore⟩
  · rw [hnone, hmore, List.foldl_cons, List.foldl_nil, List.foldl_nil,
      Disk.advance_of_isName ⟨by decide, by decide⟩]
    intro h
    simpa using congrArg List.length h
  · rw [hlast, hmore, List.foldl_append, List.foldl_append, List.foldl_cons, List.foldl_nil, List.foldl_cons,
      List.foldl_nil, Disk.advance_of_isName (isName_temporary last), Disk.advance]
    split_ifs
    · intro h
      simpa using congrArg List.length h
    · intro h
      have hlength := congrArg List.length h
      rw [List.length_append, List.length_dropLast] at hlength
      simp at hlength
      omega
    · intro h
      simp at h

/-! ## Files at places -/

namespace Disk

variable {d d' : Disk} {p : Path} {place : List String} {content : ByteArray}

/-- The content of the file at a place, if there is one. -/
def fileAt? (d : Disk) (place : List String) : Option ByteArray :=
  match d.kind? place with
  | some (.file content) => some content
  | _ => none

theorem fileAt?_eq_some_iff : d.fileAt? place = some content ↔ d.kind? place = some (.file content) := by
  rw [fileAt?]
  cases d.kind? place with
  | none => simp
  | some kind => cases kind <;> simp

theorem Changes.fileAt?_eq {touched removed : List String → Prop} (h : Changes touched removed d d')
    (hplace : ¬ touched place) : d'.fileAt? place = d.fileAt? place := by
  refine Option.ext fun content => ?_
  rw [fileAt?_eq_some_iff, fileAt?_eq_some_iff]
  exact h.same place content hplace

/-- Writing touches the place of its path only. -/
theorem changes_write_location (p : Path) (content : ByteArray) (removed : List String → Prop) (d : Disk) :
    Ensures (write p content) d (fun _ => Changes (· = d.location p) removed d)
      (Changes (· = d.location p) removed d) := by
  refine changes_write ?_ content
  intro _ _
  rfl

/-- A file that cannot get another name keeps its own, and nothing else changes. -/
theorem changes_of_rename_eq_error {source goal : Path} {e : DiskFault} {touched removed : List String → Prop}
    (h : rename source goal d = .error e d') : Changes touched removed d d' := by
  cases hread : d.read? source with
  | none =>
    rw [rename_of_read?_eq_none hread] at h
    cases h
    exact .refl d
  | some content =>
    rw [rename_eq hread] at h
    split at h
    · cases h
      exact .refl d
    · split at h
      · cases h
        exact .refl d
      · split at h
        · cases h
          exact .passed d
        · cases h

/-- Where a file is, but not by the given path, nothing is written by this path. -/
theorem write_eq_error_of_isFile_eq_false {old : ByteArray} (hold : d.kind? (d.location p) = some (.file old))
    (hfile : d.isFile p = false) : write p content d = .error (.notFound p) d := by
  rw [write_eq]
  cases htarget : d.target? p with
  | none => rfl
  | some place =>
    -- the path would lead to the file
    obtain ⟨⟨name, hend⟩, hway, rfl⟩ := target?_eq_some_iff.1 htarget
    have hread : d.read? p = some old := read?_eq_some_iff.2 ⟨hend.ne_empty, hway, hold⟩
    rw [isFile_iff.2 ⟨old, hread⟩] at hfile
    cases hfile

/-- Without `..` in it, a path passes places above the one it leads to. -/
theorem prefix_of_mem_way (hup : ".." ∉ p.pieces) {v : List String} (hv : v ∈ d.way p) : v <+: d.location p := by
  obtain ⟨names, hnames⟩ : ∃ names : List String,
      p.allPieces.filterMap Path.componentOf? = names.map Component.name := by
    rw [Path.filterMap_allPieces]
    generalize p.pieces = pieces at hup
    induction pieces with
    | nil => exact ⟨[], rfl⟩
    | cons piece rest ih =>
      rw [List.mem_cons, not_or] at hup
      obtain ⟨names, hrest⟩ := ih hup.2
      by_cases hfiller : Path.isFiller piece = true
      · refine ⟨names, ?_⟩
        rw [List.filterMap_cons_none (Path.componentOf?_of_isFiller hfiller), hrest]
      · refine ⟨piece :: names, ?_⟩
        have hname := Path.componentOf?_of_name (by simpa using hfiller) (Ne.symm hup.1)
        rw [List.filterMap_cons_some hname, hrest]
        rfl
  rw [location, foldl_advance_of_filterMap hnames]
  exact prefix_of_mem_wayFrom hnames hv

/-- A path without `..` is read by what is at its place, also while directories are being made. -/
theorem read?_eq_of_fileAt?_eq (hworking : d'.workingDirectory = d.workingDirectory)
    (hdirectory : ∀ place, d.kind? place = some .directory → d'.kind? place = some .directory)
    (hup : ".." ∉ p.pieces) (hfile : d'.fileAt? (d.location p) = d.fileAt? (d.location p)) :
    d'.read? p = d.read? p := by
  have hkind : ∀ content, d'.kind? (d.location p) = some (.file content) ↔
      d.kind? (d.location p) = some (.file content) := by
    intro content
    rw [← fileAt?_eq_some_iff, hfile, fileAt?_eq_some_iff]
  refine Option.ext fun content => ?_
  rw [read?_eq_some_iff, read?_eq_some_iff, location_of_workingDirectory_eq hworking,
    way_of_workingDirectory_eq hworking, hkind]
  refine and_congr_right fun _ => and_congr_left fun hcontent => ⟨fun hway v hv => ?_, fun hway v hv => ?_⟩
  · obtain ⟨below, hbelow⟩ := prefix_of_mem_way hup hv
    have hthere : d.kind? (v ++ below) ≠ none := by simp [hbelow, hcontent]
    refine kind?_of_append hthere ?_
    rintro rfl
    -- a path that passes its own place does not lead to a file
    rw [List.append_nil] at hbelow
    rw [← hkind, ← hbelow, hway v hv] at hcontent
    cases hcontent
  · exact hdirectory v (hway v hv)

/-- A path that is read stays so while its file and the directories do. -/
theorem read?_of_kind? (hworking : d'.workingDirectory = d.workingDirectory)
    (hdirectory : ∀ place, d.kind? place = some .directory → d'.kind? place = some .directory)
    (hread : d.read? p = some content) (hfile : d'.kind? (d.location p) = some (.file content)) :
    d'.read? p = some content := by
  obtain ⟨hne, hway, -⟩ := read?_eq_some_iff.1 hread
  rw [read?_eq_some_iff, location_of_workingDirectory_eq hworking, way_of_workingDirectory_eq hworking]
  exact ⟨hne, fun v hv => hdirectory v (hway v hv), hfile⟩

end Disk

/-! ## Writing a module -/

namespace Emission

variable {marker text : String} {directory output : Path} {d d' : Disk}

/-- From one disk to another, every file stays as it is, and so do the directories. -/
structure KeepsFiles (d d' : Disk) : Prop where
  workingDirectory : d'.workingDirectory = d.workingDirectory
  directory : ∀ place, d.kind? place = some .directory → d'.kind? place = some .directory
  file : ∀ place content, d.kind? place = some (.file content) → d'.kind? place = some (.file content)

/-- A package marker is written where there is none, so it is not written over a file. -/
theorem ensures_ensurePackage (marker : String) (directory : Path) (d : Disk) :
    Ensures (ensurePackage marker directory) d
      (fun _ d' => KeepsFiles d d' ∧ d'.isFile (directory.child marker) = true) (KeepsFiles d) := by
  have hrefl : KeepsFiles d d := ⟨rfl, fun _ h => h, fun _ _ h => h⟩
  by_cases hfile : d.isFile (directory.child marker) = true
  · exact .of_eq_ok (a := ()) (by rw [ensurePackage_eq, if_pos hfile]) ⟨hrefl, hfile⟩
  · have hwrite : ensurePackage marker directory d
        = Disk.write (directory.child marker) packageNotice.toUTF8 d := by rw [ensurePackage_eq, if_neg hfile]
    refine .of_eq hwrite ?_
    by_cases hold : ∃ old, d.kind? (d.location (directory.child marker)) = some (.file old)
    · obtain ⟨old, hold⟩ := hold
      exact .of_eq_error (Disk.write_eq_error_of_isFile_eq_false hold (by simpa using hfile)) hrefl
    · -- no file is at the place that is written to
      have hkeeps : ∀ d', Disk.Changes (· = d.location (directory.child marker)) (fun _ => True) d d' →
          KeepsFiles d d' := by
        refine fun d' hchanges => ⟨hchanges.workingDirectory, hchanges.directory, fun place content hplace => ?_⟩
        refine (hchanges.same place content ?_).2 hplace
        rintro rfl
        exact hold ⟨content, hplace⟩
      have hchanges := Disk.changes_write_location (directory.child marker) packageNotice.toUTF8 (fun _ => True) d
      refine ⟨fun h => ⟨hkeeps _ (hchanges.ok h), ?_⟩, fun h => hkeeps _ (hchanges.error h)⟩
      exact Disk.isFile_iff.2 ⟨_, Disk.read?_of_write_eq_ok h⟩

/-- A module has taken its place, and every file stays as it is that was not at this place or at the one of the
temporary file. -/
structure Moved (text : String) (output : Path) (d d' : Disk) : Prop where
  workingDirectory : d'.workingDirectory = d.workingDirectory
  placed : d'.kind? (d.location output) = some (.file text.toUTF8)
  read : d'.read? output = some text.toUTF8
  file : ∀ place content, place ≠ d.location output → place ≠ d.location (temporary output) →
    d.kind? place = some (.file content) → d'.kind? place = some (.file content)

/-- Only the temporary file was touched. -/
abbrev Drafted (output : Path) (d d' : Disk) : Prop :=
  Disk.Changes (· = d.location (temporary output)) (· = d.location (temporary output)) d d'

/-- The temporary file takes the place of the module, or only that file was touched. -/
theorem Drafted.rename {d₂ : Disk} (h : Drafted output d d₂)
    (hread : d₂.read? (temporary output) = some text.toUTF8) :
    Ensures (Disk.rename (temporary output) output) d₂ (fun _ => Moved text output d) (Drafted output d) := by
  have hlocation := Disk.location_of_workingDirectory_eq h.workingDirectory
  constructor
  · intro _ d₃ hrename
    have hplaced := Disk.becomes_of_rename_eq_ok hread hrename
    refine ⟨hplaced.workingDirectory.trans h.workingDirectory, ?_, Disk.read?_of_rename_eq_ok hread hrename, ?_⟩
    · rw [hplaced.kind?, hlocation, if_pos rfl]
    · intro place content houtput htemporary hplace
      rw [hplaced.kind?, hlocation, hlocation, if_neg houtput, if_neg htemporary]
      exact (h.same place content htemporary).2 hplace
  · intro e d₃ hrename
    exact h.trans (Disk.changes_of_rename_eq_error hrename)

/-- What was moved is kept. -/
theorem Moved.keep {d₃ : Disk} (h : Moved text output d d₃) (hkeeps : KeepsFiles d₃ d') : Moved text output d d' := by
  have htext := hkeeps.file _ _ h.placed
  refine ⟨hkeeps.workingDirectory.trans h.workingDirectory, htext, ?_, fun place content houtput htemporary hplace =>
    hkeeps.file place content (h.file place content houtput htemporary hplace)⟩
  refine Disk.read?_of_kind? hkeeps.workingDirectory hkeeps.directory h.read ?_
  rwa [Disk.location_of_workingDirectory_eq h.workingDirectory]

/-- A module is moved to its place, or only the temporary file is touched. -/
theorem ensures_moved (marker text : String) (directory output : Path) (d : Disk) :
    Ensures (emit marker text directory output) d
      (fun _ d' => Moved text output d d' ∧ d'.isFile (directory.child marker) = true)
      (fun d' => Moved text output d d' ∨ Drafted output d d') := by
  refine .bind ((Disk.changes_createDirectories directory d).mono (fun _ _ h => h) fun _ => .inr) ?_
  intro _ d₁ h₁
  have hlocation := Disk.location_of_workingDirectory_eq h₁.workingDirectory
  have hwrite : Ensures (Disk.write (temporary output) text.toUTF8) d₁
      (fun _ d₂ => Drafted output d d₂ ∧ d₂.read? (temporary output) = some text.toUTF8) (Drafted output d) := by
    have hchanges := Disk.changes_write_location (temporary output) text.toUTF8
      (· = d.location (temporary output)) d₁
    rw [hlocation] at hchanges
    exact ⟨fun h => ⟨h₁.trans (hchanges.ok h), Disk.read?_of_write_eq_ok h⟩, fun h => h₁.trans (hchanges.error h)⟩
  refine .bind (hwrite.mono (fun _ _ h => h) fun _ => .inr) ?_
  rintro _ d₂ ⟨h₂, hread⟩
  refine .bind ((h₂.rename hread).mono (fun _ _ h => h) fun _ => .inr) ?_
  intro _ d₃ h₃
  exact (ensures_ensurePackage marker directory d₃).mono (fun _ _ h => ⟨h₃.keep h.1, h.2⟩)
    fun _ h => .inl (h₃.keep h)

/-- What a disk holds after a module was to be written, however that ended.  The place of the module holds what it
held, or all of the text; a package marker that was there holds what it held; and no other file was touched. -/
structure IsWhole (marker text : String) (output : Path) (d d' : Disk) : Prop where
  workingDirectory : d'.workingDirectory = d.workingDirectory
  directory : ∀ place, d.kind? place = some .directory → d'.kind? place = some .directory
  atOutput : (d'.fileAt? (d.location output) = d.fileAt? (d.location output) ∧
      (".." ∉ output.pieces → d'.read? output = d.read? output)) ∨
    (d'.fileAt? (d.location output) = some text.toUTF8 ∧ d'.read? output = some text.toUTF8)
  atMarker : d.location (output.parent.child marker) ≠ d.location output →
    d.location (output.parent.child marker) ≠ d.location (temporary output) →
    ∀ content, (d.fileAt? (d.location (output.parent.child marker)) = some content →
        d'.fileAt? (d.location (output.parent.child marker)) = some content) ∧
      (d.read? (output.parent.child marker) = some content → d'.read? (output.parent.child marker) = some content)
  others : ∀ place ∉ places marker output d, d'.fileAt? place = d.fileAt? place

theorem IsWhole.refl (marker text : String) (output : Path) (d : Disk) : IsWhole marker text output d d :=
  ⟨rfl, fun _ h => h, .inl ⟨rfl, fun _ => rfl⟩, fun _ _ _ => ⟨id, id⟩, fun _ _ => rfl⟩

theorem isWhole (hne : d.location (temporary output) ≠ d.location output)
    (hchanges : Disk.Changes (· ∈ places marker output d) (fun _ => True) d d')
    (h : Moved text output d d' ∨ Drafted output d d') : IsWhole marker text output d d' := by
  refine ⟨hchanges.workingDirectory, hchanges.directory, ?_, ?_, fun place hplace => hchanges.fileAt?_eq hplace⟩
  · rcases h with h | h
    · exact .inr ⟨Disk.fileAt?_eq_some_iff.2 h.placed, h.read⟩
    · have hsame := h.fileAt?_eq hne.symm
      exact .inl ⟨hsame, fun hup =>
        Disk.read?_eq_of_fileAt?_eq h.workingDirectory h.directory hup hsame⟩
  · intro houtput htemporary content
    have hfile : d.kind? (d.location (output.parent.child marker)) = some (.file content) →
        d'.kind? (d.location (output.parent.child marker)) = some (.file content) := by
      intro hmarker
      rcases h with h | h
      · exact h.file _ content houtput htemporary hmarker
      · exact (h.same _ content htemporary).2 hmarker
    rw [Disk.fileAt?_eq_some_iff, Disk.fileAt?_eq_some_iff]
    refine ⟨hfile, fun hread => ?_⟩
    exact Disk.read?_of_kind? hchanges.workingDirectory hchanges.directory hread
      (hfile (Disk.read?_eq_some_iff.1 hread).2.2)

theorem ensures_isWhole (marker text written : String) (d : Disk) :
    Ensures (emit marker text (Path.ofString written).parent (.ofString written)) d
      (fun _ d' => IsWhole marker text (.ofString written) d d' ∧
        d'.read? (.ofString written) = some text.toUTF8 ∧
        d'.fileAt? (d.location (.ofString written)) = some text.toUTF8 ∧
        d'.isFile ((Path.ofString written).parent.child marker) = true)
      (IsWhole marker text (.ofString written) d) := by
  have hne := location_temporary_ne d written
  generalize Path.ofString written = output at hne ⊢
  have hchanges : Ensures (emit marker text output.parent output) d
      (fun _ => Disk.Changes (· ∈ places marker output d) (fun _ => True) d)
      (Disk.Changes (· ∈ places marker output d) (fun _ => True) d) :=
    changes_emit (by simp [places]) trivial (by simp [places]) (by simp [places]) text
  have hmoved := ensures_moved marker text output.parent output d
  refine ⟨fun h => ?_, fun h => isWhole hne (hchanges.error h) (hmoved.error h)⟩
  obtain ⟨hplaced, hmarker⟩ := hmoved.ok h
  exact ⟨isWhole hne (hchanges.ok h) (.inl hplaced), hplaced.read, Disk.fileAt?_eq_some_iff.2 hplaced.placed, hmarker⟩

end Emission

/-- **Modules are written whole or not at all.**  Whichever operation fails on whatever disk, the place of a module
holds what it held before, or the whole text; the latter if the module was written.  A package marker that is there
stays as it is if it is neither the module nor its temporary file, and one is there if the module was written.  No
other file comes into being, changes or disappears, and nothing of the session changes but the disk. -/
theorem module_written_whole_or_not_at_all (s : Session) (script : Script) (written : String) :
    Ensures (Make.emit script.render (.ofString written)) s
      (fun _ t =>
        Emission.IsWhole s.settings.packageMarker script.render (.ofString written) s.disk t.disk ∧
        t.disk.read? (.ofString written) = some script.render.toUTF8 ∧
        t.disk.fileAt? (s.disk.location (.ofString written)) = some script.render.toUTF8 ∧
        t.disk.isFile ((Path.ofString written).parent.child s.settings.packageMarker) = true ∧
        t = { s with disk := t.disk })
      (fun t =>
        Emission.IsWhole s.settings.packageMarker script.render (.ofString written) s.disk t.disk ∧
        t = { s with disk := t.disk }) := by
  have hwhole := Emission.ensures_isWhole s.settings.packageMarker script.render written s.disk
  refine (Make.ensures_emit_of (.refl _ _ _ s.disk) hwhole).mono ?_ ?_
  · rintro _ _ ⟨d, rfl, hwhole, hread, hfile, hmarker⟩
    exact ⟨hwhole, hread, hfile, hmarker, rfl⟩
  · rintro _ ⟨d, rfl, hwhole⟩
    exact ⟨hwhole, rfl⟩

/-- A module and a package marker, on a device that stops the next module after one byte of its temporary file. -/
def interrupted : Session where
  settings := {}
  locator := .fixed (.ofString "/p")
  disk := ⟨[("p", .directory [("__init__.py", .file "kept".toUTF8), ("a_test.py", .file "old".toUTF8)])], [],
    [.operation none, .operation (some (.cutShort 1))]⟩

/-- A module without steps. -/
def blankScript : Script := ⟨"v4.3.5", "a.yml", "A", [], "", none, [], none, false, []⟩

/-- Only the temporary file is left as it was stopped: the module and the package marker hold what they held. -/
theorem module_written_whole_or_not_at_all_interrupted :
    ∃ e t, Make.emit blankScript.render (.ofString "/p/a_test.py") interrupted = .error e t ∧
      t.disk.fileAt? ["p", "a_test.py.tmp"] = some (blankScript.render.toUTF8.extract 0 1) ∧
      t.disk.fileAt? ["p", "a_test.py"] = some "old".toUTF8 ∧
      t.disk.fileAt? ["p", "__init__.py"] = some "kept".toUTF8 ∧
      ∀ place ∉ [["p", "a_test.py"], ["p", "a_test.py.tmp"], ["p", "__init__.py"]],
        t.disk.fileAt? place = interrupted.disk.fileAt? place := by
  obtain ⟨hwhole, -⟩ := (module_written_whole_or_not_at_all interrupted blankScript "/p/a_test.py").error
    (e := .disk (.device (.ofString "/p/a_test.py.tmp"))) (t := _) rfl
  exact ⟨_, _, rfl, rfl, rfl, (hwhole.atMarker (by decide) (by decide) "kept".toUTF8).1 rfl, hwhole.others⟩

end TestScribe
