/-
# Documents on a disk that modules are written to

A document is a file with the extension of a format.  Writing a module touches three files: the module, the
file of its temporary name, and the package marker.  None of them is a document unless the settings give it
the extension of one, and the documents then stay as they are.

* `Source.IsDocumentName` : the name has the extension of a format;
* `Emission.changes_emit`, `Emission.touches_emit` : what writing a module leaves alone;
* `Source.isFile_of_touches` : a document stays a file, whatever the settings are;
* `Settings.WritesNoDocument`, `Source.load_eq_ok_iff_of_touches` : documents that no module is written over.
-/
import TestScribe.Emission
import TestScribe.Settings
import TestScribe.Source
import TestScribe.Proofs.Operations

namespace TestScribe

/-! ## Names of documents -/

namespace Source

/-- The extension of a name is that of a format. -/
def IsDocumentName (name : String) : Prop :=
  ∃ format, Format.ofExtension? (Text.lower ((Path.cutName name).2.getD "")) = some format

/-- A document is loaded from a file that can be read. -/
theorem load_eq_ok_iff {d : Disk} {p : Path} {v : Value} :
    load d p = .ok v ↔ ∃ content, d.read? p = some content ∧ d.isReadable p = true ∧
      document p.extension? content = .ok v := by
  unfold load
  cases d.read? p with
  | none => simp
  | some content =>
    cases d.isReadable p with
    | false => simp
    | true => cases hdocument : document p.extension? content <;> simp [Except.mapError, hdocument]

/-- What can be loaded is a file. -/
theorem isFile_of_load {d : Disk} {p : Path} {v : Value} (h : load d p = .ok v) :
    d.isFile p = true := by
  obtain ⟨content, hread, -⟩ := load_eq_ok_iff.1 h
  exact Disk.isFile_iff.2 ⟨content, hread⟩

/-- What cannot be loaded is a fault of loading, or a fault of the disk if the file cannot be read. -/
theorem isLoadFault_of_load {d : Disk} {p : Path} {e : Fault} (h : load d p = .error e) :
    e.isLoadFault = true ∨ e = .disk (.device p) := by
  unfold load at h
  cases hread : d.read? p with
  | none =>
    rw [hread] at h
    cases h
    exact .inl rfl
  | some content =>
    rw [hread] at h
    dsimp only at h
    split at h
    · cases hdocument : document p.extension? content with
      | ok v =>
        rw [hdocument] at h
        cases h
      | error fault =>
        rw [hdocument] at h
        cases h
        exact .inl rfl
    · cases h
      exact .inr rfl

/-- What can be loaded has the name of a document. -/
theorem exists_name_of_load {d : Disk} {p : Path} {v : Value} (h : load d p = .ok v) :
    ∃ name, p.fileName? = some name ∧ IsDocumentName name := by
  obtain ⟨content, -, -, h⟩ := load_eq_ok_iff.1 h
  obtain ⟨format, hformat⟩ : ∃ format,
      Format.ofExtension? (Text.lower (p.extension?.getD "")) = some format := by
    cases hformat : Format.ofExtension? (Text.lower (p.extension?.getD "")) with
    | some format => exact ⟨format, rfl⟩
    | none =>
      simp only [document, hformat] at h
      cases hdecode : Utf8.decode content.toList <;> rw [hdecode] at h <;> cases h
  unfold Path.extension? at hformat
  cases hname : p.fileName? with
  | none =>
    rw [hname] at hformat
    cases hformat
  | some name =>
    rw [hname] at hformat
    exact ⟨name, rfl, format, hformat⟩

/-- A text after a dot at the end of a name decides whether it is that of a document. -/
theorem not_isDocumentName_append_dot (front : String) {extension : String}
    (hdot : '.' ∉ extension.toList) (hformat : Format.ofExtension? (Text.lower extension) = none) :
    ¬ IsDocumentName (front ++ "." ++ extension) := by
  rintro ⟨format, h⟩
  rw [Path.extension_append_dot front hdot] at h
  split_ifs at h
  · cases h
  · rw [Option.getD_some, hformat] at h
    cases h

theorem not_isDocumentName_temporary (front : String) : ¬ IsDocumentName (front ++ ".tmp") := by
  have htmp : front ++ ".tmp" = front ++ "." ++ "tmp" := by rw [String.append_assoc]; rfl
  rw [htmp]
  exact not_isDocumentName_append_dot front (by decide) (by decide)

end Source

/-! ## Writing a module -/

/-- Temporary names end in an extension of their own. -/
def IsTemporaryName (name : String) : Prop := ∃ front, name = front ++ ".tmp"

theorem Emission.endsIn_temporary (output : Path) :
    ∃ name, (temporary output).EndsIn name ∧ IsTemporaryName name := by
  obtain ⟨front, hend⟩ : ∃ front, (output.extend ".tmp").EndsIn (front ++ ".tmp") :=
    Path.endsIn_extend output (by decide) ⟨'t', by decide⟩
  exact ⟨_, hend, front, rfl⟩

/-- Writing a module touches nothing but the module, its temporary file and the package marker, and removes
nothing but the temporary file. -/
theorem Emission.changes_emit {touched removed : List String → Prop} {directory output : Path}
    {marker : String} {d : Disk} (htemporary : touched (d.location (temporary output)))
    (hremoved : removed (d.location (temporary output)))
    (houtput : ∀ name, output.EndsIn name → touched (d.location output))
    (hmarker : ∀ name, (directory.child marker).EndsIn name → touched (d.location (directory.child marker)))
    (text : String) :
    Ensures (emit marker text directory output) d (fun _ => Disk.Changes touched removed d)
      (Disk.Changes touched removed d) := by
  -- places do not depend on the moment, since the working directory stays
  have hlocation : ∀ {d'}, Disk.Changes touched removed d d' → ∀ p, d'.location p = d.location p :=
    fun h => Disk.location_of_workingDirectory_eq h.workingDirectory
  refine .bind (Disk.changes_createDirectories directory d) ?_
  intro _ d₁ h₁
  refine .bind ((Disk.changes_write (fun _ _ => by rwa [hlocation h₁]) _).mono (fun _ _ => h₁.trans)
    fun _ => h₁.trans) ?_
  intro _ d₂ h₂
  refine .bind ((Disk.changes_rename (by rwa [hlocation h₂]) (by rwa [hlocation h₂])
    (by rwa [hlocation h₂])).mono (fun _ _ => h₂.trans) fun _ => h₂.trans) ?_
  intro _ d₃ h₃
  refine .bind .get ?_
  rintro _ _ ⟨rfl, rfl⟩
  split
  · exact .pure h₃
  · exact (Disk.changes_write (by rwa [hlocation h₃]) _).mono (fun _ _ => h₃.trans) fun _ => h₃.trans

/-- What writing a module touches, by the names of files. -/
theorem Emission.touches_emit {touched : String → Prop} {directory output : Path} {marker : String}
    (htemporary : ∀ name, IsTemporaryName name → touched name)
    (houtput : ∀ name, output.EndsIn name → touched name)
    (hmarker : ∀ name, (directory.child marker).EndsIn name → touched name) (text : String) (d : Disk) :
    Ensures (emit marker text directory output) d (fun _ => Disk.Touches touched IsTemporaryName d)
      (Disk.Touches touched IsTemporaryName d) := by
  obtain ⟨name, hend, hname⟩ := endsIn_temporary output
  exact changes_emit (Disk.named_location hend (htemporary name hname)) (Disk.named_location hend hname)
    (fun name hend => Disk.named_location hend (houtput name hend))
    (fun name hend => Disk.named_location hend (hmarker name hend)) text

/-! ## Documents that stay -/

namespace Source

variable {touched : String → Prop} {d d' : Disk}

/-- The place of a loaded document has the name of a document. -/
theorem getLast?_location {p : Path} (hp : p.normalize = p) {name : String}
    (hname : p.fileName? = some name) : (d.location p).getLast? = some name := by
  obtain ⟨above, -, hlocation⟩ := Disk.location_of_endsIn (d := d) (Path.endsIn_of_normal hp hname)
  rw [hlocation, List.getLast?_concat]

/-- A file with the name of a document stays a file. -/
theorem isFile_of_touches (h : Disk.Touches touched IsTemporaryName d d') {p : Path}
    (hp : p.normalize = p) {name : String} (hname : p.fileName? = some name)
    (hdocument : IsDocumentName name) (hfile : d.isFile p = true) : d'.isFile p = true := by
  obtain ⟨content, hread⟩ := Disk.isFile_iff.1 hfile
  obtain ⟨hne, hway, hkind⟩ := Disk.read?_eq_some_iff.1 hread
  have hnot : ¬ Disk.Named IsTemporaryName (d.location p) := by
    rintro ⟨other, hother, front, rfl⟩
    rw [getLast?_location hp hname] at hother
    cases hother
    exact not_isDocumentName_temporary front hdocument
  obtain ⟨content', hkind'⟩ := h.file _ content hkind hnot
  refine Disk.isFile_iff.2 ⟨content', Disk.read?_eq_some_iff.2 ⟨hne, ?_, ?_⟩⟩
  · rw [Disk.way_of_workingDirectory_eq h.workingDirectory]
    exact fun v hv => h.directory v (hway v hv)
  · rwa [Disk.location_of_workingDirectory_eq h.workingDirectory]

/-- A document that is not touched is read as before, if the working directory is there. -/
theorem read?_eq_some_iff_of_touches (h : Disk.Touches touched IsTemporaryName d d')
    (hworking : d.kind? d.workingDirectory = some .directory) {p : Path} (hp : p.normalize = p)
    {name : String} (hname : p.fileName? = some name) (htouched : ¬ touched name)
    (content : ByteArray) : d'.read? p = some content ↔ d.read? p = some content := by
  have hlocation := Disk.location_of_workingDirectory_eq h.workingDirectory p
  have hway := Disk.way_of_workingDirectory_eq h.workingDirectory p
  have hsame : d'.kind? (d.location p) = some (.file content) ↔
      d.kind? (d.location p) = some (.file content) := by
    apply h.same
    rintro ⟨other, hother, hnot⟩
    rw [getLast?_location hp hname] at hother
    cases hother
    exact htouched hnot
  rw [Disk.read?_eq_some_iff, Disk.read?_eq_some_iff, hlocation, hway, hsame]
  constructor
  · rintro ⟨hne, -, hkind⟩
    exact ⟨hne, Disk.kind?_of_mem_way_of_normal (Disk.kind?_start hworking p) hp (by simp [hkind]), hkind⟩
  · rintro ⟨hne, hdirectories, hkind⟩
    exact ⟨hne, fun v hv => h.directory v (hdirectories v hv), hkind⟩

/-- A file of the same content is loaded as before, if the same places cannot be read. -/
theorem load_of_read?_eq (hworking : d'.workingDirectory = d.workingDirectory)
    (hunreadable : d'.unreadable = d.unreadable) {p : Path} (hread : d'.read? p = d.read? p) :
    load d' p = load d p := by
  unfold load
  rw [hread]
  cases hcontent : d.read? p with
  | none => rfl
  | some content =>
    dsimp only
    rw [Disk.isReadable_of_read? (hread.trans hcontent), Disk.isReadable_of_read? hcontent, hunreadable,
      Disk.location_of_workingDirectory_eq hworking]

/-- A document is loaded as before, if no document is touched and the working directory is there. -/
theorem load_eq_ok_iff_of_touches (htouched : ∀ name, IsDocumentName name → ¬ touched name)
    (h : Disk.Touches touched IsTemporaryName d d')
    (hworking : d.kind? d.workingDirectory = some .directory) {p : Path} (hp : p.normalize = p)
    (v : Value) : load d' p = .ok v ↔ load d p = .ok v := by
  have hread : ∀ name, p.fileName? = some name → IsDocumentName name → load d' p = load d p := by
    intro name hname hdocument
    have hsame : d'.read? p = d.read? p :=
      Option.ext (read?_eq_some_iff_of_touches h hworking hp hname (htouched name hdocument))
    exact load_of_read?_eq h.workingDirectory h.unreadable hsame
  constructor
  · intro hload
    obtain ⟨name, hname, hdocument⟩ := exists_name_of_load hload
    rwa [hread name hname hdocument] at hload
  · intro hload
    obtain ⟨name, hname, hdocument⟩ := exists_name_of_load hload
    rwa [hread name hname hdocument]

end Source

/-! ## Settings -/

/-- A text without separators that ends in an extension, which is that of no format. -/
def Settings.EndsNoDocument (text : String) : Prop :=
  '/' ∉ text.toList ∧ ∃ front extension, text = front ++ "." ++ extension ∧ extension ≠ "" ∧
    '.' ∉ extension.toList ∧ Source.Format.ofExtension? (Text.lower extension) = none

theorem Settings.EndsNoDocument.not_isDocumentName {text : String} (h : EndsNoDocument text)
    (stem : String) : ¬ Source.IsDocumentName (stem ++ text) := by
  obtain ⟨-, front, extension, rfl, -, hdot, hformat⟩ := h
  rw [← String.append_assoc, ← String.append_assoc]
  exact Source.not_isDocumentName_append_dot (stem ++ front) hdot hformat

theorem Settings.EndsNoDocument.exists_ne_dot {text : String} (h : EndsNoDocument text) :
    ∃ c ∈ text.toList, c ≠ '.' := by
  obtain ⟨-, front, extension, rfl, hne, hdot, -⟩ := h
  obtain ⟨c, cs, hcs⟩ := List.exists_cons_of_ne_nil (l := extension.toList) (by simpa using hne)
  refine ⟨c, by simp [hcs], ?_⟩
  rintro rfl
  exact hdot (by simp [hcs])

/-- The files that are written have no names of documents. -/
structure Settings.WritesNoDocument (settings : Settings) : Prop where
  suffix : EndsNoDocument settings.generatedSuffix
  marker : EndsNoDocument settings.packageMarker

theorem Settings.writesNoDocument_default : ({} : Settings).WritesNoDocument where
  suffix := ⟨by decide, "_test", "py", by decide, by decide, by decide, by decide⟩
  marker := ⟨by decide, "__init__", "py", by decide, by decide, by decide, by decide⟩

end TestScribe
